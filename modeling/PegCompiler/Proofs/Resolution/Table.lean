import Mathlib.Data.List.Nodup
import PegCompiler.Proofs.Naming.Bases
import PegCompiler.Proofs.Resolution.Rules
import PegCompiler.Proofs.Resolved.Typed
/-
  The rule table, and what a grammar without defects looks like from its rules. Ids
  occur once and one rule is the start rule, so the table has an entry for every
  rule, made of that rule's own base and type, and for nothing else.
-/

namespace PegCompiler.Resolution

open Resolved (BaseName RuleNames ruleFunction)

/-! ## Grammars without defects -/

theorem nodup_of_repeatedId : ∀ {ids seen : List String}, repeatedId seen ids = none →
    ids.Nodup ∧ ∀ id ∈ ids, id ∉ seen
  | [], _, _ => by simp
  | id :: ids, seen, h => by
    unfold repeatedId at h
    split at h
    next => cases h
    next hnew =>
      obtain ⟨hnodup, hseen⟩ := nodup_of_repeatedId h
      refine ⟨List.nodup_cons.mpr ⟨fun hid => hseen id hid (by simp), hnodup⟩, fun other ho => ?_⟩
      rcases List.mem_cons.mp ho with rfl | ho
      · simpa using hnew
      · exact fun hs => hseen other ho (List.mem_cons_of_mem _ hs)

/-- The rules of a grammar without defects have ids of their own, and one is the start
rule. -/
theorem sound_of_rulesDefect {rules : List Grammar.Rule} (h : rulesDefect rules = none) :
    (rules.map (fun r => r.id)).Nodup ∧ ∃ r, OnlyOne rules (fun r => r.start) r := by
  unfold rulesDefect at h
  split at h
  next => cases h
  next hids =>
    refine ⟨(nodup_of_repeatedId hids).1, ?_⟩
    unfold OnlyOne
    rcases hf : rules.filter (fun r => r.start) with _ | ⟨r, _ | ⟨s, more⟩⟩
    · simp [hf] at h
    · exact ⟨r, hf⟩
    · simp [hf] at h

/-! ## The table -/

/-- The entry of a rule with a base. -/
def entry (types : ActionTypes) (rule : Grammar.Rule) (base : BaseName) : RuleInfo :=
  ⟨base, ruleFunction base, ruleResult rule types⟩

theorem mem_ofRules {rules : List Grammar.Rule} {types : ActionTypes} {id : String}
    {info : RuleInfo} :
    (id, info) ∈ (Env.ofRules rules types).rules ↔ ∃ rule ∈ rules, ∃ base,
      (RuleNames.ofIds (rules.map (fun r => r.id))).base rule.id = some base ∧ rule.id = id ∧
        entry types rule base = info := by
  simp only [Env.ofRules, List.mem_filterMap, Option.map_eq_some_iff, Prod.mk.injEq]
  rfl

/-- An entry of the table is that of a rule. -/
theorem rule_ofRules_some {rules : List Grammar.Rule} {types : ActionTypes} {id : String}
    {info : RuleInfo} (h : (Env.ofRules rules types).rule id = some info) :
    ∃ rule ∈ rules, ∃ base,
      (RuleNames.ofIds (rules.map (fun r => r.id))).base rule.id = some base ∧ rule.id = id ∧
        entry types rule base = info := by
  obtain ⟨l₁, l₂, hl, -⟩ := List.lookup_eq_some_iff.mp h
  refine mem_ofRules.mp (List.mem_reverse.mp ?_)
  rw [hl]
  simp

/-- Every rule has its entry in the table. -/
theorem rule_ofRules_of_mem {rules : List Grammar.Rule} (types : ActionTypes) {rule : Grammar.Rule}
    (hids : (rules.map (fun r => r.id)).Nodup) (h : rule ∈ rules) : ∃ base,
    (RuleNames.ofIds (rules.map (fun r => r.id))).base rule.id = some base ∧
      (Env.ofRules rules types).rule rule.id = some (entry types rule base) := by
  obtain ⟨base, hbase⟩ := Naming.exists_base (List.mem_map_of_mem (f := fun r => r.id) h)
  have hmem : (rule.id, entry types rule base) ∈ (Env.ofRules rules types).rules :=
    mem_ofRules.mpr ⟨rule, h, base, hbase, rfl, rfl⟩
  have hsome : ((Env.ofRules rules types).rule rule.id).isSome :=
    List.lookup_isSome_iff.mpr ⟨_, List.mem_reverse.mpr hmem, beq_self_eq_true _⟩
  obtain ⟨info, hinfo⟩ := Option.isSome_iff_exists.mp hsome
  obtain ⟨other, hother, base', hbase', hid, rfl⟩ := rule_ofRules_some hinfo
  obtain rfl : other = rule := List.inj_on_of_nodup_map hids hother h hid
  obtain rfl : base' = base := Option.some.inj (hbase'.symm.trans hbase)
  exact ⟨base', hbase, hinfo⟩

/-- The context of the alternatives of a rule. -/
def Env.context (env : Env) (rule : Grammar.Rule) : Context :=
  { rule := rule.id, base := (env.info rule).base, start := rule.start }

theorem info_of_rule {env : Env} {rule : Grammar.Rule} {info : RuleInfo}
    (h : env.rule rule.id = some info) : env.info rule = info := by
  rw [Env.info, h]
  rfl

/-! ## What a resolved grammar was made from -/

/-- What resolution makes of a rule. -/
theorem of_resolveRule {env : Env} {rule : Grammar.Rule} {r : Resolved.Rule} {out out' : Emitted}
    (h : Yields (resolveRule env rule) out r out') :
    rule.alternatives ≠ [] ∧ ∃ rs,
      Yields (resolveAlternatives env (env.context rule) 0 rule.alternatives)
        (out.addNote (.rule rule.id (env.info rule).function)) rs out' ∧
      typeConflict out' rule.id (env.info rule).resultType rs = none ∧
      r = ⟨rule.id, (env.info rule).function, rule.start, (env.info rule).resultType,
        ⟨rs, some Resolved.resultVar⟩⟩ := by
  unfold resolveRule at h
  simp only [note, resolveChoice, Yields.bind_iff, Yields.modify_iff, Yields.get_iff] at h
  obtain ⟨_, _, rfl, rs, _, ⟨_, _, hcheck, hrs⟩, _, _, ⟨rfl, rfl⟩, h⟩ := h
  obtain ⟨rfl, hne⟩ := yields_checkChoice hcheck
  refine ⟨hne, rs, ?_⟩
  split at h
  next => simp at h
  next hconflict =>
    obtain ⟨rfl, rfl⟩ := Yields.pure_iff.mp h
    exact ⟨hrs, hconflict, rfl⟩

/-- What resolution makes of a grammar. -/
theorem of_resolve {g : Grammar} {types : ActionTypes} {p : Resolved.Parser}
    (h : resolve g types = .ok p) :
    rulesDefect g.rules = none ∧ ∃ out,
      Yields (g.rules.mapM (resolveRule (.ofRules g.rules types))) {} p.rules out ∧
        out.unresolved = [] ∧ p.actions = out.actions := by
  unfold resolve resolveNoted at h
  split at h
  next => cases h
  next rules out hrun =>
    split at h
    next hempty =>
      injection h with h
      subst h
      unfold resolveRules at hrun
      split at hrun
      next => cases hrun
      next hdefect => exact ⟨hdefect, out, hrun, List.isEmpty_iff.mp hempty, rfl⟩
    next => cases h

end PegCompiler.Resolution
