import PegCompiler.Proofs.Naming.Distinct
import PegCompiler.Proofs.Resolution.Rows
import PegCompiler.Proofs.Resolution.Table
/-
  What resolution extracts. Extracted functions and recorded references stay
  (`Grows`), and the functions have names of their own: a predicate is numbered by the
  count of its rule, an action by its alternative, and rules have bases of their own.
  `Numbered` is the invariant; nothing but an alternative of a rule raises its bound
  for the actions of the rule.
-/

namespace PegCompiler.Resolution

open Resolved (BaseName RuleNames actionFunction predicateFunction)

/-! ## Growth -/

/-- What was extracted stays, in front of what comes after it. -/
structure Grows (out out' : Emitted) : Prop where
  actions : out.actions <+: out'.actions
  unresolved : out.unresolved <+: out'.unresolved

namespace Grows

theorem refl (out : Emitted) : Grows out out :=
  ⟨List.prefix_refl _, List.prefix_refl _⟩

theorem trans {a b c : Emitted} (h : Grows a b) (h' : Grows b c) : Grows a c :=
  ⟨h.actions.trans h'.actions, h.unresolved.trans h'.unresolved⟩

theorem addNote (out : Emitted) (n : Note) : Grows out (out.addNote n) :=
  ⟨List.prefix_refl _, List.prefix_refl _⟩

theorem addAction (out : Emitted) (a : Resolved.Action) : Grows out (out.addAction a) :=
  ⟨List.prefix_append _ _, List.prefix_refl _⟩

theorem of_resolvePredicate {ctx : Context} {p : Grammar.Predicate} {call : Resolved.ActionCall}
    {out out' : Emitted} (h : Yields (resolvePredicate ctx p) out call out') : Grows out out' := by
  obtain ⟨_, _, _, _, rfl⟩ := Resolution.of_resolvePredicate h
  exact ⟨List.prefix_append _ _, List.prefix_refl _⟩

theorem of_ruleCall {env : Env} {ctx : Context} {target : String} {call : Resolved.RuleCall}
    {out out' : Emitted} (h : Yields (ruleCall env ctx target) out call out') : Grows out out' := by
  obtain ⟨_, _, _, rfl⟩ | ⟨_, _, rfl⟩ := Resolution.of_ruleCall h
  · exact refl _
  · exact ⟨List.prefix_refl _, List.prefix_append _ _⟩

theorem of_rowValue {env : Env} {ctx : Context} {row : Row} {action : Option String}
    {value : Resolved.AltResult × Resolved.ValueType} {out out' : Emitted}
    (h : Yields (rowValue env ctx row action) out value out') : Grows out out' := by
  cases action with
  | none =>
    obtain ⟨rfl, -⟩ := of_rowValue_none h
    exact refl _
  | some code =>
    obtain ⟨-, -, -, rfl⟩ := of_rowValue_some h
    exact addAction _ _

/-- Every part of resolution grows. -/
def relations : Relations where
  alternatives _ _ out _ _ out' := Grows out out'
  alternative _ out _ _ out' := Grows out out'
  elements _ _ _ out _ _ _ out' := Grows out out'
  element _ out _ _ out' := Grows out out'
  quantified _ out _ _ out' := Grows out out'
  expr _ out _ _ out' := Grows out out'

theorem closed (env : Env) : relations.Closed env where
  noAlternatives := refl _
  moreAlternatives ha hrest := ((addNote _ _).trans ha).trans hrest
  row hes hvalue := hes.trans (of_rowValue hvalue)
  noElements := refl _
  moreElements he hrest := he.trans hrest
  predicate := of_resolvePredicate
  lookahead h := h
  reference _ hcall := of_ruleCall hcall
  group _ _ h _ := h
  item _ _ h := h
  once h := h
  repeated h _ := h.trans (addNote _ _)
  separated h _ hs := (h.trans hs).trans (addNote _ _)
  literal := refl _
  charClass _ := refl _
  ruleRef := of_ruleCall
  anyChar := refl _
  endOfInput := refl _
  nested _ h := h

theorem of_resolveRule {env : Env} {rule : Grammar.Rule} {r : Resolved.Rule} {out out' : Emitted}
    (h : Yields (resolveRule env rule) out r out') : Grows out out' := by
  obtain ⟨_, _, hrs, _⟩ := Resolution.of_resolveRule h
  exact (addNote _ _).trans ((closed env).alternatives _ hrs)

theorem of_rules {env : Env} : ∀ {rules : List Grammar.Rule} {rs : List Resolved.Rule}
    {out out' : Emitted}, Yields (rules.mapM (resolveRule env)) out rs out' → Grows out out'
  | [], _, _, _, h => by
    obtain ⟨-, rfl⟩ := Yields.mapM_nil_iff.mp h
    exact refl _
  | _ :: _, _, _, _, h => by
    obtain ⟨_, _, hr, _, hrest, -⟩ := Yields.mapM_cons_iff.mp h
    exact (of_resolveRule hr).trans (of_rules hrest)

end Grows

/-! ## The number of predicates -/

theorem lookup_filter_ne {α : Type} {a b : String} (hne : b ≠ a) : ∀ (xs : List (String × α)),
    (xs.filter (fun entry => entry.1 != a)).lookup b = xs.lookup b
  | [] => rfl
  | (c, x) :: xs => by
    have ih := lookup_filter_ne hne xs
    by_cases hc : c = a
    · subst hc
      rw [List.filter_cons_of_neg (by simp), ih, List.lookup_cons, beq_false_of_ne hne]
    · rw [List.filter_cons_of_pos (by simpa using hc), List.lookup_cons, List.lookup_cons, ih]

theorem predicateCount_next (out : Emitted) (rule other : String) :
    (out.nextPredicate rule).2.predicateCount other =
      if other = rule then out.predicateCount rule + 1 else out.predicateCount other := by
  unfold Emitted.nextPredicate Emitted.predicateCount
  dsimp only
  split
  next h => simp [h]
  next h => rw [List.lookup_cons, beq_false_of_ne h, lookup_filter_ne h]

/-! ## Names -/

/-- The name of a predicate or an action of a rule, with a number that was given out:
`limit` bounds those of actions. -/
def Issued (names : RuleNames) (limit : String → Nat) (out : Emitted) (name : String) : Prop :=
  ∃ rule base k, names.base rule = some base ∧
    (name = predicateFunction base k ∧ k < out.predicateCount rule ∨
      name = actionFunction base k ∧ k < limit rule)

/-- Extracted functions have names of their own, all of them given out. -/
structure Numbered (names : RuleNames) (limit : String → Nat) (out : Emitted) : Prop where
  nodup : (out.actions.map (fun a => a.function)).Nodup
  issued : ∀ a ∈ out.actions, Issued names limit out a.function

/-- The bound for actions with that of one rule changed. -/
def upTo (limit : String → Nat) (rule : String) (n : Nat) : String → Nat :=
  fun other => if other = rule then n else limit other

@[simp] theorem upTo_self (limit : String → Nat) (rule : String) (n : Nat) :
    upTo limit rule n rule = n :=
  if_pos rfl

theorem upTo_mono (limit : String → Nat) (rule : String) {m n : Nat} (h : m ≤ n)
    (other : String) : upTo limit rule m other ≤ upTo limit rule n other := by
  unfold upTo
  split
  · exact h
  · exact Nat.le_refl _

section
variable {ids : List String} {limit : String → Nat} {out : Emitted}

theorem Issued.mono {names : RuleNames} {limit' : String → Nat} {out' : Emitted} {name : String}
    (h : Issued names limit out name)
    (hcount : ∀ rule, out.predicateCount rule ≤ out'.predicateCount rule)
    (hlimit : ∀ rule, limit rule ≤ limit' rule) : Issued names limit' out' name := by
  obtain ⟨rule, base, k, hbase, ⟨hname, hk⟩ | ⟨hname, hk⟩⟩ := h
  · exact ⟨rule, base, k, hbase, .inl ⟨hname, Nat.lt_of_lt_of_le hk (hcount rule)⟩⟩
  · exact ⟨rule, base, k, hbase, .inr ⟨hname, Nat.lt_of_lt_of_le hk (hlimit rule)⟩⟩

theorem Numbered.addNote {names : RuleNames} (h : Numbered names limit out) (n : Note) :
    Numbered names limit (out.addNote n) :=
  ⟨h.nodup, h.issued⟩

theorem Numbered.mono {names : RuleNames} {limit' : String → Nat} (h : Numbered names limit out)
    (hlimit : ∀ rule, limit rule ≤ limit' rule) : Numbered names limit' out :=
  ⟨h.nodup, fun a ha => (h.issued a ha).mono (fun _ => Nat.le_refl _) hlimit⟩

/-- A function with a new name keeps the invariant. -/
theorem Numbered.add {names : RuleNames} {limit' : String → Nat} {out' : Emitted}
    {a : Resolved.Action} (h : Numbered names limit out) (hout : out'.actions = out.actions ++ [a])
    (hcount : ∀ rule, out.predicateCount rule ≤ out'.predicateCount rule)
    (hlimit : ∀ rule, limit rule ≤ limit' rule) (hnew : ¬ Issued names limit out a.function)
    (ha : Issued names limit' out' a.function) : Numbered names limit' out' := by
  constructor
  · rw [hout, List.map_append, List.map_singleton, ← List.concat_eq_append]
    refine List.Nodup.concat ?_ h.nodup
    rintro hmem
    obtain ⟨b, hb, hname⟩ := List.mem_map.mp hmem
    exact hnew (hname ▸ h.issued b hb)
  · intro b hb
    rw [hout] at hb
    rcases List.mem_append.mp hb with hb | hb
    · exact (h.issued b hb).mono hcount hlimit
    · exact List.mem_singleton.mp hb ▸ ha

theorem not_issued_predicate {rule : String} {base : BaseName}
    (hbase : (RuleNames.ofIds ids).base rule = some base) :
    ¬ Issued (RuleNames.ofIds ids) limit out
      (predicateFunction base (out.predicateCount rule)) := by
  rintro ⟨other, base', k, hbase', ⟨hname, hk⟩ | ⟨hname, -⟩⟩
  · obtain ⟨hshown, rfl⟩ := Naming.predicateFunction_inj hname
    obtain rfl := Naming.base_inj hbase hbase' hshown
    exact Nat.lt_irrefl _ hk
  · refine Naming.ne_of_word ?_ hname
    rw [Naming.word_predicateFunction, Naming.word_actionFunction]
    decide

theorem not_issued_action {rule : String} {base : BaseName} {k : Nat}
    (hbase : (RuleNames.ofIds ids).base rule = some base) (hk : limit rule ≤ k) :
    ¬ Issued (RuleNames.ofIds ids) limit out (actionFunction base k) := by
  rintro ⟨other, base', j, hbase', ⟨hname, -⟩ | ⟨hname, hj⟩⟩
  · refine Naming.ne_of_word ?_ hname
    rw [Naming.word_predicateFunction, Naming.word_actionFunction]
    decide
  · obtain ⟨hshown, rfl⟩ := Naming.actionFunction_inj hname
    obtain rfl := Naming.base_inj hbase hbase' hshown
    exact absurd hj (Nat.not_lt.mpr hk)

theorem Numbered.of_resolvePredicate {ctx : Context} {p : Grammar.Predicate}
    {call : Resolved.ActionCall} {out' : Emitted}
    (hctx : (RuleNames.ofIds ids).base ctx.rule = some ctx.base)
    (h : Yields (resolvePredicate ctx p) out call out')
    (hn : Numbered (RuleNames.ofIds ids) limit out) :
    Numbered (RuleNames.ofIds ids) limit out' := by
  obtain ⟨sourced, -, -, rfl, rfl⟩ := Resolution.of_resolvePredicate h
  have hcount (rule : String) := predicateCount_next out ctx.rule rule
  refine hn.add rfl (fun rule => ?_) (fun _ => Nat.le_refl _) (not_issued_predicate hctx)
    ⟨ctx.rule, ctx.base, _, hctx, .inl ⟨rfl, ?_⟩⟩
  · show _ ≤ (out.nextPredicate ctx.rule).2.predicateCount rule
    rw [hcount]
    split
    next h => exact h ▸ Nat.le_succ _
    next => exact Nat.le_refl _
  · show _ < (out.nextPredicate ctx.rule).2.predicateCount ctx.rule
    rw [hcount, if_pos rfl]
    exact Nat.lt_succ_self _

theorem Numbered.of_ruleCall {names : RuleNames} {env : Env} {ctx : Context} {target : String}
    {call : Resolved.RuleCall} {out' : Emitted}
    (h : Yields (ruleCall env ctx target) out call out') (hn : Numbered names limit out) :
    Numbered names limit out' := by
  obtain ⟨_, _, _, rfl⟩ | ⟨_, _, rfl⟩ := Resolution.of_ruleCall h
  · exact hn
  · exact ⟨hn.nodup, hn.issued⟩

/-- The action of an alternative of a rule takes the number of the alternative. -/
theorem Numbered.of_rowValue {env : Env} {ctx : Context} {row : Row} {action : Option String}
    {value : Resolved.AltResult × Resolved.ValueType} {out' : Emitted}
    (hctx : (RuleNames.ofIds ids).base ctx.rule = some ctx.base)
    (h : Yields (rowValue env ctx row action) out value out')
    (hn : Numbered (RuleNames.ofIds ids) (upTo limit ctx.rule ctx.alternative) out) :
    Numbered (RuleNames.ofIds ids) (upTo limit ctx.rule (ctx.alternative + 1)) out' := by
  have hmono := upTo_mono limit ctx.rule (Nat.le_succ ctx.alternative)
  cases action with
  | none =>
    obtain ⟨rfl, -⟩ := of_rowValue_none h
    exact hn.mono hmono
  | some code =>
    obtain ⟨-, -, -, rfl⟩ := of_rowValue_some h
    exact hn.add rfl (fun _ => Nat.le_refl _) hmono
      (not_issued_action hctx (Nat.le_of_eq (upTo_self _ _ _)))
      ⟨ctx.rule, ctx.base, _, hctx, .inr ⟨rfl, by simp⟩⟩

/-- The value of a row in a group extracts nothing. -/
theorem Numbered.of_rowValue_nested {names : RuleNames} {env : Env} {ctx : Context} {row : Row}
    {action : Option String} {value : Resolved.AltResult × Resolved.ValueType} {out' : Emitted}
    (hpath : ctx.path ≠ []) (h : Yields (rowValue env ctx row action) out value out')
    (hn : Numbered names limit out) : Numbered names limit out' := by
  cases action with
  | none =>
    obtain ⟨rfl, -⟩ := of_rowValue_none h
    exact hn
  | some code => exact absurd (of_rowValue_some h).1 hpath

end

/-! ## Every part of resolution keeps the names -/

namespace Numbered

variable (ids : List String)

/-- The invariant is kept, whatever the bound. -/
def Kept (ctx : Context) (out out' : Emitted) : Prop :=
  (RuleNames.ofIds ids).base ctx.rule = some ctx.base → ∀ limit,
    Numbered (RuleNames.ofIds ids) limit out → Numbered (RuleNames.ofIds ids) limit out'

/-- The invariant is kept, and its bound for the rule goes from one number to another
for alternatives of the rule itself. -/
def Counted (ctx : Context) (i j : Nat) (out out' : Emitted) : Prop :=
  (ctx.path ≠ [] → Kept ids ctx out out') ∧
  (ctx.path = [] → (RuleNames.ofIds ids).base ctx.rule = some ctx.base → ∀ limit,
    Numbered (RuleNames.ofIds ids) (upTo limit ctx.rule i) out →
      Numbered (RuleNames.ofIds ids) (upTo limit ctx.rule j) out')

def relations : Relations where
  alternatives ctx i out as _ out' := Counted ids ctx i (i + as.length) out out'
  alternative ctx out _ _ out' := Counted ids ctx ctx.alternative (ctx.alternative + 1) out out'
  elements ctx _ _ out _ _ _ out' := Kept ids ctx out out'
  element ctx out _ _ out' := Kept ids ctx out out'
  quantified ctx out _ _ out' := Kept ids ctx out out'
  expr ctx out _ _ out' := Kept ids ctx out out'

theorem path_enterGroup (ctx : Context) : ctx.enterGroup.path ≠ [] := by
  simp [Context.enterGroup, Context.groupPath]

theorem closed (env : Env) : (relations ids).Closed env where
  noAlternatives := ⟨fun _ _ _ h => h, fun _ _ _ h => h⟩
  moreAlternatives {ctx i out a rest r rs mid out'} ha hrest := by
    -- alternatives of a group number no actions, those of a rule one each
    refine ⟨fun hpath hctx limit hn => hrest.1 hpath hctx limit
      (ha.1 hpath hctx limit (hn.addNote _)), fun hpath hctx limit hn => ?_⟩
    have hn := hrest.2 hpath hctx limit (ha.2 hpath hctx limit (hn.addNote _))
    rwa [Nat.add_assoc, Nat.add_comm 1] at hn
  row hes hvalue := ⟨fun hpath hctx limit hn => (hes hctx limit hn).of_rowValue_nested hpath hvalue,
    fun hpath hctx limit hn => (hes hctx _ hn).of_rowValue hctx hvalue⟩
  noElements := fun _ _ h => h
  moreElements he hrest := fun hctx limit hn => hrest hctx limit (he hctx limit hn)
  predicate h := fun hctx _ hn => hn.of_resolvePredicate hctx h
  lookahead h := h
  reference _ hcall := fun _ _ hn => hn.of_ruleCall hcall
  group _ _ h _ := fun hctx limit hn => h.1 (path_enterGroup _) hctx limit hn
  item _ _ h := h
  once h := h
  repeated h _ := fun hctx limit hn => (h hctx limit hn).addNote _
  separated h _ hs := fun hctx limit hn => (hs hctx limit (h hctx limit hn)).addNote _
  literal := fun _ _ h => h
  charClass _ := fun _ _ h => h
  ruleRef hcall := fun _ _ hn => hn.of_ruleCall hcall
  anyChar := fun _ _ h => h
  endOfInput := fun _ _ h => h
  nested _ h := fun hctx limit hn => h.1 (path_enterGroup _) hctx limit hn

/-- The rules of a grammar one after another keep the names, and the actions of a rule
are numbered by its alternatives. -/
theorem of_rules {g : Grammar} {types : ActionTypes} (hids : (g.rules.map (fun r => r.id)).Nodup) :
    ∀ {rules : List Grammar.Rule} {rs : List Resolved.Rule} {out out' : Emitted}
      {limit : String → Nat}, rules ⊆ g.rules →
      Yields (rules.mapM (resolveRule (.ofRules g.rules types))) out rs out' →
      (rules.map (fun r => r.id)).Nodup → (∀ r ∈ rules, limit r.id = 0) →
      Numbered (RuleNames.ofIds (g.rules.map (fun r => r.id))) limit out →
      ∃ limit', Numbered (RuleNames.ofIds (g.rules.map (fun r => r.id))) limit' out' ∧
        (∀ r ∈ rules, limit' r.id = r.alternatives.length) ∧
        ∀ id ∉ rules.map (fun r => r.id), limit' id = limit id
  | [], _, _, _, limit, _, h, _, _, hn => by
    obtain ⟨-, rfl⟩ := Yields.mapM_nil_iff.mp h
    exact ⟨limit, hn, by simp, fun _ _ => rfl⟩
  | rule :: rest, _, out, out', limit, hsub, h, hnodup, hlimit, hn => by
    obtain ⟨r, mid, hr, rs, hrest, -⟩ := Yields.mapM_cons_iff.mp h
    rw [List.map_cons, List.nodup_cons] at hnodup
    obtain ⟨base, hbase, hinfo⟩ := rule_ofRules_of_mem types hids (hsub (List.mem_cons_self ..))
    obtain ⟨-, alternatives, hrs, -⟩ := of_resolveRule hr
    have hctx : ((Env.ofRules g.rules types).context rule).base = base := by
      rw [Env.context, info_of_rule hinfo]
      rfl
    have hzero : upTo limit rule.id 0 = limit := by
      funext other
      unfold upTo
      split
      next h => exact h ▸ (hlimit rule (by simp)).symm
      next => rfl
    have hmid := ((closed _ _).alternatives _ hrs).2 rfl (hctx ▸ hbase) limit
      (by simpa only [Env.context, hzero] using hn.addNote _)
    rw [Nat.zero_add] at hmid
    have hother : ∀ id ≠ rule.id, upTo limit rule.id rule.alternatives.length id = limit id :=
      fun id hne => if_neg hne
    have hne : ∀ s ∈ rest, s.id ≠ rule.id := fun s hs he =>
      hnodup.1 (he ▸ List.mem_map_of_mem (f := fun r => r.id) hs)
    obtain ⟨limit', hn', hlimits, hkept⟩ := of_rules hids (fun r hr => hsub (by simp [hr])) hrest
      hnodup.2 (fun s hs => (hother s.id (hne s hs)).trans (hlimit s (by simp [hs]))) hmid
    refine ⟨limit', hn', ?_, fun id hid => ?_⟩
    · intro s hs
      rcases List.mem_cons.mp hs with rfl | hs
      · exact (hkept s.id hnodup.1).trans (upTo_self ..)
      · exact hlimits s hs
    · rw [List.map_cons, List.mem_cons, not_or] at hid
      exact (hkept id hid.2).trans (hother id hid.1)

end Numbered

/-- The functions that are extracted from a grammar have names of their own, of words
of their own kinds; the actions of a rule are numbered by its alternatives. -/
theorem actions_of_resolve {g : Grammar} {types : ActionTypes} {p : Resolved.Parser}
    (h : resolve g types = .ok p) : ∃ limit out,
      Numbered (RuleNames.ofIds (g.rules.map (fun r => r.id))) limit out ∧
        p.actions = out.actions ∧ (∀ rule ∈ g.rules, limit rule.id = rule.alternatives.length) ∧
        Yields (g.rules.mapM (resolveRule (.ofRules g.rules types))) {} p.rules out := by
  obtain ⟨hdefect, out, hrules, -, hactions⟩ := of_resolve h
  have hids := (sound_of_rulesDefect hdefect).1
  have hnone : Numbered (RuleNames.ofIds (g.rules.map (fun r => r.id))) (fun _ => 0) {} :=
    ⟨List.nodup_nil, fun _ h => (nomatch h)⟩
  obtain ⟨limit, hn, hlimits, -⟩ :=
    Numbered.of_rules hids (fun _ h => h) hrules hids (fun _ _ => rfl) hnone
  exact ⟨limit, out, hn, hactions, hlimits, hrules⟩

end PegCompiler.Resolution
