import PegCompiler.Proofs.Validity.Rules
/-
  Which grammars resolution accepts, and what it reports of the others. Rules are
  resolved one after another and have ids of their own, so nothing is recorded for a
  rule before its turn; what is recorded at the end are the undefined references of
  the grammar in its order.
-/

namespace PegCompiler

namespace Resolution

open Grammar (undefinedAt)

/-! ## The rules of a grammar -/

theorem repeatedId_eq_none : ∀ {ids seen : List String},
    repeatedId seen ids = none ↔ ids.Nodup ∧ ∀ id ∈ ids, id ∉ seen
  | [], seen => by simp [repeatedId]
  | id :: ids, seen => by
    constructor
    · exact nodup_of_repeatedId
    · rintro ⟨hnodup, hseen⟩
      rw [List.nodup_cons] at hnodup
      have hid : id ∉ seen := hseen id (List.mem_cons_self ..)
      rw [repeatedId, if_neg (by simpa using hid)]
      refine repeatedId_eq_none.mpr ⟨hnodup.2, fun other ho hmem => ?_⟩
      rcases List.mem_cons.mp hmem with rfl | hmem
      · exact hnodup.1 ho
      · exact hseen other (List.mem_cons_of_mem _ ho) hmem

theorem rulesDefect_eq_none {rules : List Grammar.Rule} : rulesDefect rules = none ↔
    (rules.map (fun r => r.id)).Nodup ∧ ∃ r, OnlyOne rules (fun r => r.start) r := by
  constructor
  · exact sound_of_rulesDefect
  · rintro ⟨hids, r, hstart⟩
    unfold rulesDefect
    rw [repeatedId_eq_none.mpr ⟨hids, fun _ _ => List.not_mem_nil⟩, hstart]
    rfl

theorem Unrecorded.of_visited {env : Env} {rule : Grammar.Rule} {out out' : Emitted} {id : String}
    (h : Unrecorded out id) (hv : Visited env rule.nodes out out') (hne : rule.id ≠ id) :
    Unrecorded out' id := by
  intro u hu
  rw [hv.unresolved, List.mem_append] at hu
  rcases hu with hu | hu
  · exact h u hu
  · obtain ⟨n, hn, hu⟩ := List.mem_filterMap.mp hu
    rw [(Grammar.undefinedAt_eq_some hu).1, rule.rule_of_nodes n hn]
    exact hne

/-- Rules that are resolved one after another were visited in that order. -/
theorem Visited.rules {env : Env} : ∀ {rules : List Grammar.Rule} {rs : List Resolved.Rule}
    {out out' : Emitted}, Yields (rules.mapM (resolveRule env)) out rs out' →
    Visited env (rules.flatMap Grammar.Rule.nodes) out out'
  | [], _, _, _, h => by
    obtain ⟨-, rfl⟩ := Yields.mapM_nil_iff.mp h
    exact .nothing
  | rule :: rest, _, _, _, h => by
    obtain ⟨r, mid, hr, rs, hrest, -⟩ := Yields.mapM_cons_iff.mp h
    rw [List.flatMap_cons]
    exact (Visited.rule hr).append (Visited.rules hrest)

/-- Rules are accepted exactly when each one is in order. -/
theorem rules_succeed {env : Env} : ∀ {rules : List Grammar.Rule} {out : Emitted},
    (rules.map (fun r => r.id)).Nodup → (∀ rule ∈ rules, Unrecorded out rule.id) →
    (Succeeds (rules.mapM (resolveRule env)) out ↔ ∀ rule ∈ rules, RuleSound env rule)
  | [], out, _, _ => by
    have hnil : Succeeds ([].mapM (resolveRule env)) out := by
      rw [List.mapM_nil]
      exact .pure []
    exact iff_of_true hnil (by simp)
  | rule :: rest, out, hids, hnew => by
    rw [List.map_cons, List.nodup_cons] at hids
    rw [List.forall_mem_cons] at hnew ⊢
    -- references are recorded with the id of their rule, and the other rules have other ids
    have hnext {r : Resolved.Rule} {mid : Emitted} (hr : Yields (resolveRule env rule) out r mid) :
        ∀ other ∈ rest, Unrecorded mid other.id := by
      intro other ho
      refine (hnew.2 other ho).of_visited (Visited.rule hr) fun he => hids.1 ?_
      exact he ▸ List.mem_map_of_mem (f := fun r => r.id) ho
    constructor
    · rintro ⟨_, out', h⟩
      obtain ⟨r, mid, hr, rs, hrest, -⟩ := Yields.mapM_cons_iff.mp h
      exact ⟨(resolveRule_succeeds hnew.1).mp ⟨r, mid, hr⟩,
        (rules_succeed hids.2 (hnext hr)).mp ⟨rs, out', hrest⟩⟩
    · rintro ⟨hrule, hrest⟩
      rw [List.mapM_cons]
      apply Succeeds.bind ((resolveRule_succeeds hnew.1).mpr hrule)
      intro r mid hr
      apply Succeeds.bind ((rules_succeed hids.2 (hnext hr)).mpr hrest)
      intro rs out' _
      exact .pure _

/-! ## The table of a grammar -/

section
variable {g : Grammar} (types : ActionTypes) (hids : (g.rules.map (fun r => r.id)).Nodup)
include hids

/-- The table has the rules of the grammar. -/
theorem rule_ofRules (target : String) : Option.Rel (fun info rule =>
      info.resultType = ruleResult rule types)
    ((Env.ofRules g.rules types).rule target) (g.rule target) := by
  cases htarget : g.rule target with
  | none =>
    have hnone : (Env.ofRules g.rules types).rule target = none := by
      rw [Option.eq_none_iff_forall_ne_some]
      intro info hinfo
      obtain ⟨rule, hmem, _, -, rfl, -⟩ := rule_ofRules_some hinfo
      exact absurd (beq_self_eq_true _) (List.find?_eq_none.mp htarget rule hmem)
    rw [hnone]
    exact .none
  | some rule =>
    obtain rfl : rule.id = target := by simpa using List.find?_some htarget
    obtain ⟨base, -, hinfo⟩ := rule_ofRules_of_mem types hids (List.mem_of_find?_eq_some htarget)
    rw [hinfo]
    exact .some rfl

theorem defines_ofRules : (Env.ofRules g.rules types).defines = g.defines := by
  funext target
  have hrel := rule_ofRules types hids target
  unfold Env.defines Grammar.defines
  generalize (Env.ofRules g.rules types).rule target = x at hrel
  generalize g.rule target = y at hrel
  cases hrel <;> rfl

theorem typeOf_ofRules : (Env.ofRules g.rules types).typeOf = g.ruleType types := by
  funext target
  have hrel := rule_ofRules types hids target
  unfold Env.typeOf Grammar.ruleType
  generalize (Env.ofRules g.rules types).rule target = x at hrel
  generalize g.rule target = y at hrel
  cases hrel with
  | none => rfl
  | some h => exact h

theorem resultType_ofRules {rule : Grammar.Rule} (hrule : rule ∈ g.rules) :
    ((Env.ofRules g.rules types).info rule).resultType = ruleResult rule types := by
  obtain ⟨base, -, hinfo⟩ := rule_ofRules_of_mem types hids hrule
  rw [info_of_rule hinfo]
  rfl

end

/-- A grammar has nothing wrong but undefined references exactly when its rules are
accepted. -/
theorem resolveRules_succeeds (g : Grammar) (types : ActionTypes) :
    Succeeds (resolveRules g types) {} ↔ g.Unblemished types := by
  unfold resolveRules
  cases hdefect : rulesDefect g.rules with
  | some m =>
    -- ids and starts are looked at before any rule is resolved
    have hthrow : ¬ Succeeds (throw m : Resolve (List Resolved.Rule)) {} := by
      rintro ⟨_, _, h⟩
      exact Yields.throw_iff.mp h
    refine iff_of_false hthrow fun h => ?_
    cases hdefect.symm.trans (rulesDefect_eq_none.mpr ⟨h.ids, h.start⟩)
  | none =>
    obtain ⟨hids, hstart⟩ := rulesDefect_eq_none.mp hdefect
    have hnew : ∀ rule ∈ g.rules, Unrecorded {} rule.id := by
      intro rule _ u hu
      cases hu
    show Succeeds (g.rules.mapM (resolveRule (.ofRules g.rules types))) {} ↔ _
    rw [rules_succeed hids hnew]
    constructor
    · intro h
      refine ⟨hids, hstart, ?_, fun rule hrule => ?_⟩
      · intro n hn
        obtain ⟨rule, hrule, hn⟩ := List.mem_flatMap.mp hn
        rw [← typeOf_ofRules types hids]
        exact (h rule hrule).nodes n hn
      · have htypes := (h rule hrule).types
        rw [defines_ofRules types hids, typeOf_ofRules types hids,
          resultType_ofRules types hids hrule] at htypes
        exact htypes
    · intro h rule hrule
      constructor
      · intro n hn
        rw [typeOf_ofRules types hids]
        exact h.nodes n (List.mem_flatMap.mpr ⟨rule, hrule, hn⟩)
      · rw [defines_ofRules types hids, typeOf_ofRules types hids,
          resultType_ofRules types hids hrule]
        exact h.types rule hrule

/-- What is recorded behind all rules are the undefined references of the grammar. -/
theorem unresolved_of_resolveRules {g : Grammar} {types : ActionTypes} {rs : List Resolved.Rule}
    {out : Emitted} (h : Yields (resolveRules g types) {} rs out) :
    out.unresolved = g.undefined := by
  have hids := ((resolveRules_succeeds g types).mp ⟨rs, out, h⟩).ids
  unfold resolveRules at h
  split at h
  next => exact absurd h (by simp)
  next =>
    have hv := (Visited.rules h).unresolved
    rw [defines_ofRules types hids] at hv
    exact hv

/-! ## Results -/

/-- A run either ends without a defect or with one. -/
theorem resolve_cases (g : Grammar) (types : ActionTypes) :
    (∃ rs out, Yields (resolveRules g types) {} rs out ∧
      resolve g types = if out.unresolved.isEmpty
        then .ok ⟨g.prologue, g.epilogue, rs, out.actions⟩
        else .error (.unresolved out.unresolved)) ∨
    ¬ Succeeds (resolveRules g types) {} ∧ ∃ m, resolve g types = .error (.malformed m) := by
  unfold resolve resolveNoted
  rcases hrun : (resolveRules g types).run.run {} with ⟨m | rs, out⟩
  · refine .inr ⟨?_, m, rfl⟩
    rintro ⟨rs, out', h⟩
    cases hrun.symm.trans h
  · refine .inl ⟨rs, out, hrun, ?_⟩
    dsimp only
    split <;> rfl

/-- What resolution gives, for what the grammar says of itself. -/
theorem resolve_of_unblemished {g : Grammar} {types : ActionTypes} (h : g.Unblemished types) :
    if g.undefined = [] then ∃ p, resolve g types = .ok p
    else resolve g types = .error (.unresolved g.undefined) := by
  obtain ⟨rs, out, hrun, hresolve⟩ | ⟨hfails, -⟩ := resolve_cases g types
  · rw [unresolved_of_resolveRules hrun] at hresolve
    rw [hresolve]
    split
    next hempty => exact ⟨_, if_pos (by simp [hempty])⟩
    next hsome => exact if_neg (by simpa using hsome)
  · exact absurd ((resolveRules_succeeds g types).mpr h) hfails

theorem resolve_of_blemished {g : Grammar} {types : ActionTypes} (h : ¬ g.Unblemished types) :
    ∃ m, resolve g types = .error (.malformed m) := by
  obtain ⟨rs, out, hrun, -⟩ | ⟨-, hmalformed⟩ := resolve_cases g types
  · exact absurd ((resolveRules_succeeds g types).mp ⟨rs, out, hrun⟩) h
  · exact hmalformed

end Resolution

namespace Grammar

/-- A grammar without undefined references has each reference defined. -/
theorem undefined_eq_nil {g : Grammar} : g.undefined = [] ↔
    ∀ place target, (place, Node.reference target) ∈ g.nodes → g.defines target = true := by
  unfold undefined
  rw [List.filterMap_eq_nil_iff]
  constructor
  · intro h place target hmem
    by_contra hd
    cases (if_neg hd).symm.trans (h _ hmem)
  · rintro h ⟨place, n⟩ hn
    cases n with
    | reference target => exact if_pos (h place target hn)
    | _ => rfl

/-- A well-formed grammar is one that has nothing wrong and no undefined references:
where all are defined, every alternative has to agree with its rule. -/
theorem wellFormed_iff {g : Grammar} {types : ActionTypes} :
    g.WellFormed types ↔ g.Unblemished types ∧ g.undefined = [] := by
  constructor
  · rintro ⟨ids, start, nodes, agree, defined⟩
    exact ⟨⟨ids, start, nodes, fun rule hr index a ha => .inr (agree rule hr index a ha)⟩,
      undefined_eq_nil.mpr defined⟩
  · rintro ⟨⟨ids, start, nodes, agree⟩, hnone⟩
    refine ⟨ids, start, nodes, fun rule hr index a ha => ?_, undefined_eq_nil.mp hnone⟩
    refine (agree rule hr index a ha).resolve_left ?_
    rintro ⟨n, hn, hsome⟩
    have hmem : n ∈ g.nodes := List.mem_flatMap.mpr ⟨rule, hr, List.mem_cons_of_mem _
      (List.mem_flatMap.mpr ⟨(a, index), List.mk_mem_zipIdx_iff_getElem?.mpr ha, hn⟩)⟩
    simp [List.filterMap_eq_nil_iff.mp hnone n hmem] at hsome

end Grammar

namespace Resolution

/-- **Resolution accepts exactly the well-formed grammars.** -/
theorem resolve_ok_iff (g : Grammar) (types : ActionTypes) :
    (∃ p, resolve g types = .ok p) ↔ g.WellFormed types := by
  rw [Grammar.wellFormed_iff]
  by_cases h : g.Unblemished types
  · have hresult := resolve_of_unblemished h
    split at hresult
    next hnone => exact iff_of_true hresult ⟨h, hnone⟩
    next hsome =>
      refine iff_of_false ?_ fun hw => hsome hw.2
      rintro ⟨p, hp⟩
      cases hresult.symm.trans hp
  · obtain ⟨m, hm⟩ := resolve_of_blemished h
    refine iff_of_false ?_ fun hw => h hw.1
    rintro ⟨p, hp⟩
    cases hm.symm.trans hp

/-- **Undefined references are reported completely, and only when nothing is
malformed.** Resolution reports references exactly when the grammar has nothing wrong
but them, and then it reports all of them, each as often as it occurs, in the order of
the grammar; it reports a malformed node exactly when the grammar has one. -/
theorem resolve_error_iff (g : Grammar) (types : ActionTypes) :
    (∀ references, resolve g types = .error (.unresolved references) ↔
      g.Unblemished types ∧ g.undefined ≠ [] ∧ references = g.undefined) ∧
    ((∃ m, resolve g types = .error (.malformed m)) ↔ ¬ g.Unblemished types) := by
  by_cases h : g.Unblemished types
  · have hresult := resolve_of_unblemished h
    split at hresult
    next hnone =>
      obtain ⟨p, hp⟩ := hresult
      rw [hp]
      simp [h, hnone]
    next hsome =>
      rw [hresult]
      simp [h, hsome, eq_comm]
  · obtain ⟨m, hm⟩ := resolve_of_blemished h
    rw [hm]
    simp [h]

end Resolution

end PegCompiler
