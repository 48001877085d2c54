import PegCompiler.Proofs.Validity.Accepted
/-
  Rules and their tables. A rule is accepted exactly when its nodes are in order and its
  alternatives have its type, where an alternative with a reference to an undefined
  rule is not asked for its type. Whether it has one is read from what is recorded, by
  the rule and the number of the alternative; the nodes of a rule have the one and
  those of an alternative the other, so what is recorded for others does not count.
-/

namespace PegCompiler

namespace Grammar

/-! ## Nodes stand in their rule and alternative -/

/-- The nodes stand in the rule and the alternative of a place. -/
def Within (place : Place) (nodes : List (Place × Node)) : Prop :=
  ∀ n ∈ nodes, n.1.rule = place.rule ∧ n.1.alternative = place.alternative

theorem Within.append {place : Place} {ns ms : List (Place × Node)} (h : Within place ns)
    (h' : Within place ms) : Within place (ns ++ ms) := by
  intro n hn
  rcases List.mem_append.mp hn with hn | hn
  · exact h n hn
  · exact h' n hn

theorem Within.node (place : Place) (n : Node) : Within place [(place, n)] := by
  intro m hm
  rw [List.mem_singleton.mp hm]
  exact ⟨rfl, rfl⟩

theorem Within.toList (place : Place) (n : Option Node) :
    Within place (n.map fun n => (place, n)).toList := by
  cases n with
  | none => intro _ h; cases h
  | some n => exact .node place n

mutual

theorem Alternative.within : ∀ (a : Alternative) (place : Place), Within place (a.nodes place)
  | ⟨elements, action⟩, place => by
    rw [Alternative.nodes]
    exact (elements_within elements place []).append (.node _ _)

theorem elements_within : ∀ (es : List Element) (place : Place) (earlier : List Element),
    Within place (elementsNodes place earlier es)
  | [], place, earlier => by
    rw [elementsNodes]
    intro _ h
    cases h
  | e :: rest, place, earlier => by
    rw [elementsNodes]
    exact (Element.within e place earlier).append (elements_within rest place (earlier ++ [e]))

theorem Element.within : ∀ (e : Element) (place : Place) (earlier : List Element),
    Within place (e.nodes place earlier)
  | .item plucked label body, place, earlier => by
    have hlabel := Within.toList place (label.map (Node.label earlier))
    have hgroup := Within.toList place (body.group?.map Node.namedGroup)
    rw [Option.map_map] at hlabel hgroup
    rw [Element.nodes]
    refine (hlabel.append (Quantified.within body place)).append ?_
    split
    next => exact hgroup
    next =>
      intro _ h
      cases h
  | .check _ (.predicate p), place, earlier => by
    rw [Element.nodes]
    exact .node _ _
  | .check _ (.lookahead body), place, earlier => by
    rw [Element.nodes]
    exact Quantified.within body place.inLookahead

theorem Quantified.within : ∀ (body : Quantified) (place : Place), Within place (body.nodes place)
  | ⟨expr, quantifier⟩, place => by
    rw [Quantified.nodes]
    exact (Expr.within expr place).append (Quantifier.within quantifier place)

theorem Quantifier.within : ∀ (q : Quantifier) (place : Place), Within place (q.nodes place)
  | .separated count separator, place => by
    have hseparator : Within place (separator.nodes place.inSeparator) :=
      Expr.within separator place.inSeparator
    exact (Within.node place _).append hseparator
  | .one, place | .optional, place | .zeroOrMore, place | .oneOrMore, place
  | .exact _, place | .range _ _, place | .computed _ _, place => by
    exact .node _ _

theorem Expr.within : ∀ (e : Expr) (place : Place), Within place (e.nodes place)
  | .class items, place | .ruleRef target, place => by
    rw [Expr.nodes]
    exact .node _ _
  | .group as, place => by
    have has : Within place (alternativesNodes place.inGroup as) :=
      alternatives_within as place.inGroup
    rw [Expr.nodes]
    exact (Within.node place _).append has
  | .literal _, place | .anyChar, place | .endOfInput, place => by
    intro _ h
    cases h

theorem alternatives_within : ∀ (as : List Alternative) (place : Place),
    Within place (alternativesNodes place as)
  | [], place => by
    rw [alternativesNodes]
    intro _ h
    cases h
  | a :: rest, place => by
    rw [alternativesNodes]
    exact (Alternative.within a place).append (alternatives_within rest place)

end

theorem Rule.rule_of_nodes (rule : Rule) : ∀ n ∈ rule.nodes, n.1.rule = rule.id := by
  intro n hn
  rcases List.mem_cons.mp hn with rfl | hn
  · rfl
  · obtain ⟨⟨a, index⟩, -, hn⟩ := List.mem_flatMap.mp hn
    exact (a.within (rule.place index) n hn).1

/-- What is recorded for a node is recorded for its rule and alternative. -/
theorem undefinedAt_eq_some {defined : String → Bool} {n : Place × Node}
    {u : Resolution.Unresolved} (h : undefinedAt defined n = some u) :
    u.rule = n.1.rule ∧ u.alternative = n.1.alternative := by
  obtain ⟨place, n⟩ := n
  cases n with
  | reference target =>
    by_cases hd : defined target = true
    · simp [undefinedAt, hd] at h
    · simp only [undefinedAt, hd, Bool.false_eq_true, if_false, Option.some.injEq] at h
      exact ⟨h ▸ rfl, h ▸ rfl⟩
  | _ => cases h

end Grammar

namespace Resolution

open Grammar (Alternative Node Place undefinedAt)
open Resolved (ValueType)

/-! ## Rules -/

/-- A rule is in order for a table. -/
structure RuleSound (env : Env) (rule : Grammar.Rule) : Prop where
  nodes : ∀ n ∈ rule.nodes, n.2.Sound env.typeOf n.1
  types : ∀ (index : Nat) (a : Alternative), rule.alternatives[index]? = some a →
    (∃ n ∈ a.nodes (rule.place index), (undefinedAt env.defines n).isSome) ∨
      (a.valueType env.typeOf env.types rule.id index).sameAs (env.info rule).resultType = true

/-- Nothing is recorded for a rule. -/
def Unrecorded (out : Emitted) (id : String) : Prop :=
  ∀ u ∈ out.unresolved, u.rule ≠ id

theorem nodes_of_rule (env : Env) (rule : Grammar.Rule) : rule.nodes =
    (rule.place 0, .choice rule.alternatives) ::
      choiceNodes (env.context rule) 0 rule.alternatives := rfl

/-- An alternative of a rule is recorded when it has a reference to an undefined rule. -/
theorem hasUnresolved_iff {env : Env} {rule : Grammar.Rule} {out out' : Emitted}
    (hv : Visited env rule.nodes out out') (hnew : Unrecorded out rule.id) {index : Nat}
    {a : Alternative} (ha : rule.alternatives[index]? = some a) :
    out'.hasUnresolved rule.id index = true ↔
      ∃ n ∈ a.nodes (rule.place index), (undefinedAt env.defines n).isSome := by
  have hmem : (a, index) ∈ rule.alternatives.zipIdx := List.mk_mem_zipIdx_iff_getElem?.mpr ha
  unfold Emitted.hasUnresolved
  rw [hv.unresolved, List.any_append, Bool.or_eq_true, List.any_eq_true, List.any_eq_true]
  constructor
  · rintro (⟨u, hu, hrule⟩ | ⟨u, hu, hplace⟩)
    · exact absurd (by simpa using (Bool.and_eq_true_iff.mp hrule).1) (hnew u hu)
    · obtain ⟨n, hn, hu⟩ := List.mem_filterMap.mp hu
      obtain ⟨-, hindex⟩ : u.rule = rule.id ∧ u.alternative = index := by simpa using hplace
      rw [nodes_of_rule env] at hn
      rcases List.mem_cons.mp hn with rfl | hn
      · cases hu
      -- the place of a node has the number of its alternative in the rule
      · obtain ⟨⟨b, i⟩, hb, hn⟩ := List.mem_flatMap.mp hn
        have hi : u.alternative = i :=
          (Grammar.undefinedAt_eq_some hu).2.trans (b.within _ n hn).2
        obtain rfl : i = index := hi.symm.trans hindex
        have hb := List.mk_mem_zipIdx_iff_getElem?.mp hb
        obtain rfl : b = a := Option.some.inj (hb.symm.trans ha)
        exact ⟨n, hn, by simp [hu]⟩
  · rintro ⟨n, hn, hsome⟩
    obtain ⟨u, hu⟩ := Option.isSome_iff_exists.mp hsome
    have hplace := a.within _ n hn
    have hat := Grammar.undefinedAt_eq_some hu
    refine .inr ⟨u, List.mem_filterMap.mpr ⟨n, ?_, hu⟩, ?_⟩
    · exact List.mem_cons_of_mem _ (List.mem_flatMap.mpr ⟨(a, index), hmem, hn⟩)
    · simp [hat.1.trans hplace.1, hat.2.trans hplace.2, Grammar.Rule.place]

theorem typeConflict_eq_none {out : Emitted} {rule : String} {expected : ValueType}
    {rs : List Resolved.Alternative} : typeConflict out rule expected rs = none ↔
      ∀ (index : Nat) (r : Resolved.Alternative), rs[index]? = some r →
        out.hasUnresolved rule index = true ∨ r.resultType.sameAs expected = true := by
  unfold typeConflict
  rw [List.findSome?_eq_none_iff]
  constructor
  · intro h index r hr
    have hindex := h (r, index) (List.mk_mem_zipIdx_iff_getElem?.mpr hr)
    by_contra hneither
    cases (if_neg (by simpa using hneither)).symm.trans hindex
  · rintro h ⟨r, index⟩ hr
    exact if_pos (by simpa using h index r (List.mk_mem_zipIdx_iff_getElem?.mp hr))

/-- The alternatives of a rule are resolved to ones of their types, each at its place. -/
theorem resultType_at {env : Env} {rule : Grammar.Rule} {mid out' : Emitted}
    {rs : List Resolved.Alternative}
    (hrs : Yields (resolveAlternatives env (env.context rule) 0 rule.alternatives) mid rs out')
    (index : Nat) : rs[index]?.map (fun r => r.resultType) =
      rule.alternatives[index]?.map fun a =>
        a.valueType env.typeOf env.types rule.id index := by
  have htypes : rs.map (fun r => r.resultType) = choiceTypes env (env.context rule) 0 _ :=
    ((visiting_closed env).alternatives _ hrs).2 rfl
  rw [← List.getElem?_map, htypes]
  simp [choiceTypes, List.getElem?_zipIdx, Env.context, Function.comp_def]

/-- The types of the alternatives agree with that of the rule where this is asked. -/
theorem typeConflict_of_visited {env : Env} {rule : Grammar.Rule} {out mid out' : Emitted}
    {rs : List Resolved.Alternative} {expected : ValueType}
    (hrs : Yields (resolveAlternatives env (env.context rule) 0 rule.alternatives) mid rs out')
    (hv : Visited env rule.nodes out out') (hnew : Unrecorded out rule.id) :
    typeConflict out' rule.id expected rs = none ↔
      ∀ (index : Nat) (a : Alternative), rule.alternatives[index]? = some a →
        (∃ n ∈ a.nodes (rule.place index), (undefinedAt env.defines n).isSome) ∨
          (a.valueType env.typeOf env.types rule.id index).sameAs expected = true := by
  rw [typeConflict_eq_none]
  refine forall_congr' fun index => ?_
  have hat := resultType_at hrs index
  cases ha : rule.alternatives[index]? with
  | none =>
    have hr : rs[index]? = none := by simpa [ha] using hat
    simp [hr]
  | some a =>
    obtain ⟨r, hr, htype⟩ : ∃ r, rs[index]? = some r ∧ r.resultType = _ := by
      simpa [ha] using hat
    simp [hr, htype, hasUnresolved_iff hv hnew ha]

/-- A rule that is resolved was visited. -/
theorem Visited.rule {env : Env} {rule : Grammar.Rule} {r : Resolved.Rule} {out out' : Emitted}
    (h : Yields (resolveRule env rule) out r out') : Visited env rule.nodes out out' := by
  obtain ⟨hne, rs, hrs, -⟩ := of_resolveRule h
  rw [nodes_of_rule env]
  exact ((visiting_closed env).alternatives _ hrs).1.of_addNote.choice hne

/-- A rule is accepted exactly when it is in order. -/
theorem resolveRule_succeeds {env : Env} {rule : Grammar.Rule} {out : Emitted}
    (hnew : Unrecorded out rule.id) :
    Succeeds (resolveRule env rule) out ↔ RuleSound env rule := by
  constructor
  · rintro ⟨r, out', h⟩
    obtain ⟨-, rs, hrs, hconflict, -⟩ := of_resolveRule h
    have hv := Visited.rule h
    exact ⟨hv.sound, (typeConflict_of_visited hrs hv hnew).mp hconflict⟩
  · rintro ⟨hnodes, htypes⟩
    rw [nodes_of_rule env, List.forall_mem_cons] at hnodes
    unfold resolveRule
    apply Succeeds.bind (.modify _)
    intro _ mid hmid
    obtain rfl := Yields.modify_iff.mp hmid
    have hchoice : Succeeds (resolveChoice env (env.context rule) rule.alternatives)
        (out.addNote (.rule rule.id (env.info rule).function)) :=
      .bind (checkChoice_succeeds hnodes.1 ..) fun _ mid _ =>
        alternatives_succeed env _ _ 0 mid hnodes.2
    apply Succeeds.bind hchoice
    intro rs out' hrs
    simp only [resolveChoice, Yields.bind_iff] at hrs
    obtain ⟨_, _, hcheck, hrs⟩ := hrs
    obtain ⟨rfl, hne⟩ := yields_checkChoice hcheck
    have hv : Visited env rule.nodes out out' :=
      (((visiting_closed env).alternatives _ hrs).1.of_addNote.choice hne)
    have hstate : Succeeds (get : Resolve Emitted) out' := ⟨out', out', rfl⟩
    apply Succeeds.bind hstate
    intro seen _ hget
    obtain ⟨rfl, rfl⟩ := Yields.get_iff.mp hget
    have hagree : typeConflict out' rule.id (env.info rule).resultType rs = none :=
      (typeConflict_of_visited hrs hv hnew).mpr htypes
    simp only [hagree]
    exact .pure _

end Resolution

end PegCompiler
