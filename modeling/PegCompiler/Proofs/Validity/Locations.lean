import Mathlib
import PegCompiler.Proofs.Validity.Defects
import PegCompiler.Proofs.Validity.Grammars
/-
  Messages point at the first node that is not in order. Resolution meets the nodes of a
  grammar in the order in which they are listed and stops at the first defect, so the
  nodes in front of the one that it blames are in order (`FirstBlamed`). The induction is
  on the syntax, as for the runs that do not fail: a part either fails itself, or has been
  visited and then lies in front of the failure.

  The location of a message is the rule and the alternative of the place of the node,
  which nodes at any depth have from the alternative of the rule around them.
-/

namespace PegCompiler.Resolution

open Grammar (Alternative Element Expr Node Place Quantified Quantifier alternativesNodes
  elementsNodes undefinedAt)
open Resolved (ValueType)

/-! ## The first node that is not in order -/

/-- A message is about a node behind nodes that are in order. -/
def FirstBlamed (typeOf : String → ValueType) (nodes : List (Place × Node)) (m : Malformed) :
    Prop :=
  ∃ front place n back, nodes = front ++ (place, n) :: back ∧
    (∀ other ∈ front, other.2.Sound typeOf other.1) ∧ n.Blamed typeOf place m

namespace FirstBlamed

variable {typeOf : String → ValueType} {ns ms : List (Place × Node)} {m : Malformed}

theorem node {place : Place} {n : Node} (h : n.Blamed typeOf place m) :
    FirstBlamed typeOf [(place, n)] m :=
  ⟨[], place, n, [], rfl, by simp, h⟩

theorem left (h : FirstBlamed typeOf ns m) (ms : List (Place × Node)) :
    FirstBlamed typeOf (ns ++ ms) m := by
  obtain ⟨front, place, n, back, rfl, hfront, hn⟩ := h
  exact ⟨front, place, n, back ++ ms, by simp, hfront, hn⟩

theorem right (hns : ∀ n ∈ ns, n.2.Sound typeOf n.1) (h : FirstBlamed typeOf ms m) :
    FirstBlamed typeOf (ns ++ ms) m := by
  obtain ⟨front, place, n, back, rfl, hfront, hn⟩ := h
  exact ⟨ns ++ front, place, n, back, by simp, List.forall_mem_append.mpr ⟨hns, hfront⟩, hn⟩

/-- The first node stands in the first of two lists, or all nodes of that are in order. -/
theorem append_cases (h : FirstBlamed typeOf (ns ++ ms) m) :
    FirstBlamed typeOf ns m ∨ (∀ n ∈ ns, n.2.Sound typeOf n.1) ∧ FirstBlamed typeOf ms m := by
  obtain ⟨front, place, n, back, hnodes, hfront, hn⟩ := h
  rcases List.append_eq_append_iff.mp hnodes with ⟨rest, rfl, hms⟩ | ⟨rest, rfl, hback⟩
  · rw [List.forall_mem_append] at hfront
    exact .inr ⟨hfront.1, rest, place, n, back, hms, hfront.2, hn⟩
  · cases rest with
    | nil => exact .inr ⟨by simpa using hfront, [], place, n, back, hback.symm, by simp, hn⟩
    | cons first rest =>
      obtain ⟨rfl, -⟩ := List.cons.inj hback
      exact .inl ⟨front, place, n, rest, rfl, hfront, hn⟩

/-- Of the nodes of several things, the first thing with a node that is not in order. -/
theorem of_flatMap {α : Type} {f : α → List (Place × Node)} : ∀ {xs : List α},
    FirstBlamed typeOf (xs.flatMap f) m → ∃ front x back, xs = front ++ x :: back ∧
      (∀ y ∈ front, ∀ n ∈ f y, n.2.Sound typeOf n.1) ∧ FirstBlamed typeOf (f x) m
  | [], ⟨front, _, _, _, hnil, _⟩ => by simp at hnil
  | x :: xs, h => by
    rw [List.flatMap_cons] at h
    rcases h.append_cases with h | ⟨hx, h⟩
    · exact ⟨[], x, xs, rfl, by simp, h⟩
    · obtain ⟨front, y, back, rfl, hfront, hy⟩ := of_flatMap h
      exact ⟨x :: front, y, back, rfl, List.forall_mem_cons.mpr ⟨hx, hfront⟩, hy⟩

section
variable {place : Place} {earlier : List Element} {plucked : Bool} {label : Option String}
  {body : Quantified}

/-! An item is looked at from its label to its body and, if it is a group with a name, to
the types of its alternatives. -/

theorem item_label {l : String} (hl : label = some l)
    (h : (Node.label earlier l).Blamed typeOf place m) :
    FirstBlamed typeOf ((Element.item plucked label body).nodes place earlier) m := by
  subst hl
  rw [Element.nodes]
  exact ((node h).left _).left _

theorem sound_label (hlabel : ∀ l, label = some l → (Node.label earlier l).Sound typeOf place) :
    ∀ n ∈ (label.map fun l => (place, Node.label earlier l)).toList, n.2.Sound typeOf n.1 := by
  cases label with
  | none => simp
  | some l => simpa using hlabel l rfl

theorem item_body (hlabel : ∀ l, label = some l → (Node.label earlier l).Sound typeOf place)
    (h : FirstBlamed typeOf (body.nodes place) m) :
    FirstBlamed typeOf ((Element.item plucked label body).nodes place earlier) m := by
  rw [Element.nodes]
  exact (h.right (sound_label hlabel)).left _

theorem item_group {as : List Alternative} (hgroup : body.group? = some as)
    (hname : (plucked || label.isSome) = true)
    (hlabel : ∀ l, label = some l → (Node.label earlier l).Sound typeOf place)
    (hbody : ∀ n ∈ body.nodes place, n.2.Sound typeOf n.1)
    (h : (Node.namedGroup as).Blamed typeOf place m) :
    FirstBlamed typeOf ((Element.item plucked label body).nodes place earlier) m := by
  rw [Element.nodes, if_pos hname, hgroup]
  exact (node h).right (List.forall_mem_append.mpr ⟨sound_label hlabel, hbody⟩)

end

/-- A group is refused when it is empty, or for one of its alternatives. -/
theorem group {ctx : Context} {as : List Alternative}
    (h : (Node.choice as).Blamed typeOf ctx.place m ∨
      as ≠ [] ∧ FirstBlamed typeOf (choiceNodes ctx.enterGroup 0 as) m) :
    FirstBlamed typeOf ((Expr.group as).nodes ctx.place) m := by
  rw [Expr.nodes]
  rcases h with h | ⟨hne, h⟩
  · exact (node h).left _
  · rw [choiceNodes_nested (isNested_enterGroup ctx), place_enterGroup] at h
    have hchoice : ∀ n ∈ [(ctx.place, Node.choice as)], n.2.Sound typeOf n.1 := by
      simpa [Node.Sound] using hne
    exact h.right hchoice

end FirstBlamed

/-! ## Parts that never fail -/

section
variable {env : Env} {ctx : Context} {out : Emitted} {m : Malformed}

theorem not_fails_ruleCall {target : String} : ¬ Fails (ruleCall env ctx target) out m :=
  fun h => h.not_succeeds (ruleCall_succeeds ..)

theorem not_fails_repeated {body : Resolved.Matcher}
    {bounds : Resolved.Bound × Option Resolved.Bound} {separator : Option Resolved.Matcher} :
    ¬ Fails (repeated ctx body bounds separator) out m :=
  fun h => h.not_succeeds (repeated_succeeds ..)

theorem not_fails_ite {c : Bool} {a b : ResolvedElement} :
    ¬ Fails (if c then (pure a : Resolve _) else pure b) out m :=
  fun h => h.not_succeeds (ite_succeeds ..)

theorem not_fails_note {n : Note} : ¬ Fails (note n) out m :=
  fun h => h.not_succeeds (.modify _)

end

/-! ## A run that fails blames the first node -/

section
variable (env : Env)

mutual

theorem alternatives_fail : ∀ (as : List Alternative) ⦃ctx : Context⦄ ⦃index : Nat⦄
    ⦃out : Emitted⦄ ⦃m : Malformed⦄, Fails (resolveAlternatives env ctx index as) out m →
    FirstBlamed env.typeOf (choiceNodes ctx index as) m
  | [] => fun _ _ _ _ h => by simp [resolveAlternatives] at h
  | a :: rest => fun ctx index out m h => by
    rw [resolveAlternatives] at h
    simp only [Fails.bind_iff, not_fails_note, Fails.pure_iff, false_or, and_false, exists_false,
      or_false] at h
    obtain ⟨_, mid, -, h | ⟨r, out', ha, h⟩⟩ := h <;> rw [choiceNodes_cons]
    · exact (alternative_fails a h).left _
    · exact .right ((visiting_closed env).alternative a ha).1.sound (alternatives_fail rest h)
termination_by as => sizeOf as
decreasing_by all_goals simp +arith

theorem alternative_fails : ∀ (a : Alternative) ⦃ctx : Context⦄ ⦃out : Emitted⦄ ⦃m : Malformed⦄,
    Fails (resolveAlternative env ctx a) out m →
    FirstBlamed env.typeOf (a.nodes ctx.place) m
  | ⟨elements, action⟩ => fun ctx out m h => by
    have hempty : RowOf env (ctx.enterRow (predicateSources elements)) [] {} := .empty
    rw [resolveAlternative] at h
    simp only [Fails.bind_iff, Fails.pure_iff, and_false, exists_false, or_false] at h
    rw [Alternative.nodes]
    rcases h with h | ⟨⟨es, row⟩, mid, hes, h⟩
    · exact (elements_fail elements hempty (fun _ h => h) h).left _
    · obtain ⟨hvisited, hrow⟩ := (visiting_closed env).elements elements hes [] hempty fun _ h => h
      exact .right hvisited.sound (.node (hrow.blamed_row h))
termination_by a => sizeOf a
decreasing_by simp +arith

theorem elements_fail : ∀ (es : List Element) ⦃ctx : Context⦄ ⦃position : Nat⦄ ⦃row : Row⦄
    ⦃out : Emitted⦄ ⦃earlier : List Element⦄ ⦃m : Malformed⦄, RowOf env ctx earlier row →
    predicateSources es ⊆ ctx.predicateSources →
    Fails (resolveElements env ctx position row es) out m →
    FirstBlamed env.typeOf (elementsNodes ctx.place earlier es) m
  | [] => fun _ _ _ _ _ _ _ _ h => by simp [resolveElements] at h
  | e :: rest => fun ctx position row out earlier m hrow hsources h => by
    rw [predicateSources_cons, List.append_subset] at hsources
    have hrow' : RowOf env (ctx.enterElement position row.labels row.ruleValues) earlier row :=
      RowOf.enterElement.mpr hrow
    rw [resolveElements] at h
    simp only [Fails.bind_iff, Fails.pure_iff, and_false, exists_false, or_false] at h
    rw [elementsNodes]
    rcases h with h | ⟨r, mid, hr, h⟩
    · exact (element_fails e hrow' rfl rfl hsources.1 h).left _
    · obtain ⟨hvisited, hnext⟩ :=
        (visiting_closed env).element e hr earlier row hrow' rfl rfl hsources.1
      exact .right hvisited.sound
        (elements_fail rest (RowOf.enterElement.mp hnext) hsources.2 h)
termination_by es => sizeOf es
decreasing_by all_goals simp +arith

theorem element_fails : ∀ (e : Element) ⦃ctx : Context⦄ ⦃out : Emitted⦄
    ⦃earlier : List Element⦄ ⦃row : Row⦄ ⦃m : Malformed⦄, RowOf env ctx earlier row →
    row.labels = ctx.labels → row.ruleValues = ctx.ruleValues →
    predicateSources [e] ⊆ ctx.predicateSources → Fails (resolveElement env ctx e) out m →
    FirstBlamed env.typeOf (e.nodes ctx.place earlier) m
  | .check negated (.predicate p) => fun ctx out earlier row m hrow hlabels hvalues hsources h => by
    rw [resolveElement] at h
    simp only [Fails.bind_iff, Fails.pure_iff, and_false, exists_false, or_false] at h
    have hsub : p.params.map (fun q => q.source) ⊆ ctx.predicateSources := by
      simpa [predicateSources] using hsources
    rw [Element.nodes]
    exact .node (hrow.blamed_predicate hlabels hvalues hsub h)
  | .check negated (.lookahead body) => fun ctx out earlier row m _ _ _ _ h => by
    rw [resolveElement] at h
    simp only [Fails.bind_iff, Fails.pure_iff, and_false, exists_false, or_false] at h
    rw [Element.nodes]
    exact quantified_fails body h
  | .item plucked label ⟨expr, quantifier⟩ => fun ctx out earlier row m hrow hlabels _ _ h => by
    have hsound {u : Unit} {mid : Emitted} (hcheck : Yields (checkLabel ctx label) out u mid) :
        ∀ l, label = some l → (Node.label earlier l).Sound env.typeOf ctx.place :=
      fun l hl => (hrow.label hlabels l).mp ((yields_checkLabel hcheck).2 l hl)
    have hrefused (h : Fails (checkLabel ctx label) out m) : FirstBlamed env.typeOf
        ((Element.item plucked label ⟨expr, quantifier⟩).nodes ctx.place earlier) m := by
      obtain ⟨l, hl, hblamed⟩ := hrow.blamed_label hlabels h
      exact .item_label hl hblamed
    -- a plain reference or group has a value of its own; all else is its text
    cases hplain : isPlain ⟨expr, quantifier⟩ with
    | false =>
      rw [resolveElement_item hplain] at h
      simp only [Fails.bind_iff, not_fails_ite, and_false, exists_false, or_false] at h
      rcases h with h | ⟨_, mid, hcheck, h⟩
      · exact hrefused h
      · exact .item_body (hsound hcheck) (quantified_fails ⟨expr, quantifier⟩ h)
    | true =>
      obtain ⟨rfl, ⟨target, rfl⟩ | ⟨as, rfl⟩⟩ := plain_cases hplain
      · rw [resolveElement] at h
        simp only [Fails.bind_iff, not_fails_ruleCall, not_fails_ite, and_false, exists_false,
          or_false] at h
        exact hrefused h
      · rw [resolveElement] at h
        simp only [Fails.bind_iff] at h
        rcases h with h | ⟨_, _, hcheck, h | ⟨_, mid, hchoice, h | ⟨rs, out', hrs, h⟩⟩⟩
        · exact hrefused h
        · have hempty : (Node.choice as).Blamed env.typeOf ctx.place m := blamed_choice rfl h
          exact .item_body (hsound hcheck) ((FirstBlamed.group (.inl hempty)).left _)
        · have hne := (yields_checkChoice hchoice).2
          have hfirst := alternatives_fail as h
          exact .item_body (hsound hcheck) ((FirstBlamed.group (.inr ⟨hne, hfirst⟩)).left _)
        · split at h
          next hkeeps =>
            simp only [Fails.bind_iff, Fails.pure_iff, and_false, exists_false, or_false] at h
            obtain ⟨hc, hname⟩ := Bool.and_eq_true_iff.mp hkeeps
            obtain ⟨hvisited, htypes⟩ := (visiting_closed env).alternatives as hrs
            rw [choiceNodes_nested (isNested_enterGroup ctx), place_enterGroup] at hvisited
            have hbody : Visited env (Quantified.nodes ctx.place ⟨.group as, .one⟩) mid out' :=
              (hvisited.choice (yields_checkChoice hchoice).2).append (.quantifier trivial)
            exact .item_group rfl hname (hsound hcheck) hbody.sound
              (blamed_group hc hvisited.sound (htypes hc) h)
          next => simp at h
termination_by e => sizeOf e
decreasing_by all_goals subst_vars; simp +arith

theorem quantified_fails : ∀ (body : Quantified) ⦃ctx : Context⦄ ⦃out : Emitted⦄ ⦃m : Malformed⦄,
    Fails (resolveQuantified env ctx body) out m →
    FirstBlamed env.typeOf (body.nodes ctx.place) m
  | ⟨expr, quantifier⟩ => fun ctx out m h => by
    rw [resolveQuantified] at h
    rw [Quantified.nodes]
    rcases Fails.bind_iff.mp h with h | ⟨matcher, mid, hm, h⟩
    · exact (expr_fails expr h).left _
    · exact .right ((visiting_closed env).expr expr hm).sound (quantifier_fails quantifier h)
termination_by body => sizeOf body
decreasing_by all_goals simp +arith

theorem quantifier_fails : ∀ (quantifier : Quantifier) {ctx : Context} {body : Resolved.Matcher}
    {out : Emitted} {m : Malformed}, Fails (resolveQuantifier env ctx body quantifier) out m →
    FirstBlamed env.typeOf (quantifier.nodes ctx.place) m
  | .one, _, _, _, _, h => by simp [resolveQuantifier] at h
  | .optional, _, _, _, _, h | .zeroOrMore, _, _, _, _, h | .oneOrMore, _, _, _, _, h => by
    rw [resolveQuantifier] at h
    exact absurd h not_fails_repeated
  | .exact count, ctx, body, out, m, h => by
    rw [resolveQuantifier] at h
    simp only [Fails.bind_iff, not_fails_repeated, and_false, exists_false, or_false] at h
    obtain ⟨rfl, rfl⟩ := of_fails_exactBounds h
    exact .node (blamed_of_has .zeroCount)
  | .range min max, ctx, body, out, m, h => by
    rw [resolveQuantifier] at h
    simp only [Fails.bind_iff, not_fails_repeated, and_false, exists_false, or_false] at h
    exact .node (blamed_range h)
  | .separated count separator, ctx, body, out, m, h => by
    rw [resolveQuantifier] at h
    simp only [Fails.bind_iff, not_fails_repeated, and_false, exists_false, or_false] at h
    rcases h with h | ⟨bounds, mid, hbounds, h⟩
    · obtain ⟨rfl, rfl⟩ := of_fails_exactBounds h
      exact (FirstBlamed.node (blamed_of_has .zeroSeparated)).left _
    · obtain ⟨hcount, -⟩ := yields_exactBounds hbounds
      have hcounted : ∀ n ∈ [(ctx.place, Node.quantifier (.separated count separator))],
          n.2.Sound env.typeOf n.1 := by
        simpa [Node.Sound, Quantifier.Sound] using UInt32.pos_iff_ne_zero.mpr hcount
      exact .right hcounted (expr_fails separator h)
  | .computed min max, ctx, body, out, m, h => by
    rw [resolveQuantifier] at h
    simp only [Fails.bind_iff, not_fails_repeated, and_false, exists_false, or_false] at h
    rcases h with h | ⟨_, _, -, h⟩
    · obtain ⟨code, rfl, hblank, rfl⟩ := of_fails_computedBound h
      exact .node (blamed_of_has (.blankBound (.inl rfl) hblank))
    · obtain ⟨code, rfl, hblank, rfl⟩ := of_fails_computedBound h
      exact .node (blamed_of_has (.blankBound (.inr rfl) hblank))
termination_by quantifier => sizeOf quantifier
decreasing_by simp +arith

theorem expr_fails : ∀ (e : Expr) {ctx : Context} {out : Emitted} {m : Malformed},
    Fails (resolveExpr env ctx e) out m → FirstBlamed env.typeOf (e.nodes ctx.place) m
  | .literal _, _, _, _, h | .anyChar, _, _, _, h | .endOfInput, _, _, _, h => by
    simp [resolveExpr] at h
  | .class items, ctx, out, m, h => by
    rw [resolveExpr] at h
    simp only [Fails.bind_iff, Fails.pure_iff, and_false, exists_false, or_false] at h
    rw [Expr.nodes]
    exact .node (blamed_class h)
  | .ruleRef target, ctx, out, m, h => by
    rw [resolveExpr] at h
    simp only [Fails.bind_iff, not_fails_ruleCall, Fails.pure_iff, and_false, exists_false,
      or_false] at h
  | .group as, ctx, out, m, h => by
    rw [resolveExpr] at h
    simp only [Fails.bind_iff, Fails.pure_iff, and_false, exists_false, or_false] at h
    rcases h with h | ⟨_, _, hcheck, h⟩
    · exact .group (.inl (blamed_choice rfl h))
    · exact .group (.inr ⟨(yields_checkChoice hcheck).2, alternatives_fail as h⟩)
termination_by e => sizeOf e
decreasing_by simp +arith

end

end

/-! ## Rules -/

/-- In a numbered list, what stands in front of an item are those with smaller numbers. -/
theorem zipIdx_split {α : Type} {xs : List α} {x : α} {i : Nat} {front back : List (α × Nat)}
    (h : xs.zipIdx = front ++ (x, i) :: back) :
    xs[i]? = some x ∧ ∀ j y, j < i → xs[j]? = some y → (y, j) ∈ front := by
  have hmem : (x, i) ∈ xs.zipIdx := by simp [h]
  have hat : xs.zipIdx[front.length]? = some (x, i) := by simp [h]
  obtain rfl : front.length = i := by
    rw [List.getElem?_zipIdx] at hat
    simp only [Nat.zero_add, Option.map_eq_some_iff, Prod.mk.injEq] at hat
    obtain ⟨_, -, -, hlength⟩ := hat
    exact hlength
  refine ⟨List.mk_mem_zipIdx_iff_getElem?.mp hmem, fun j y hj hy => ?_⟩
  have hy : xs.zipIdx[j]? = some (y, j) := by simp [List.getElem?_zipIdx, hy]
  rw [h, List.getElem?_append_left hj] at hy
  exact List.mem_of_getElem? hy

/-- The first of the alternatives that is asked for its type and does not have that of the
rule. -/
theorem of_typeConflict {out : Emitted} {rule : String} {expected : ValueType}
    {rs : List Resolved.Alternative} {m : Malformed}
    (h : typeConflict out rule expected rs = some m) : ∃ index r, rs[index]? = some r ∧
      out.hasUnresolved rule index = false ∧ r.resultType.sameAs expected = false ∧
      m = ⟨.alternative rule index, .resultType r.resultType expected⟩ ∧
      ∀ i other, i < index → rs[i]? = some other →
        out.hasUnresolved rule i = true ∨ other.resultType.sameAs expected = true := by
  unfold typeConflict at h
  obtain ⟨front, ⟨r, index⟩, back, hrs, hr, hfront⟩ := List.findSome?_eq_some_iff.mp h
  obtain ⟨hat, hbefore⟩ := zipIdx_split hrs
  dsimp only at hr
  split at hr
  next => cases hr
  next hneither =>
    rw [Bool.or_eq_true, not_or, Bool.not_eq_true, Bool.not_eq_true] at hneither
    refine ⟨index, r, hat, hneither.1, hneither.2, (Option.some.inj hr).symm, ?_⟩
    intro i other hi hother
    have hnone := hfront (other, i) (hbefore i other hi hother)
    by_contra hboth
    exact nomatch (if_neg (by simpa using hboth)).symm.trans hnone

/-- An alternative of a rule translates, whatever was extracted in front of it. -/
def Translates (env : Env) (rule : Grammar.Rule) (index : Nat) (a : Alternative) : Prop :=
  ∀ out, Succeeds (resolveAlternative env ((env.context rule).enterAlternative index) a) out

/-- An alternative with its nodes in order translates. -/
theorem translates_of_sound {env : Env} {rule : Grammar.Rule} {index : Nat} {a : Alternative}
    (h : ∀ n ∈ a.nodes (rule.place index), n.2.Sound env.typeOf n.1) :
    Translates env rule index a :=
  fun out => alternative_succeeds env a _ out h

/-- An alternative with a node that is not in order fails, whatever was extracted in front
of it. -/
theorem FirstBlamed.not_succeeds {env : Env} {ctx : Context} {a : Alternative} {m : Malformed}
    (h : FirstBlamed env.typeOf (a.nodes ctx.place) m) (out : Emitted) :
    ¬ Succeeds (resolveAlternative env ctx a) out := by
  rintro ⟨r, out', hr⟩
  obtain ⟨front, place, n, back, hnodes, -, hn⟩ := h
  have hvisited := ((visiting_closed env).alternative a hr).1
  exact hn.has.not_sound (hvisited.sound (place, n) (by simp [hnodes]))

/-- An alternative of a rule refers to an undefined rule, at any depth. -/
def Dangles (defined : String → Bool) (rule : Grammar.Rule) (index : Nat) (a : Alternative) :
    Prop :=
  ∃ n ∈ a.nodes (rule.place index), (undefinedAt defined n).isSome

/-- What a message about a rule points at, and the number of the alternative: the rule has
none, a node at any depth of an alternative is not in order, or the type of an alternative
is not that of the rule. -/
inductive Culprit (g : Grammar) (types : ActionTypes) (rule : Grammar.Rule) :
    Nat → Malformed → Prop
  | empty {m : Malformed} (none : rule.alternatives = []) (defect : m.defect = .emptyChoice) :
    Culprit g types rule 0 m
  | node {index : Nat} {a : Alternative} {m : Malformed}
    (found : rule.alternatives[index]? = some a)
    (first : FirstBlamed (g.ruleType types) (a.nodes (rule.place index)) m)
    (fails : ∀ out, ¬ Succeeds (resolveAlternative (.ofRules g.rules types)
      (((Env.ofRules g.rules types).context rule).enterAlternative index) a) out)
    (before : ∀ i b, i < index → rule.alternatives[i]? = some b →
      Translates (.ofRules g.rules types) rule i b) : Culprit g types rule index m
  | type {index : Nat} {a : Alternative} {m : Malformed}
    (found : rule.alternatives[index]? = some a)
    (known : ¬ Dangles g.defines rule index a)
    (other : (a.valueType (g.ruleType types) types rule.id index).sameAs
      (ruleResult rule types) = false)
    (defect : m.defect = .resultType (a.valueType (g.ruleType types) types rule.id index)
      (ruleResult rule types))
    (all : ∀ i b, rule.alternatives[i]? = some b → Translates (.ofRules g.rules types) rule i b)
    (before : ∀ i b, i < index → rule.alternatives[i]? = some b →
      Dangles g.defines rule i b ∨
        (b.valueType (g.ruleType types) types rule.id i).sameAs (ruleResult rule types) = true) :
    Culprit g types rule index m

/-- A run over a rule fails in its choice, or has visited its nodes and finds that an
alternative does not have the type of the rule. -/
theorem fails_resolveRule {env : Env} {rule : Grammar.Rule} {out : Emitted} {m : Malformed}
    (h : Fails (resolveRule env rule) out m) :
    rule.alternatives = [] ∧ m = (env.context rule).malformed .emptyChoice ∨
    (∃ mid, Fails (resolveAlternatives env (env.context rule) 0 rule.alternatives) mid m) ∨
    ∃ mid rs out', Yields (resolveAlternatives env (env.context rule) 0 rule.alternatives) mid
      rs out' ∧ Visited env rule.nodes out out' ∧
      typeConflict out' rule.id (env.info rule).resultType rs = some m := by
  unfold resolveRule resolveChoice note at h
  simp only [Fails.bind_iff, Fails.modify_iff, Fails.get_iff, false_or, Yields.modify_iff,
    Yields.get_iff, Yields.bind_iff] at h
  obtain ⟨_, _, rfl, (h | ⟨_, mid, _, h⟩) | ⟨rs, out', ⟨_, mid, hcheck, hrs⟩, h⟩⟩ := h
  · exact .inl (of_fails_checkChoice h)
  · exact .inr (.inl ⟨mid, h⟩)
  · obtain ⟨_, _, ⟨rfl, rfl⟩, h⟩ := h
    obtain ⟨rfl, hne⟩ := yields_checkChoice hcheck
    have hvisited : Visited env rule.nodes out out' :=
      ((visiting_closed env).alternatives _ hrs).1.of_addNote.choice hne
    refine .inr (.inr ⟨_, rs, out', hrs, hvisited, ?_⟩)
    split at h
    next m' hconflict =>
      obtain rfl := Fails.throw_iff.mp h
      exact hconflict
    next => simp at h

/-- A rule that fails is blamed for the first thing that is wrong with it. -/
theorem culprit_of_fails {g : Grammar} {types : ActionTypes}
    (hids : (g.rules.map (fun r => r.id)).Nodup) {rule : Grammar.Rule} (hrule : rule ∈ g.rules)
    {out : Emitted} {m : Malformed} (hnew : Unrecorded out rule.id)
    (h : Fails (resolveRule (.ofRules g.rules types) rule) out m) :
    ∃ index, m.location = .alternative rule.id index ∧ Culprit g types rule index m := by
  obtain ⟨hnone, rfl⟩ | ⟨mid, h⟩ | ⟨mid, rs, out', hrs, hvisited, hconflict⟩ := fails_resolveRule h
  · exact ⟨0, rfl, .empty hnone rfl⟩
  · obtain ⟨front, ⟨a, index⟩, back, hsplit, hfront, hfirst⟩ :=
      (alternatives_fail _ _ h).of_flatMap
    obtain ⟨hat, hbefore⟩ := zipIdx_split hsplit
    have htranslate : ∀ i b, i < index → rule.alternatives[i]? = some b →
        Translates (.ofRules g.rules types) rule i b :=
      fun i b hi hb => translates_of_sound (hfront (b, i) (hbefore i b hi hb))
    have hfails := hfirst.not_succeeds
    have hfirst : FirstBlamed (g.ruleType types) (a.nodes (rule.place index)) m := by
      rw [← typeOf_ofRules types hids]
      exact hfirst
    refine ⟨index, ?_, .node hat hfirst hfails htranslate⟩
    -- the nodes of an alternative have its place, at any depth
    obtain ⟨nodes, place, n, rest, hnodes, -, -, hlocation⟩ := hfirst
    obtain ⟨hid, hindex⟩ := a.within (rule.place index) (place, n) (by simp [hnodes])
    rw [hlocation, Place.location, hid, hindex]
    rfl
  · obtain ⟨index, r, hr, hknown, hother, rfl, hbefore⟩ := of_typeConflict hconflict
    rw [resultType_ofRules types hids hrule] at hother hbefore ⊢
    -- nothing but the types is wrong: whether they are known is read from what is recorded
    have hdangles {i : Nat} {b : Alternative} (hb : rule.alternatives[i]? = some b) :
        out'.hasUnresolved rule.id i = true ↔ Dangles g.defines rule i b := by
      rw [hasUnresolved_iff hvisited hnew hb, defines_ofRules types hids]
      rfl
    have htypes (i : Nat) := resultType_at hrs i
    rw [typeOf_ofRules types hids] at htypes
    obtain ⟨a, ha, htype⟩ : ∃ a, rule.alternatives[index]? = some a ∧
        a.valueType (g.ruleType types) types rule.id index = r.resultType := by
      have hindex := htypes index
      rw [hr] at hindex
      exact Option.map_eq_some_iff.mp hindex.symm
    rw [← htype] at hother ⊢
    refine ⟨index, rfl, .type ha ?_ hother rfl ?_ ?_⟩
    · rw [← hdangles ha, hknown]
      exact Bool.false_ne_true
    · intro i b hb
      refine translates_of_sound fun n hn => hvisited.sound n ?_
      exact List.mem_cons_of_mem _
        (List.mem_flatMap.mpr ⟨(b, i), List.mk_mem_zipIdx_iff_getElem?.mpr hb, hn⟩)
    · intro i b hi hb
      have hindex := htypes i
      rw [hb] at hindex
      obtain ⟨other, hat, htype⟩ := Option.map_eq_some_iff.mp hindex
      have hagrees := hbefore i other hi hat
      rw [htype] at hagrees
      rwa [← hdangles hb]

/-- Rules in front of another have nothing recorded for it. -/
theorem unrecorded_of_rules {env : Env} {rules : List Grammar.Rule} {rs : List Resolved.Rule}
    {out : Emitted} {id : String} (h : Yields (rules.mapM (resolveRule env)) {} rs out)
    (hid : id ∉ rules.map fun r => r.id) : Unrecorded out id := by
  intro u hu hrule
  rw [(Visited.rules h).unresolved, List.nil_append] at hu
  obtain ⟨n, hn, hu⟩ := List.mem_filterMap.mp hu
  obtain ⟨rule, hmem, hn⟩ := List.mem_flatMap.mp hn
  refine hid (List.mem_map.mpr ⟨rule, hmem, ?_⟩)
  rw [← rule.rule_of_nodes n hn, ← (Grammar.undefinedAt_eq_some hu).1, hrule]

/-! ## Grammars -/

/-- A malformed grammar is one whose rules fail. -/
theorem fails_of_resolve {g : Grammar} {types : ActionTypes} {m : Malformed}
    (h : resolve g types = .error (.malformed m)) : Fails (resolveRules g types) {} m := by
  unfold resolve resolveNoted at h
  rcases hrun : (resolveRules g types).run.run {} with ⟨m' | rs, out⟩
  · rw [hrun] at h
    cases h
    exact ⟨out, hrun⟩
  · rw [hrun] at h
    dsimp only at h
    split at h <;> cases h

/-- **Messages point at the right alternative.** A message about a malformed grammar, whose
ids are distinct and which has one start rule, is about the first rule that fails. It gives
the alternative of the rule that has the first node that is not in order, however deep that
lies in groups, repetitions, separators or lookaheads, and the alternatives in front of it
translate; or, when all alternatives translate, the first one that does not have the type
of the rule and has no reference to an undefined rule; or the first one, if the rule has
none. -/
theorem malformed_culprit {g : Grammar} {types : ActionTypes} {m : Malformed}
    (hids : (g.rules.map (fun r => r.id)).Nodup)
    (hstart : ∃ rule, OnlyOne g.rules (fun r => r.start) rule)
    (h : resolve g types = .error (.malformed m)) :
    ∃ before rule after index rs out, g.rules = before ++ rule :: after ∧
      Yields (before.mapM (resolveRule (.ofRules g.rules types))) {} rs out ∧
      Fails (resolveRule (.ofRules g.rules types) rule) out m ∧
      m.location = .alternative rule.id index ∧ Culprit g types rule index m := by
  have hrules := fails_of_resolve h
  unfold resolveRules at hrules
  rw [rulesDefect_eq_none.mpr ⟨hids, hstart⟩] at hrules
  obtain ⟨before, rule, after, rs, out, hsplit, hbefore, hrule⟩ := Fails.of_mapM hrules
  have hid : rule.id ∉ before.map fun r => r.id := by
    rw [hsplit, List.map_append, List.map_cons, List.nodup_append] at hids
    exact fun hmem => hids.2.2 _ hmem _ (List.mem_cons_self ..) rfl
  obtain ⟨index, hlocation, hculprit⟩ := culprit_of_fails hids (by simp [hsplit])
    (unrecorded_of_rules hbefore hid) hrule
  exact ⟨before, rule, after, index, rs, out, hsplit, hbefore, hrule, hlocation, hculprit⟩

/-- The second rule has a reversed range in its second alternative: in the separator of a
repetition, in the third alternative of a group, in a lookahead, in a repeated group. -/
def deepRange : Grammar where
  rules := [
    ⟨"word", false, [⟨[.item false none ⟨.class [.range 'a' 'z'], .oneOrMore⟩], none⟩]⟩,
    ⟨"list", true, [
      ⟨[.item true none ⟨.ruleRef "word", .one⟩], none⟩,
      ⟨[.item false none ⟨.group [⟨[.check true (.lookahead ⟨.group [
          ⟨[.item false none ⟨.literal ";", .one⟩], none⟩,
          ⟨[.item false none ⟨.endOfInput, .one⟩], none⟩,
          ⟨[.item false none ⟨.ruleRef "word", .separated 2 (.class [.range 'z' 'a'])⟩], none⟩],
        .one⟩)], none⟩], .zeroOrMore⟩], none⟩,
      ⟨[.item false none ⟨.class [], .one⟩], none⟩]⟩]

theorem deepRange_culprit :
    resolve deepRange {} = .error (.malformed ⟨.alternative "list" 1, .reversedRange 'z' 'a'⟩) ∧
    ∃ before rule after index rs out, deepRange.rules = before ++ rule :: after ∧
      Yields (before.mapM (resolveRule (.ofRules deepRange.rules {}))) {} rs out ∧
      Fails (resolveRule (.ofRules deepRange.rules {}) rule) out
        ⟨.alternative "list" 1, .reversedRange 'z' 'a'⟩ ∧
      Location.alternative "list" 1 = .alternative rule.id index ∧
      Culprit deepRange {} rule index ⟨.alternative "list" 1, .reversedRange 'z' 'a'⟩ := by
  have h : resolve deepRange {} =
      .error (.malformed ⟨.alternative "list" 1, .reversedRange 'z' 'a'⟩) := by cbv
  have hstart : ∃ rule, OnlyOne deepRange.rules (fun r => r.start) rule := ⟨_, rfl⟩
  exact ⟨h, malformed_culprit (by decide) hstart h⟩

end PegCompiler.Resolution
