import PegCompiler.Proofs.Validity.Visits
/-
  Nodes in order are accepted. The induction is on the syntax; each step asks the node
  of the construct itself whether its check passes, and a run over what stands in
  front of a part gives what the part's context holds (`visiting_closed`).
-/

namespace PegCompiler.Resolution

open Grammar (Alternative Element Expr Node Place Quantified Quantifier alternativesNodes
  elementsNodes)

theorem ruleCall_succeeds (env : Env) (ctx : Context) (target : String) (out : Emitted) :
    Succeeds (ruleCall env ctx target) out := by
  unfold ruleCall
  split
  next => exact .pure _
  next => exact .bind (.modify _) fun _ _ _ => .bind (.modify _) fun _ _ _ => .pure _

theorem checkChoice_succeeds {as : List Alternative} (h : as ≠ []) (ctx : Context)
    (out : Emitted) : Succeeds (checkChoice ctx as) out := by
  unfold checkChoice
  rw [if_neg (by simpa using h)]
  exact .pure ()

theorem checkLabel_succeeds {ctx : Context} {label : Option String}
    (h : ∀ l, label = some l → labelDefect ctx l = none) (out : Emitted) :
    Succeeds (checkLabel ctx label) out := by
  cases label with
  | none => exact .pure ()
  | some l =>
    unfold checkLabel
    simp only [h l rfl]
    exact .pure ()

theorem checkGroup_succeeds {rs : List Resolved.Alternative}
    (h : ∀ r ∈ rs, r.resultType.isText = true) (ctx : Context) (out : Emitted) :
    Succeeds (checkGroup ctx rs) out := by
  have hnone : rs.find? (fun r => !r.resultType.isText) = none := by
    rw [List.find?_eq_none]
    intro r hr
    simp [h r hr]
  unfold checkGroup
  rw [hnone]
  exact .pure ()

theorem repeated_succeeds (ctx : Context) (body : Resolved.Matcher)
    (bounds : Resolved.Bound × Option Resolved.Bound) (separator : Option Resolved.Matcher)
    (out : Emitted) : Succeeds (repeated ctx body bounds separator) out :=
  .bind (.modify _) fun _ _ _ => .pure _

theorem exactBounds_succeeds {count : UInt32} (h : 0 < count) (ctx : Context) (out : Emitted) :
    Succeeds (exactBounds ctx count) out := by
  unfold exactBounds
  rw [if_neg (by simpa using UInt32.pos_iff_ne_zero.mp h)]
  exact .pure _

theorem computedBound_succeeds {code : Option String}
    (h : ∀ c, code = some c → Text.isBlankText c = false) (ctx : Context) (out : Emitted) :
    Succeeds (computedBound ctx code) out := by
  cases code with
  | none => exact .pure _
  | some c =>
    show Succeeds (if Text.isBlankText c then _ else _) out
    rw [if_neg (by simp [h c rfl])]
    exact .pure _

theorem rangeBounds_succeeds {min max : Option UInt32} (h : (Quantifier.range min max).Sound)
    (ctx : Context) (out : Emitted) : Succeeds (rangeBounds ctx min max) out := by
  unfold rangeBounds
  rw [(rangeDefect_eq_none min max).mpr h]
  exact .pure _

theorem resolveClass_succeeds {items : List Grammar.ClassItem}
    (h : items ≠ [] ∧ ∀ item ∈ items, item.Sound) (ctx : Context) (out : Emitted) :
    Succeeds (resolveClass ctx items) out := by
  unfold resolveClass
  rw [(classDefect_eq_none items).mpr h]
  exact .pure _

/-- Whether an item is captured does not make it fail. -/
theorem ite_succeeds (c : Bool) (a b : ResolvedElement) (out : Emitted) :
    Succeeds (if c then (pure a : Resolve _) else pure b) out := by
  cases c
  · exact .pure b
  · exact .pure a

section
variable (env : Env)

mutual

theorem alternatives_succeed : ∀ (as : List Alternative) (ctx : Context) (index : Nat)
    (out : Emitted), (∀ n ∈ choiceNodes ctx index as, n.2.Sound env.typeOf n.1) →
    Succeeds (resolveAlternatives env ctx index as) out
  | [] => fun ctx index out _ => by
    rw [resolveAlternatives]
    exact .pure _
  | a :: rest => fun ctx index out h => by
    rw [choiceNodes_cons, List.forall_mem_append] at h
    rw [resolveAlternatives]
    apply Succeeds.bind (.modify _)
    intro _ out _
    apply Succeeds.bind (alternative_succeeds a _ out h.1)
    intro r mid _
    apply Succeeds.bind (alternatives_succeed rest ctx (index + 1) mid h.2)
    intro rs out' _
    exact .pure _
termination_by as => sizeOf as
decreasing_by all_goals simp +arith

theorem alternative_succeeds : ∀ (a : Alternative) (ctx : Context) (out : Emitted),
    (∀ n ∈ a.nodes ctx.place, n.2.Sound env.typeOf n.1) →
    Succeeds (resolveAlternative env ctx a) out
  | ⟨elements, action⟩ => fun ctx out h => by
    rw [Alternative.nodes, List.forall_mem_append, List.forall_mem_singleton] at h
    have hempty : RowOf env (ctx.enterRow (predicateSources elements)) [] {} := .empty
    rw [resolveAlternative]
    apply Succeeds.bind (elements_succeed elements _ 0 {} out [] hempty (fun _ h => h) h.1)
    rintro ⟨es, row⟩ mid hes
    -- what the elements bound is the same for the run as for the conditions
    have hrow := ((visiting_closed env).elements elements hes [] hempty fun _ h => h).2
    apply Succeeds.bind ((hrow.value action mid).mpr h.2)
    intro value out' _
    exact .pure _
termination_by a => sizeOf a
decreasing_by simp +arith

theorem elements_succeed : ∀ (es : List Element) (ctx : Context) (position : Nat) (row : Row)
    (out : Emitted) (earlier : List Element), RowOf env ctx earlier row →
    predicateSources es ⊆ ctx.predicateSources →
    (∀ n ∈ elementsNodes ctx.place earlier es, n.2.Sound env.typeOf n.1) →
    Succeeds (resolveElements env ctx position row es) out
  | [] => fun ctx position row out earlier _ _ _ => by
    rw [resolveElements]
    exact .pure _
  | e :: rest => fun ctx position row out earlier hrow hsources h => by
    rw [predicateSources_cons, List.append_subset] at hsources
    rw [elementsNodes, List.forall_mem_append] at h
    have hrow' : RowOf env (ctx.enterElement position row.labels row.ruleValues) earlier row :=
      RowOf.enterElement.mpr hrow
    rw [resolveElements]
    apply Succeeds.bind (element_succeeds e _ out earlier row hrow' rfl rfl hsources.1 h.1)
    intro r mid hr
    have hnext := ((visiting_closed env).element e hr earlier row hrow' rfl rfl hsources.1).2
    apply Succeeds.bind (elements_succeed rest ctx (position + 1) (row.add r) mid (earlier ++ [e])
      (RowOf.enterElement.mp hnext) hsources.2 h.2)
    intro rs out' _
    exact .pure _
termination_by es => sizeOf es
decreasing_by all_goals simp +arith

theorem element_succeeds : ∀ (e : Element) (ctx : Context) (out : Emitted)
    (earlier : List Element) (row : Row), RowOf env ctx earlier row →
    row.labels = ctx.labels → row.ruleValues = ctx.ruleValues →
    predicateSources [e] ⊆ ctx.predicateSources →
    (∀ n ∈ e.nodes ctx.place earlier, n.2.Sound env.typeOf n.1) →
    Succeeds (resolveElement env ctx e) out
  | .check negated (.predicate p) => fun ctx out earlier row hrow hlabels hvalues hsources h => by
    rw [Element.nodes, List.forall_mem_singleton] at h
    have hsub : p.params.map (fun q => q.source) ⊆ ctx.predicateSources := by
      simpa [predicateSources] using hsources
    rw [resolveElement]
    apply Succeeds.bind ((hrow.predicate hlabels hvalues hsub out).mpr h)
    intro call out' _
    exact .pure _
  | .check negated (.lookahead body) => fun ctx out earlier row _ _ _ _ h => by
    rw [Element.nodes] at h
    rw [resolveElement]
    apply Succeeds.bind (quantified_succeeds body ctx.enterLookahead out h)
    intro m out' _
    exact .pure _
  | .item plucked label ⟨expr, quantifier⟩ => fun ctx out earlier row hrow hlabels _ _ h => by
    rw [Element.nodes, List.forall_mem_append, List.forall_mem_append] at h
    obtain ⟨⟨hlabel, hbody⟩, hgroup⟩ := h
    have hcheck : ∀ l, label = some l → labelDefect ctx l = none := by
      rintro l rfl
      exact (hrow.label hlabels l).mpr (hlabel (ctx.place, .label earlier l) (by simp))
    -- a plain reference or group has a value of its own; all else is its text
    cases hplain : isPlain ⟨expr, quantifier⟩ with
    | false =>
      rw [resolveElement_item hplain]
      apply Succeeds.bind (checkLabel_succeeds hcheck out)
      intro _ mid _
      apply Succeeds.bind (quantified_succeeds ⟨expr, quantifier⟩ ctx mid hbody)
      intro m out' _
      exact ite_succeeds ..
    | true =>
      obtain ⟨rfl, ⟨target, rfl⟩ | ⟨as, rfl⟩⟩ := plain_cases hplain
      · rw [resolveElement]
        apply Succeeds.bind (checkLabel_succeeds hcheck out)
        intro _ mid _
        apply Succeeds.bind (ruleCall_succeeds ..)
        intro call out' _
        exact ite_succeeds ..
      · rw [Quantified.nodes, List.forall_mem_append, Expr.nodes, List.forall_mem_cons,
          ← place_enterGroup, ← choiceNodes_nested (isNested_enterGroup ctx) as 0] at hbody
        obtain ⟨⟨hne, has⟩, -⟩ := hbody
        rw [resolveElement]
        apply Succeeds.bind (checkLabel_succeeds hcheck out)
        intro _ mid _
        apply Succeeds.bind (checkChoice_succeeds hne ..)
        intro _ mid _
        apply Succeeds.bind (alternatives_succeed as ctx.enterGroup 0 mid has)
        intro rs out' hrs
        split
        next hkeeps =>
          obtain ⟨hc, hname⟩ := Bool.and_eq_true_iff.mp hkeeps
          have htypes := ((visiting_closed env).alternatives as hrs).2 hc
          rw [choiceNodes_nested (isNested_enterGroup ctx), place_enterGroup] at has
          have hnamed : (Node.namedGroup as).Sound env.typeOf ctx.place :=
            hgroup (ctx.place, .namedGroup as) (by simp [hname, Quantified.group?])
          apply Succeeds.bind (checkGroup_succeeds ((namedGroup_iff hc has htypes).mpr hnamed) ..)
          intro _ out'' _
          exact .pure _
        next => exact .pure _
termination_by e => sizeOf e
decreasing_by all_goals subst_vars; simp +arith

theorem quantified_succeeds : ∀ (body : Quantified) (ctx : Context) (out : Emitted),
    (∀ n ∈ body.nodes ctx.place, n.2.Sound env.typeOf n.1) →
    Succeeds (resolveQuantified env ctx body) out
  | ⟨expr, quantifier⟩ => fun ctx out h => by
    rw [Quantified.nodes, List.forall_mem_append] at h
    rw [resolveQuantified]
    apply Succeeds.bind (expr_succeeds expr ctx out h.1)
    intro m mid _
    exact quantifier_succeeds quantifier ctx m mid h.2
termination_by body => sizeOf body
decreasing_by all_goals simp +arith

theorem quantifier_succeeds : ∀ (quantifier : Quantifier) (ctx : Context)
    (body : Resolved.Matcher) (out : Emitted),
    (∀ n ∈ quantifier.nodes ctx.place, n.2.Sound env.typeOf n.1) →
    Succeeds (resolveQuantifier env ctx body quantifier) out
  | .one => fun ctx body out _ => by
    rw [resolveQuantifier]
    exact .pure _
  | .optional => fun ctx body out _ => by
    rw [resolveQuantifier]
    exact repeated_succeeds ..
  | .zeroOrMore => fun ctx body out _ => by
    rw [resolveQuantifier]
    exact repeated_succeeds ..
  | .oneOrMore => fun ctx body out _ => by
    rw [resolveQuantifier]
    exact repeated_succeeds ..
  | .exact count => fun ctx body out h => by
    rw [Quantifier.nodes, List.forall_mem_singleton] at h
    · rw [resolveQuantifier]
      exact .bind (exactBounds_succeeds h ctx out) fun _ _ _ => repeated_succeeds ..
    · simp
  | .range min max => fun ctx body out h => by
    rw [Quantifier.nodes, List.forall_mem_singleton] at h
    · rw [resolveQuantifier]
      exact .bind (rangeBounds_succeeds h ctx out) fun _ _ _ => repeated_succeeds ..
    · simp
  | .separated count separator => fun ctx body out h => by
    rw [Quantifier.nodes, List.forall_mem_cons] at h
    rw [resolveQuantifier]
    apply Succeeds.bind (exactBounds_succeeds h.1 ctx out)
    intro bounds mid _
    apply Succeeds.bind (expr_succeeds separator ctx.enterSeparator mid h.2)
    intro s out' _
    exact repeated_succeeds ..
  | .computed min max => fun ctx body out h => by
    rw [Quantifier.nodes, List.forall_mem_singleton] at h
    · rw [resolveQuantifier]
      apply Succeeds.bind (computedBound_succeeds (fun c hc => h c (.inl hc)) ctx out)
      intro lo mid _
      apply Succeeds.bind (computedBound_succeeds (fun c hc => h c (.inr hc)) ctx mid)
      intro hi out' _
      exact repeated_succeeds ..
    · simp
termination_by quantifier => sizeOf quantifier
decreasing_by simp +arith

theorem expr_succeeds : ∀ (e : Expr) (ctx : Context) (out : Emitted),
    (∀ n ∈ e.nodes ctx.place, n.2.Sound env.typeOf n.1) → Succeeds (resolveExpr env ctx e) out
  | .literal value => fun ctx out _ => by
    rw [resolveExpr]
    exact .pure _
  | .class items => fun ctx out h => by
    rw [Expr.nodes, List.forall_mem_singleton] at h
    rw [resolveExpr]
    exact .bind (resolveClass_succeeds h ctx out) fun _ _ _ => .pure _
  | .ruleRef target => fun ctx out _ => by
    rw [resolveExpr]
    exact .bind (ruleCall_succeeds ..) fun _ _ _ => .pure _
  | .anyChar => fun ctx out _ => by
    rw [resolveExpr]
    exact .pure _
  | .endOfInput => fun ctx out _ => by
    rw [resolveExpr]
    exact .pure _
  | .group as => fun ctx out h => by
    rw [Expr.nodes, List.forall_mem_cons, ← place_enterGroup,
      ← choiceNodes_nested (isNested_enterGroup ctx) as 0] at h
    rw [resolveExpr]
    apply Succeeds.bind (checkChoice_succeeds h.1 ..)
    intro _ mid _
    apply Succeeds.bind (alternatives_succeed as ctx.enterGroup 0 mid h.2)
    intro rs out' _
    exact .pure _
termination_by e => sizeOf e
decreasing_by simp +arith

end

end

end PegCompiler.Resolution
