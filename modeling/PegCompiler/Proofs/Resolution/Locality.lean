import PegCompiler.Proofs.Resolution.UserCode
import PegCompiler.Proofs.Validity.Grammars
/-
  Translation of a rule is local. What becomes of a rule, and what is extracted from it,
  depends on the rule, the declared types, and what the table says of the rule itself and
  of the rules that it refers to; nothing else of the grammar counts, and neither do the
  rules that were resolved before.

  The invariant relates two runs (`Beside`): both have extracted the same since they
  started, and they agree on what the rule may ask of the state. `Alike` computations keep
  it and end alike; the parts of resolution are alike under tables that agree on the
  references of what they resolve (`alike_alternatives` and the theorems beside it). A rule
  can therefore be resolved by itself (`ownPart`), and a parser is made of such parts.
-/

namespace PegCompiler.Grammar

/-- A rule refers to the rule with an id, at any depth. -/
def Rule.RefersTo (rule : Rule) (target : String) : Prop :=
  ∃ place, (place, Node.reference target) ∈ rule.nodes

end PegCompiler.Grammar

namespace PegCompiler.Resolution

open Grammar (Alternative ClassItem Element Expr Node Place Predicate PredicateParam Quantified
  Quantifier alternativesNodes elementsNodes)
open Resolved (Bound Matcher Param)

/-! ## Two runs side by side -/

/-- States of two runs, one from each. Behind `before` and `before'` both have extracted
the same functions, and they agree on what a rule may ask: the number of its predicates,
and which of its alternatives refer to undefined rules. -/
structure Beside (rule : String) (before before' : List Resolved.Action)
    (out out' : Emitted) : Prop where
  actions : ∃ new, out.actions = before ++ new ∧ out'.actions = before' ++ new
  count : out.predicateCount rule = out'.predicateCount rule
  unresolved : ∀ index, out.hasUnresolved rule index = out'.hasUnresolved rule index

/-- Computations that end alike, and keep runs side by side. -/
def Alike (rule : String) {α : Type} (x y : Resolve α) : Prop :=
  ∀ (before before' : List Resolved.Action) (out out' : Emitted), Beside rule before before' out out' →
    (x.run.run out).1 = (y.run.run out').1 ∧
      Beside rule before before' (x.run.run out).2 (y.run.run out').2

section
variable {rule : String} {before before' : List Resolved.Action} {out out' : Emitted}

namespace Beside

theorem addNote (h : Beside rule before before' out out') (note note' : Note) :
    Beside rule before before' (out.addNote note) (out'.addNote note') :=
  ⟨h.actions, h.count, h.unresolved⟩

theorem addAction (h : Beside rule before before' out out') (a : Resolved.Action) :
    Beside rule before before' (out.addAction a) (out'.addAction a) := by
  obtain ⟨new, hout, hout'⟩ := h.actions
  refine ⟨⟨new ++ [a], ?_, ?_⟩, h.count, h.unresolved⟩
  · rw [Emitted.addAction, hout, List.append_assoc]
  · rw [Emitted.addAction, hout', List.append_assoc]

theorem addUnresolved (h : Beside rule before before' out out') (u : Unresolved) :
    Beside rule before before' (out.addUnresolved u) (out'.addUnresolved u) := by
  refine ⟨h.actions, h.count, fun index => ?_⟩
  have hbefore := h.unresolved index
  unfold Emitted.hasUnresolved Emitted.addUnresolved at *
  rw [List.any_append, List.any_append, hbefore]

theorem nextPredicate (h : Beside rule before before' out out') :
    Beside rule before before' (out.nextPredicate rule).2 (out'.nextPredicate rule).2 := by
  refine ⟨h.actions, ?_, h.unresolved⟩
  rw [predicateCount_next, predicateCount_next, if_pos rfl, if_pos rfl, h.count]

end Beside

namespace Alike

theorem pure {α : Type} (a : α) : Alike rule (pure a : Resolve α) (Pure.pure a) :=
  fun _ _ _ _ h => ⟨rfl, h⟩

theorem throw {α : Type} (m : Malformed) :
    Alike rule (throw m : Resolve α) (MonadExcept.throw m) :=
  fun _ _ _ _ h => ⟨rfl, h⟩

theorem bind {α β : Type} {x y : Resolve α} {f g : α → Resolve β} (hxy : Alike rule x y)
    (hfg : ∀ a, Alike rule (f a) (g a)) : Alike rule (x >>= f) (y >>= g) := by
  intro before before' out out' h
  obtain ⟨hend, hbeside⟩ := hxy _ _ _ _ h
  rw [Yields.run_bind, Yields.run_bind]
  rcases hx : x.run.run out with ⟨r, t⟩
  rcases hy : y.run.run out' with ⟨r', t'⟩
  rw [hx, hy] at hend hbeside
  obtain rfl : r = r' := hend
  cases r with
  | error e => exact ⟨rfl, hbeside⟩
  | ok a => exact hfg a _ _ _ _ hbeside

theorem modify {f g : Emitted → Emitted}
    (hfg : ∀ {before before' out out'}, Beside rule before before' out out' →
      Beside rule before before' (f out) (g out')) :
    Alike rule (modify f : Resolve PUnit) (modify g) :=
  fun _ _ _ _ h => ⟨rfl, hfg h⟩

theorem note (n n' : Note) : Alike rule (Resolution.note n) (Resolution.note n') :=
  modify fun h => h.addNote n n'

theorem refuse {α : Type} (ctx : Context) (defect : Defect) :
    Alike rule (Resolution.refuse ctx defect : Resolve α) (Resolution.refuse ctx defect) :=
  throw _

/-- Nothing follows a refusal. -/
theorem refused {α β : Type} (ctx : Context) (defect : Defect) (f g : α → Resolve β) :
    Alike rule (Resolution.refuse ctx defect >>= f) (Resolution.refuse ctx defect >>= g) :=
  fun _ _ _ _ h => ⟨rfl, h⟩

/-! ### Parts that look nothing up -/

theorem checkLabel (ctx : Context) (label : Option String) :
    Alike rule (checkLabel ctx label) (Resolution.checkLabel ctx label) := by
  unfold Resolution.checkLabel
  split
  · exact pure ()
  · split
    · exact refuse ctx _
    · exact pure ()

theorem checkChoice (ctx : Context) (alternatives : List Alternative) :
    Alike rule (checkChoice ctx alternatives) (Resolution.checkChoice ctx alternatives) := by
  unfold Resolution.checkChoice
  split
  · exact refuse ctx _
  · exact pure ()

theorem checkGroup (ctx : Context) (alternatives : List Resolved.Alternative) :
    Alike rule (checkGroup ctx alternatives) (Resolution.checkGroup ctx alternatives) := by
  unfold Resolution.checkGroup
  split
  · exact refuse ctx _
  · exact pure ()

theorem resolveClass (ctx : Context) (items : List ClassItem) :
    Alike rule (resolveClass ctx items) (Resolution.resolveClass ctx items) := by
  unfold Resolution.resolveClass
  split
  · exact refuse ctx _
  · exact pure _

theorem exactBounds (ctx : Context) (count : UInt32) :
    Alike rule (exactBounds ctx count) (Resolution.exactBounds ctx count) := by
  unfold Resolution.exactBounds
  split
  · exact refuse ctx _
  · exact pure _

theorem rangeBounds (ctx : Context) (min max : Option UInt32) :
    Alike rule (rangeBounds ctx min max) (Resolution.rangeBounds ctx min max) := by
  unfold Resolution.rangeBounds
  split
  · exact refuse ctx _
  · exact pure _

theorem computedBound (ctx : Context) (code : Option String) :
    Alike rule (computedBound ctx code) (Resolution.computedBound ctx code) := by
  unfold Resolution.computedBound
  split
  · exact pure _
  · split
    · exact refuse ctx _
    · exact pure _

theorem repeated (ctx : Context) (body : Matcher) (bounds : Bound × Option Bound)
    (separator : Option Matcher) :
    Alike rule (repeated ctx body bounds separator)
      (Resolution.repeated ctx body bounds separator) :=
  bind (note _ _) fun _ => pure _

theorem predicateParams (ctx : Context) : ∀ (ps : List PredicateParam) (params : List Param)
    (args : List String), Alike rule (predicateParams ctx params args ps)
      (Resolution.predicateParams ctx params args ps)
  | [], _, _ => pure _
  | p :: ps, params, args => by
    unfold Resolution.predicateParams
    split
    · exact refuse ctx _
    · split
      · exact refuse ctx _
      · split
        · exact refuse ctx _
        · exact predicateParams ctx ps _ _

/-- A predicate gets the next number of its rule. -/
theorem resolvePredicate (ctx : Context) (p : Predicate) :
    Alike ctx.rule (resolvePredicate ctx p) (Resolution.resolvePredicate ctx p) := by
  have hnext : Alike ctx.rule (modifyGet (fun out => out.nextPredicate ctx.rule) : Resolve Nat)
      (modifyGet fun out => out.nextPredicate ctx.rule) :=
    fun _ _ _ _ h => ⟨congrArg Except.ok h.count, h.nextPredicate⟩
  unfold Resolution.resolvePredicate
  dsimp only
  split
  · exact refused ctx _ _ _
  · split
    · exact refused ctx _ _ _
    · exact bind (predicateParams ctx _ _ _) fun _ => bind hnext fun _ =>
        bind (modify fun h => h.addAction _) fun _ => pure _

end Alike

end

/-! ## Tables that agree -/

/-- Tables agree on the rules that nodes refer to. -/
def Agree (env env' : Env) (nodes : List (Place × Node)) : Prop :=
  ∀ place target, (place, .reference target) ∈ nodes → env.rule target = env'.rule target

section
variable {env env' : Env}

theorem Agree.append {ns ms : List (Place × Node)} (h : Agree env env' (ns ++ ms)) :
    Agree env env' ns ∧ Agree env env' ms :=
  ⟨fun place target hmem => h place target (List.mem_append_left _ hmem),
    fun place target hmem => h place target (List.mem_append_right _ hmem)⟩

theorem Agree.tail {n : Place × Node} {ns : List (Place × Node)} (h : Agree env env' (n :: ns)) :
    Agree env env' ns :=
  fun place target hmem => h place target (List.mem_cons_of_mem n hmem)

/-- Alternatives of a group, each at the place of the group. -/
theorem Agree.alternatives {place : Place} : ∀ {as : List Alternative},
    Agree env env' (alternativesNodes place as) → ∀ a ∈ as, ∃ place, Agree env env' (a.nodes place)
  | [], _, _, ha => nomatch ha
  | a :: rest, h, b, hb => by
    rw [alternativesNodes] at h
    rcases List.mem_cons.mp hb with rfl | hb
    · exact ⟨place, h.append.1⟩
    · exact Agree.alternatives h.append.2 b hb

theorem alike_ruleCall {target : String} (h : env.rule target = env'.rule target) (ctx : Context) :
    Alike ctx.rule (ruleCall env ctx target) (ruleCall env' ctx target) := by
  unfold ruleCall
  rw [h]
  split
  · exact .pure _
  · exact .bind (.note _ _) fun _ => .bind (.modify fun h => h.addUnresolved _) fun _ => .pure _

theorem alike_concatResult {rule : String} (ctx : Context)
    (captures : List (String × Resolved.ValueType)) :
    Alike rule (concatResult ctx captures) (concatResult ctx captures) := by
  unfold concatResult
  split
  · exact .pure _
  · exact .pure _
  · split
    · exact .refuse ctx _
    · exact .pure _

theorem alike_rowValue (htypes : env.types = env'.types) {rule : String} (ctx : Context) (row : Row)
    (action : Option String) : Alike rule (rowValue env ctx row action) (rowValue env' ctx row action) := by
  unfold rowValue
  split
  · unfold actionValue
    rw [htypes]
    split
    · exact .refused ctx _ _ _
    · exact .bind (.modify fun h => h.addAction _) fun _ => .pure _
  · split
    · exact alike_concatResult ctx _
    · exact alike_concatResult ctx _

/-! ## Every part of resolution -/

mutual

theorem alike_alternatives (htypes : env.types = env'.types) : ∀ (as : List Alternative),
    (∀ a ∈ as, ∃ place, Agree env env' (a.nodes place)) → ∀ (ctx : Context) (index : Nat),
    Alike ctx.rule (resolveAlternatives env ctx index as) (resolveAlternatives env' ctx index as)
  | [], _, ctx, index => by
    rw [resolveAlternatives, resolveAlternatives]
    exact .pure []
  | a :: rest, h, ctx, index => by
    obtain ⟨⟨place, ha⟩, hrest⟩ := List.forall_mem_cons.mp h
    rw [resolveAlternatives, resolveAlternatives]
    exact .bind (.note _ _) fun _ =>
      .bind (alike_alternative htypes a ha (ctx.enterAlternative index)) fun _ =>
        .bind (alike_alternatives htypes rest hrest ctx (index + 1)) fun _ => .pure _

theorem alike_alternative (htypes : env.types = env'.types) : ∀ (a : Alternative) {place : Place},
    Agree env env' (a.nodes place) → ∀ (ctx : Context),
    Alike ctx.rule (resolveAlternative env ctx a) (resolveAlternative env' ctx a)
  | ⟨elements, action⟩, _, h, ctx => by
    rw [Alternative.nodes] at h
    rw [resolveAlternative, resolveAlternative]
    have hes : Alike ctx.rule _ _ :=
      alike_elements htypes elements h.append.1 (ctx.enterRow (predicateSources elements)) 0 {}
    exact .bind hes fun (_, row) => .bind (alike_rowValue htypes _ row action) fun _ => .pure _

theorem alike_elements (htypes : env.types = env'.types) : ∀ (es : List Element) {place : Place}
    {earlier : List Element}, Agree env env' (elementsNodes place earlier es) →
    ∀ (ctx : Context) (position : Nat) (row : Row),
      Alike ctx.rule (resolveElements env ctx position row es)
        (resolveElements env' ctx position row es)
  | [], _, _, _, ctx, position, row => by
    rw [resolveElements, resolveElements]
    exact .pure _
  | e :: rest, _, _, h, ctx, position, row => by
    rw [elementsNodes] at h
    rw [resolveElements, resolveElements]
    exact .bind (alike_element htypes e h.append.1 (ctx.enterElement position row.labels _))
      fun e => .bind (alike_elements htypes rest h.append.2 ctx (position + 1) (row.add e))
        fun _ => .pure _

theorem alike_element (htypes : env.types = env'.types) : ∀ (e : Element) {place : Place}
    {earlier : List Element}, Agree env env' (e.nodes place earlier) → ∀ (ctx : Context),
    Alike ctx.rule (resolveElement env ctx e) (resolveElement env' ctx e)
  | .check negated (.predicate p), _, _, _, ctx => by
    rw [resolveElement, resolveElement]
    exact .bind (.resolvePredicate ctx p) fun _ => .pure _
  | .check negated (.lookahead body), _, _, h, ctx => by
    rw [Element.nodes] at h
    rw [resolveElement, resolveElement]
    exact .bind (alike_quantified htypes body h ctx.enterLookahead) fun _ => .pure _
  | .item plucked label ⟨expr, quantifier⟩, place, _, h, ctx => by
    rw [Element.nodes] at h
    have hbody : Agree env env' (Quantified.nodes _ ⟨expr, quantifier⟩) := h.append.1.append.2
    cases hplain : isPlain ⟨expr, quantifier⟩ with
    | false =>
      rw [resolveElement_item hplain, resolveElement_item hplain]
      refine .bind (.checkLabel ctx label) fun _ =>
        .bind (alike_quantified htypes ⟨expr, quantifier⟩ hbody ctx) fun m => ?_
      split <;> exact .pure _
    | true =>
      rw [Quantified.nodes] at hbody
      match expr, quantifier, hplain, hbody with
      | .ruleRef target, .one, _, hbody =>
        have htarget := hbody.append.1 place target
          (by rw [Expr.nodes]; exact List.mem_singleton_self _)
        rw [resolveElement, resolveElement]
        refine .bind (.checkLabel ctx label) fun _ => .bind (alike_ruleCall htarget ctx) fun call => ?_
        split <;> exact .pure _
      | .group as, .one, _, hbody =>
        have has := hbody.append.1
        rw [Expr.nodes] at has
        rw [resolveElement, resolveElement]
        refine .bind (.checkLabel ctx label) fun _ => .bind (.checkChoice _ as) fun _ =>
          .bind (alike_alternatives htypes as has.tail.alternatives ctx.enterGroup 0) fun rs => ?_
        split
        · exact .bind (.checkGroup ctx rs) fun _ => .pure _
        · exact .pure _

theorem alike_quantified (htypes : env.types = env'.types) : ∀ (body : Quantified) {place : Place},
    Agree env env' (body.nodes place) → ∀ (ctx : Context),
    Alike ctx.rule (resolveQuantified env ctx body) (resolveQuantified env' ctx body)
  | ⟨expr, quantifier⟩, _, h, ctx => by
    rw [Quantified.nodes] at h
    rw [resolveQuantified, resolveQuantified]
    exact .bind (alike_expr htypes expr h.append.1 ctx) fun m =>
      alike_quantifier htypes quantifier h.append.2 ctx m

theorem alike_quantifier (htypes : env.types = env'.types) : ∀ (quantifier : Quantifier)
    {place : Place}, Agree env env' (quantifier.nodes place) → ∀ (ctx : Context) (body : Matcher),
    Alike ctx.rule (resolveQuantifier env ctx body quantifier)
      (resolveQuantifier env' ctx body quantifier)
  | .one, _, _, ctx, body => by
    rw [resolveQuantifier, resolveQuantifier]
    exact .pure body
  | .optional, _, _, ctx, body => by
    rw [resolveQuantifier, resolveQuantifier]
    exact .repeated ctx body _ none
  | .zeroOrMore, _, _, ctx, body => by
    rw [resolveQuantifier, resolveQuantifier]
    exact .repeated ctx body _ none
  | .oneOrMore, _, _, ctx, body => by
    rw [resolveQuantifier, resolveQuantifier]
    exact .repeated ctx body _ none
  | .exact count, _, _, ctx, body => by
    rw [resolveQuantifier, resolveQuantifier]
    exact .bind (.exactBounds ctx count) fun bounds => .repeated ctx body bounds none
  | .range min max, _, _, ctx, body => by
    rw [resolveQuantifier, resolveQuantifier]
    exact .bind (.rangeBounds ctx min max) fun bounds => .repeated ctx body bounds none
  | .separated count separator, _, h, ctx, body => by
    rw [Quantifier.nodes] at h
    rw [resolveQuantifier, resolveQuantifier]
    exact .bind (.exactBounds ctx count) fun bounds =>
      .bind (alike_expr htypes separator h.tail ctx.enterSeparator) fun m =>
        .repeated ctx body bounds (some m)
  | .computed min max, _, _, ctx, body => by
    rw [resolveQuantifier, resolveQuantifier]
    exact .bind (.computedBound ctx min) fun min => .bind (.computedBound ctx max) fun max =>
      .repeated ctx body _ none

theorem alike_expr (htypes : env.types = env'.types) : ∀ (e : Expr) {place : Place},
    Agree env env' (e.nodes place) → ∀ (ctx : Context),
    Alike ctx.rule (resolveExpr env ctx e) (resolveExpr env' ctx e)
  | .literal value, _, _, ctx => by
    rw [resolveExpr, resolveExpr]
    exact .pure _
  | .class items, _, _, ctx => by
    rw [resolveExpr, resolveExpr]
    exact .bind (.resolveClass ctx items) fun _ => .pure _
  | .ruleRef target, place, h, ctx => by
    rw [resolveExpr, resolveExpr]
    have htarget := h place target (by rw [Expr.nodes]; exact List.mem_singleton_self _)
    exact .bind (alike_ruleCall htarget ctx) fun _ => .pure _
  | .anyChar, _, _, ctx => by
    rw [resolveExpr, resolveExpr]
    exact .pure _
  | .endOfInput, _, _, ctx => by
    rw [resolveExpr, resolveExpr]
    exact .pure _
  | .group as, _, h, ctx => by
    rw [Expr.nodes] at h
    rw [resolveExpr, resolveExpr]
    exact .bind (.checkChoice _ as) fun _ =>
      .bind (alike_alternatives htypes as h.tail.alternatives ctx.enterGroup 0) fun _ => .pure _

end

/-! ## Rules -/

/-- The state is looked at only for what both runs agree on. -/
theorem Alike.get {rule : String} {α : Type} {f g : Emitted → Resolve α}
    (hfg : ∀ out out', (∀ index, out.hasUnresolved rule index = out'.hasUnresolved rule index) →
      Alike rule (f out) (g out')) : Alike rule (MonadState.get >>= f) (MonadState.get >>= g) := by
  intro before before' out out' h
  rw [Yields.run_bind, Yields.run_bind]
  exact hfg out out' h.unresolved _ _ _ _ h

theorem alike_rule (htypes : env.types = env'.types) {rule : Grammar.Rule}
    (hself : env.rule rule.id = env'.rule rule.id) (h : Agree env env' rule.nodes) :
    Alike rule.id (resolveRule env rule) (resolveRule env' rule) := by
  have hinfo : env.info rule = env'.info rule := by rw [Env.info, Env.info, hself, htypes]
  have hnodes : ∀ a ∈ rule.alternatives, ∃ place, Agree env env' (a.nodes place) := by
    intro a ha
    obtain ⟨index, hindex, rfl⟩ := List.mem_iff_getElem.mp ha
    refine ⟨rule.place index, fun place target hmem => h.tail place target ?_⟩
    exact List.mem_flatMap.mpr ⟨(_, index), List.mk_mem_zipIdx_iff_getElem?.mpr
      (List.getElem?_eq_getElem hindex), hmem⟩
  unfold resolveRule
  rw [hinfo]
  refine .bind (.note _ _) fun _ => ?_
  unfold resolveChoice
  have hchoice : Alike rule.id _ _ :=
    alike_alternatives htypes rule.alternatives hnodes (env'.context rule) 0
  refine .bind (.bind (.checkChoice _ rule.alternatives) fun _ => hchoice) fun rs => ?_
  refine .get fun out out' hunresolved => ?_
  have hconflict : typeConflict out rule.id (env'.info rule).resultType rs =
      typeConflict out' rule.id (env'.info rule).resultType rs := by
    unfold typeConflict
    simp only [hunresolved]
  rw [hconflict]
  split
  · exact .throw _
  · exact .pure _

end

/-! ## Parts of a parser -/

/-- A rule and the functions extracted from it. -/
abbrev Part := Resolved.Rule × List Resolved.Action

/-- What a rule becomes when it is resolved by itself. -/
def ownPart (env : Env) (rule : Grammar.Rule) : Option Part :=
  match (resolveRule env rule).run.run {} with
  | (.ok r, out) => some (r, out.actions)
  | (.error _, _) => none

/-- Under tables that agree a rule becomes the same. -/
theorem ownPart_eq {env env' : Env} (htypes : env.types = env'.types) {rule : Grammar.Rule}
    (hself : env.rule rule.id = env'.rule rule.id) (h : Agree env env' rule.nodes) :
    ownPart env rule = ownPart env' rule := by
  obtain ⟨hend, hbeside⟩ := alike_rule htypes hself h [] [] {} {}
    ⟨⟨[], rfl, rfl⟩, rfl, fun _ => rfl⟩
  obtain ⟨new, hnew, hnew'⟩ := hbeside.actions
  unfold ownPart
  rcases hrun : (resolveRule env rule).run.run {} with ⟨r, out⟩
  rcases hrun' : (resolveRule env' rule).run.run {} with ⟨r', out'⟩
  rw [hrun] at hend hnew
  rw [hrun'] at hend hnew'
  obtain rfl : r = r' := hend
  cases r with
  | error m => rfl
  | ok r => exact congrArg (fun actions => some (r, actions)) (hnew.trans hnew'.symm)

/-- What was resolved before a rule does not count, as long as no predicate is numbered for
the rule and no reference is recorded for it. -/
theorem ownPart_of_yields {env : Env} {rule : Grammar.Rule} {r : Resolved.Rule}
    {out out' : Emitted} (h : Yields (resolveRule env rule) out r out')
    (hcount : out.predicateCount rule.id = 0) (hunresolved : out.unresolved = []) :
    ∃ new, ownPart env rule = some (r, new) ∧ out'.actions = out.actions ++ new := by
  have hstart : Beside rule.id out.actions [] out {} :=
    ⟨⟨[], (List.append_nil _).symm, rfl⟩, hcount, fun index => by
      unfold Emitted.hasUnresolved
      rw [hunresolved]⟩
  obtain ⟨hend, hbeside⟩ := alike_rule rfl rfl (fun _ _ _ => rfl) _ _ _ _ hstart
  obtain ⟨new, hnew, hown⟩ := hbeside.actions
  have hrun : (resolveRule env rule).run.run out = (.ok r, out') := h
  rw [hrun] at hend hnew
  refine ⟨new, ?_, hnew⟩
  unfold ownPart
  rcases hrun' : (resolveRule env rule).run.run {} with ⟨r', alone⟩
  rw [hrun'] at hend hown
  obtain rfl : Except.ok r = r' := hend
  exact congrArg (fun actions => some (r, actions)) hown

/-- Rules one after another become what each becomes by itself. -/
theorem parts_of_rules {env : Env}
    (henv : ∀ {target info}, env.rule target = some info → isExtracted info.function = false) :
    ∀ {rules : List Grammar.Rule} {rs : List Resolved.Rule} {out out' : Emitted},
      Yields (rules.mapM (resolveRule env)) out rs out' → (rules.map fun r => r.id).Nodup →
      (∀ r ∈ rules, out.predicateCount r.id = 0) → out'.unresolved = [] →
      ∃ parts : List Part, List.Forall₂ (fun rule part => ownPart env rule = some part) rules parts ∧
        rs = parts.map (fun part => part.1) ∧
        out'.actions = out.actions ++ parts.flatMap (fun part => part.2)
  | [], _, _, _, h, _, _, _ => by
    obtain ⟨rfl, rfl⟩ := Yields.mapM_nil_iff.mp h
    exact ⟨[], .nil, rfl, (List.append_nil _).symm⟩
  | rule :: rest, _, out, out', h, hids, hcounts, hunresolved => by
    obtain ⟨r, mid, hr, rs, hrest, rfl⟩ := Yields.mapM_cons_iff.mp h
    rw [List.map_cons, List.nodup_cons] at hids
    rw [List.forall_mem_cons] at hcounts
    have hmid : mid.unresolved = [] :=
      List.prefix_nil.mp (hunresolved ▸ (Grows.of_rules hrest).unresolved)
    have hout : out.unresolved = [] :=
      List.prefix_nil.mp (hmid ▸ (Grows.of_resolveRule hr).unresolved)
    have hrestCounts : ∀ s ∈ rest, mid.predicateCount s.id = 0 := by
      intro s hs
      have hne : s.id ≠ rule.id := fun he =>
        hids.1 (he ▸ List.mem_map_of_mem (f := fun r => r.id) hs)
      rw [(adds_rule henv hr hcounts.1).counts, if_neg hne, hcounts.2 s hs]
    obtain ⟨new, hown, hnew⟩ := ownPart_of_yields hr hcounts.1 hout
    obtain ⟨parts, hparts, rfl, hactions⟩ :=
      parts_of_rules henv hrest hids.2 hrestCounts hunresolved
    refine ⟨(r, new) :: parts, .cons hown hparts, rfl, ?_⟩
    rw [hactions, hnew, List.flatMap_cons, List.append_assoc]

/-! ## Grammars -/

/-- The base of the names of the rule with an id. -/
def nameBase (g : Grammar) (id : String) : Option Resolved.BaseName :=
  (Resolved.RuleNames.ofIds (g.rules.map fun r => r.id)).base id

/-- Two grammars name the rule with an id alike and give it the same type. -/
def SameRule (g g' : Grammar) (types : ActionTypes) (id : String) : Prop :=
  nameBase g id = nameBase g' id ∧ g.ruleType types id = g'.ruleType types id

/-- A parser is made of parts: every rule of the grammar resolved by itself. -/
structure MadeOfParts (g : Grammar) (types : ActionTypes) (p : Resolved.Parser)
    (parts : List Part) : Prop where
  own : List.Forall₂ (fun rule part => ownPart (.ofRules g.rules types) rule = some part)
    g.rules parts
  rules : p.rules = parts.map fun part => part.1
  actions : p.actions = parts.flatMap fun part => part.2

section
variable {g g' : Grammar} {types : ActionTypes} {p p' : Resolved.Parser}

theorem parts_of_resolve (h : resolve g types = .ok p) : ∃ parts, MadeOfParts g types p parts := by
  obtain ⟨hdefect, out, hrules, hunresolved, hactions⟩ := of_resolve h
  obtain ⟨parts, hown, hparts, hextracted⟩ := parts_of_rules isExtracted_ofRules hrules
    (sound_of_rulesDefect hdefect).1 (fun _ _ => rfl) hunresolved
  exact ⟨parts, hown, hparts, hactions.trans hextracted⟩

theorem mem_ids_of_mem {rule : Grammar.Rule} (h : rule ∈ g.rules) :
    rule.id ∈ g.rules.map fun r => r.id :=
  List.mem_map_of_mem (f := fun r => r.id) h

/-- The entry of a rule in the table is made of its base and its type. -/
theorem rule_ofRules_eq (hids : (g.rules.map fun r => r.id).Nodup) (types : ActionTypes)
    (id : String) : (Env.ofRules g.rules types).rule id =
      (nameBase g id).map fun base => ⟨base, Resolved.ruleFunction base, g.ruleType types id⟩ := by
  by_cases hmem : id ∈ g.rules.map fun r => r.id
  · obtain ⟨rule, hrule, rfl⟩ := List.mem_map.mp hmem
    obtain ⟨base, hbase, hinfo⟩ := rule_ofRules_of_mem types hids hrule
    have htype := congrFun (typeOf_ofRules types hids) rule.id
    rw [Env.typeOf, hinfo] at htype
    rw [hinfo, nameBase, hbase]
    exact congrArg (fun type => some (RuleInfo.mk base (Resolved.ruleFunction base) type)) htype
  · have hbase : nameBase g id = none := by
      rw [Option.eq_none_iff_forall_ne_some]
      exact fun base hbase => hmem (Naming.mem_ids_of_base hbase)
    rw [hbase, Option.map_none, Option.eq_none_iff_forall_ne_some]
    intro info hinfo
    obtain ⟨rule, hrule, -, -, rfl, -⟩ := rule_ofRules_some hinfo
    exact hmem (mem_ids_of_mem hrule)

theorem ids_of_resolve (h : resolve g types = .ok p) : (g.rules.map fun r => r.id).Nodup :=
  (sound_of_rulesDefect (of_resolve h).1).1

theorem rule_eq_of_sameRule (h : resolve g types = .ok p) (h' : resolve g' types = .ok p')
    {id : String} (hsame : SameRule g g' types id) :
    (Env.ofRules g.rules types).rule id = (Env.ofRules g'.rules types).rule id := by
  rw [rule_ofRules_eq (ids_of_resolve h), rule_ofRules_eq (ids_of_resolve h'), hsame.1, hsame.2]

/-- References of a grammar that is accepted are to its rules. -/
theorem mem_ids_of_reference (h : resolve g types = .ok p) {rule : Grammar.Rule}
    (hrule : rule ∈ g.rules) {target : String} (href : rule.RefersTo target) :
    target ∈ g.rules.map fun r => r.id := by
  obtain ⟨hdefect, out, hrules, hunresolved, -⟩ := of_resolve h
  obtain ⟨place, hmem⟩ := href
  have hnone : g.undefined = [] := by
    have hvisited := (Visited.rules hrules).unresolved
    rw [hunresolved, defines_ofRules types (ids_of_resolve h)] at hvisited
    exact hvisited.symm
  have hdefined := Grammar.undefined_eq_nil.mp hnone place target
    (List.mem_flatMap.mpr ⟨rule, hrule, hmem⟩)
  obtain ⟨found, hfound⟩ := Option.isSome_iff_exists.mp hdefined
  obtain rfl : found.id = target := by simpa using List.find?_some hfound
  exact mem_ids_of_mem (List.mem_of_find?_eq_some hfound)

/-- **What becomes of a rule** depends on the rule, on its own name and type and on those
of the rules that it refers to. -/
theorem ownPart_of_same (h : resolve g types = .ok p) (h' : resolve g' types = .ok p')
    {rule : Grammar.Rule} (hsame : ∀ id, id = rule.id ∨ rule.RefersTo id → SameRule g g' types id) :
    ownPart (.ofRules g.rules types) rule = ownPart (.ofRules g'.rules types) rule := by
  have htypes : (Env.ofRules g.rules types).types = (Env.ofRules g'.rules types).types := rfl
  exact ownPart_eq htypes (rule_eq_of_sameRule h h' (hsame _ (.inl rfl))) fun place target hmem =>
    rule_eq_of_sameRule h h' (hsame target (.inr ⟨place, hmem⟩))

/-! ## Appended and edited rules -/

/-- Rules behind others do not change the names and the types of those. -/
theorem sameRule_append {more : List Grammar.Rule} (hmore : g'.rules = g.rules ++ more)
    {id : String} (hid : id ∈ g.rules.map fun r => r.id) : SameRule g g' types id := by
  obtain ⟨base, hbase⟩ := Naming.exists_base hid
  constructor
  · have hkept := Naming.base_foldl_of_some (more.map fun r => r.id) hbase
    rw [nameBase, nameBase, hmore, hbase, List.map_append, Resolved.RuleNames.ofIds,
      List.foldl_append]
    exact hkept.symm
  · obtain ⟨rule, hrule, rfl⟩ := List.mem_map.mp hid
    have hsome : (g.rules.find? fun r => r.id == rule.id).isSome :=
      List.find?_isSome.mpr ⟨rule, hrule, beq_self_eq_true rule.id⟩
    obtain ⟨found, hfound⟩ := Option.isSome_iff_exists.mp hsome
    unfold Grammar.ruleType Grammar.rule
    rw [hmore, List.find?_append, hfound]
    rfl

/-- A rule with another body but the same id and type does not change any name or type. -/
theorem sameRule_edit {before after : List Grammar.Rule} {rule rule' : Grammar.Rule}
    (hrules : g.rules = before ++ rule :: after) (hrules' : g'.rules = before ++ rule' :: after)
    (hid : rule'.id = rule.id) (htype : ruleResult rule' types = ruleResult rule types)
    (id : String) : SameRule g g' types id := by
  constructor
  · rw [nameBase, nameBase, hrules, hrules', List.map_append, List.map_append, List.map_cons,
      List.map_cons, hid]
  · unfold Grammar.ruleType Grammar.rule
    rw [hrules, hrules', List.find?_append, List.find?_append]
    cases before.find? (fun r => r.id == id) with
    | some found => rfl
    | none =>
      rw [Option.none_or, Option.none_or, List.find?_cons, List.find?_cons, hid]
      cases rule.id == id with
      | true => exact htype.symm
      | false => rfl

/-- The part of a rule stands where the rule stands. -/
theorem MadeOfParts.getElem? {parts : List Part} (hp : MadeOfParts g types p parts) (i : Nat) :
    parts[i]? = g.rules[i]?.bind (ownPart (.ofRules g.rules types)) := by
  cases hrule : g.rules[i]? with
  | none =>
    rw [List.getElem?_eq_none_iff] at hrule
    exact List.getElem?_eq_none (hp.own.length_eq ▸ hrule)
  | some rule =>
    obtain ⟨hi, rfl⟩ := List.getElem?_eq_some_iff.mp hrule
    have hpart : i < parts.length := hp.own.length_eq ▸ hi
    rw [List.getElem?_eq_getElem hpart]
    exact (hp.own.get hi hpart).symm

theorem part_eq_of_same (h : resolve g types = .ok p) (h' : resolve g' types = .ok p')
    {parts parts' : List Part} (hp : MadeOfParts g types p parts)
    (hp' : MadeOfParts g' types p' parts') {i j : Nat} {rule : Grammar.Rule}
    (hi : g.rules[i]? = some rule) (hj : g'.rules[j]? = some rule)
    (hsame : ∀ id, id = rule.id ∨ rule.RefersTo id → SameRule g g' types id) :
    parts[i]? = parts'[j]? := by
  rw [hp.getElem?, hp'.getElem?, hi, hj]
  exact ownPart_of_same h h' hsame

/-- What the rules of a grammar become stays in front when rules are appended. -/
theorem parts_append (h : resolve g types = .ok p) (h' : resolve g' types = .ok p')
    {parts parts' : List Part} (hp : MadeOfParts g types p parts)
    (hp' : MadeOfParts g' types p' parts') {more : List Grammar.Rule}
    (hmore : g'.rules = g.rules ++ more) : parts <+: parts' := by
  rw [List.prefix_iff_getElem?]
  intro i hi
  have hlength : i < g.rules.length := hp.own.length_eq ▸ hi
  have hrule : g.rules[i]? = some g.rules[i] := List.getElem?_eq_getElem hlength
  have hrule' : g'.rules[i]? = some g.rules[i] := by
    rw [hmore, List.getElem?_append_left hlength, hrule]
  have hmem : g.rules[i] ∈ g.rules := List.getElem_mem hlength
  have hsame : ∀ id, id = g.rules[i].id ∨ g.rules[i].RefersTo id → SameRule g g' types id := by
    rintro id (rfl | href)
    · exact sameRule_append hmore (mem_ids_of_mem hmem)
    · exact sameRule_append hmore (mem_ids_of_reference h hmem href)
  rw [← part_eq_of_same h h' hp hp' hrule hrule' hsame, List.getElem?_eq_getElem hi]

/-- What the other rules become stays when one rule gets another body. -/
theorem parts_edit (h : resolve g types = .ok p) (h' : resolve g' types = .ok p')
    {parts parts' : List Part} (hp : MadeOfParts g types p parts)
    (hp' : MadeOfParts g' types p' parts') {before after : List Grammar.Rule}
    {rule rule' : Grammar.Rule} (hrules : g.rules = before ++ rule :: after)
    (hrules' : g'.rules = before ++ rule' :: after) (hid : rule'.id = rule.id)
    (htype : ruleResult rule' types = ruleResult rule types) {i : Nat} (hi : i ≠ before.length) :
    parts[i]? = parts'[i]? := by
  have hother : g.rules[i]? = g'.rules[i]? := by
    rw [hrules, hrules', List.getElem?_append, List.getElem?_append]
    split
    · rfl
    · rw [List.getElem?_cons, List.getElem?_cons, if_neg (by omega), if_neg (by omega)]
  cases hrule : g.rules[i]? with
  | none =>
    rw [hp.getElem?, hp'.getElem?, ← hother, hrule]
    rfl
  | some other =>
    exact part_eq_of_same h h' hp hp' hrule (hother ▸ hrule)
      fun id _ => sameRule_edit hrules hrules' hid htype id

/-- **Translation of a rule is local.** The parsers of two grammars are made of parts, a
function and its extracted functions for every rule. Rules that are alike become alike
wherever they stand, as long as both grammars give the same names and types to the rule and
to the rules that it refers to. So what the rules of a grammar become stays when rules are
appended, and what all other rules become stays when one gets another body of the same
type. -/
theorem resolve_local (h : resolve g types = .ok p) (h' : resolve g' types = .ok p') :
    ∃ parts parts', MadeOfParts g types p parts ∧ MadeOfParts g' types p' parts' ∧
      (∀ (i j : Nat) (rule : Grammar.Rule), g.rules[i]? = some rule → g'.rules[j]? = some rule →
        (∀ id, id = rule.id ∨ rule.RefersTo id → SameRule g g' types id) →
        parts[i]? = parts'[j]?) ∧
      (∀ more, g'.rules = g.rules ++ more →
        parts <+: parts' ∧ p.rules <+: p'.rules ∧ p.actions <+: p'.actions) ∧
      (∀ before after rule rule', g.rules = before ++ rule :: after →
        g'.rules = before ++ rule' :: after → rule'.id = rule.id →
        ruleResult rule' types = ruleResult rule types →
        ∀ i ≠ before.length, parts[i]? = parts'[i]?) := by
  obtain ⟨parts, hp⟩ := parts_of_resolve h
  obtain ⟨parts', hp'⟩ := parts_of_resolve h'
  refine ⟨parts, parts', hp, hp', ?_, ?_, ?_⟩
  · intro i j rule hi hj hsame
    exact part_eq_of_same h h' hp hp' hi hj hsame
  · intro more hmore
    have hfront : parts <+: parts' := parts_append h h' hp hp' hmore
    refine ⟨hfront, ?_, ?_⟩
    · rw [hp.rules, hp'.rules]
      exact hfront.map _
    · obtain ⟨new, rfl⟩ := hfront
      rw [hp.actions, hp'.actions, List.flatMap_append]
      exact List.prefix_append _ _
  · intro before after rule rule' hrules hrules' hid htype i hi
    exact parts_edit h h' hp hp' hrules hrules' hid htype hi

end

/-- A rule behind those of `coded` whose id differs from another only in case. -/
def extended : Grammar where
  rules := coded.rules ++ [⟨"a", false, [⟨[.item false none ⟨.ruleRef "S", .one⟩,
    .check false (.predicate ⟨[], "", "res = done()"⟩)], none⟩]⟩]

def extendedParser : Resolved.Parser where
  rules := codedParser.rules ++ [⟨"a", "peg_a_1", false, .text, ⟨[
    ⟨[⟨.call ⟨"S", "peg_s", .text⟩, none⟩, ⟨.predicate false ⟨"pred_a_1_0", []⟩, none⟩],
      .consumed, .text⟩], some "res"⟩⟩]
  actions := codedParser.actions ++
    [⟨.predicate, "pred_a_1_0", [], .declared "logical", "res = done()"⟩]

/-- Another body for the last rule of `coded`. -/
def recoded : Grammar where
  rules := coded.rules.take 1 ++ [⟨"A", false, [
    ⟨[.check true (.predicate ⟨[], "", "res = done()"⟩), .item false none ⟨.ruleRef "S", .one⟩],
      some "res = 'b'"⟩]⟩]

def recodedParser : Resolved.Parser where
  rules := codedParser.rules.take 1 ++ [⟨"A", "peg_a", false, .text, ⟨[
    ⟨[⟨.predicate true ⟨"pred_a_0", []⟩, none⟩, ⟨.call ⟨"S", "peg_s", .text⟩, none⟩],
      .action ⟨"action_a_0", []⟩, .text⟩], some "res"⟩⟩]
  actions := codedParser.actions.take 5 ++
    [⟨.predicate, "pred_a_0", [], .declared "logical", "res = done()"⟩,
      ⟨.action, "action_a_0", [], .text, "res = 'b'"⟩]

theorem coded_local :
    (resolve coded {} = .ok codedParser ∧ resolve extended {} = .ok extendedParser ∧
      resolve recoded {} = .ok recodedParser) ∧
    (codedParser.rules <+: extendedParser.rules ∧
      codedParser.actions <+: extendedParser.actions) ∧
    codedParser.rules[0]? = recodedParser.rules[0]? := by
  have h : resolve coded {} = .ok codedParser := by cbv
  have hextended : resolve extended {} = .ok extendedParser := by cbv
  have hrecoded : resolve recoded {} = .ok recodedParser := by cbv
  refine ⟨⟨h, hextended, hrecoded⟩, ?_, ?_⟩
  · obtain ⟨_, _, -, -, -, happended, -⟩ := resolve_local h hextended
    exact (happended _ rfl).2
  · obtain ⟨parts, parts', hp, hp', -, -, hedited⟩ := resolve_local h hrecoded
    have hfirst : parts[0]? = parts'[0]? :=
      hedited (coded.rules.take 1) [] _ _ rfl rfl rfl (by decide) 0 (by decide)
    rw [hp.rules, hp'.rules, List.getElem?_map, List.getElem?_map, hfirst]

end PegCompiler.Resolution
