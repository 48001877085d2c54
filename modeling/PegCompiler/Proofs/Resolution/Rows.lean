import PegCompiler.Proofs.Resolution.Rules
/-
  What a rule call, a predicate and the value of a row leave behind when they are
  resolved: the call itself, and the function that is extracted for it. Each spec
  says all that the later proofs need, so none of them opens the computation again.
-/

namespace PegCompiler.Resolution

open Grammar (Predicate PredicateParam)
open Resolved (AltResult Param RuleCall ValueType actionFunction predicateFunction)

/-- A call of a rule of the table, or of one that is missing from it. -/
theorem of_ruleCall {env : Env} {ctx : Context} {target : String} {call : RuleCall}
    {out out' : Emitted} (h : Yields (ruleCall env ctx target) out call out') :
    (∃ info, env.rule target = some info ∧ call = ⟨target, info.function, info.resultType⟩ ∧
      out' = out) ∨
    (env.rule target = none ∧ call = ⟨target, "", .text⟩ ∧
      out' = (out.addNote (.unresolved target ctx.rule)).addUnresolved
        ⟨ctx.rule, ctx.ruleAlternative, target⟩) := by
  unfold ruleCall at h
  cases hinfo : env.rule target with
  | some info =>
    rw [hinfo] at h
    obtain ⟨rfl, rfl⟩ := Yields.pure_iff.mp h
    exact .inl ⟨info, rfl, rfl, rfl⟩
  | none =>
    rw [hinfo] at h
    simp only [note, Yields.bind_iff, Yields.modify_iff, Yields.pure_iff] at h
    obtain ⟨_, _, rfl, _, _, rfl, rfl, rfl⟩ := h
    exact .inr ⟨rfl, rfl, rfl⟩

/-! ## Predicates -/

/-- The parameter and the binding that it takes its value from. -/
abbrev Sourced := PredicateParam × Binding

/-- The parameter of the extracted function. -/
def Sourced.param (s : Sourced) : Param := ⟨s.1.name, s.2.type⟩

theorem of_predicateParams {ctx : Context} {out out' : Emitted} : ∀ {ps : List PredicateParam}
    {params params' : List Param} {args args' : List String},
    Yields (predicateParams ctx params args ps) out (params', args') out' → out = out' ∧
      ∃ sourced : List Sourced, sourced.map (fun s => s.1) = ps ∧
        (∀ s ∈ sourced, sourceBinding ctx s.1.source = some s.2) ∧
        params' = params ++ sourced.map Sourced.param ∧
        args' = args ++ sourced.map (fun s => s.2.var)
  | [], params, params', args, args', h => by
    unfold predicateParams at h
    simp only [Yields.pure_iff, Prod.mk.injEq] at h
    obtain ⟨⟨rfl, rfl⟩, rfl⟩ := h
    exact ⟨rfl, [], by simp⟩
  | q :: ps, params, params', args, args', h => by
    unfold predicateParams refuse at h
    split at h
    next => simp at h
    split at h
    next => simp at h
    split at h
    next => simp at h
    next b hb =>
      obtain ⟨rfl, sourced, rfl, hsourced, rfl, rfl⟩ := of_predicateParams h
      refine ⟨rfl, (q, b) :: sourced, rfl, ?_, by simp [Sourced.param], by simp⟩
      intro s hs
      rcases List.mem_cons.mp hs with rfl | hs
      · exact hb
      · exact hsourced s hs

/-- The function extracted for a predicate. -/
def predicateAction (function : String) (sourced : List Sourced) (code : String) :
    Resolved.Action :=
  ⟨.predicate, function, sourced.map Sourced.param, .declared "logical", code⟩

theorem of_resolvePredicate {ctx : Context} {p : Predicate} {call : Resolved.ActionCall}
    {out out' : Emitted} (h : Yields (resolvePredicate ctx p) out call out') :
    ∃ sourced : List Sourced, sourced.map (fun s => s.1) = p.params ∧
      (∀ s ∈ sourced, sourceBinding ctx s.1.source = some s.2) ∧
      call = ⟨predicateFunction ctx.base (out.predicateCount ctx.rule),
        sourced.map (fun s => s.2.var)⟩ ∧
      out' = (out.nextPredicate ctx.rule).2.addAction
        (predicateAction call.function sourced p.code) := by
  unfold resolvePredicate refuse at h
  dsimp only at h
  split at h
  next => simp at h
  split at h
  next => simp at h
  simp only [Yields.bind_iff, Yields.pure_iff, Yields.modifyGet_iff, Yields.modify_iff] at h
  obtain ⟨⟨params, args⟩, _, hparams, index, _, hnext, _, _, rfl, rfl, rfl⟩ := h
  obtain ⟨rfl, sourced, hps, hsourced, rfl, rfl⟩ := of_predicateParams hparams
  obtain ⟨rfl, rfl⟩ := Prod.mk.inj hnext
  exact ⟨sourced, hps, hsourced, rfl, rfl⟩

theorem predicateSources_cons (e : Grammar.Element) (rest : List Grammar.Element) :
    predicateSources (e :: rest) = predicateSources [e] ++ predicateSources rest := by
  simp [predicateSources]

/-! ## The value of a row -/

/-- The value of a row without an action, for the captures that it is made of. -/
inductive Joined : List (String × ValueType) → AltResult → ValueType → Prop
  | nothing : Joined [] .consumed .text
  | one {var : String} {type : ValueType} : Joined [(var, type)] (.capture var) type
  | several {cs : List (String × ValueType)} (two : 2 ≤ cs.length)
      (texts : ∀ c ∈ cs, c.2 = .text) : Joined cs (.concat (cs.map (fun c => c.1))) .text

theorem eq_text_of_isText {type : ValueType} (h : type.isText = true) : type = .text := by
  cases type with
  | text => rfl
  | declared name => cases h

theorem of_concatResult {ctx : Context} {cs : List (String × ValueType)} {result : AltResult}
    {type : ValueType} {out out' : Emitted}
    (h : Yields (concatResult ctx cs) out (result, type) out') :
    out = out' ∧ Joined cs result type := by
  unfold concatResult refuse at h
  split at h
  · simp only [Yields.pure_iff, Prod.mk.injEq] at h
    obtain ⟨⟨rfl, rfl⟩, rfl⟩ := h
    exact ⟨rfl, .nothing⟩
  · simp only [Yields.pure_iff, Prod.mk.injEq] at h
    obtain ⟨⟨rfl, rfl⟩, rfl⟩ := h
    exact ⟨rfl, .one⟩
  next hnil hone =>
    split at h
    next => simp at h
    next hfind =>
      simp only [Yields.pure_iff, Prod.mk.injEq] at h
      obtain ⟨⟨rfl, rfl⟩, rfl⟩ := h
      refine ⟨rfl, .several ?_ fun c hc => eq_text_of_isText ?_⟩
      · rcases cs with _ | ⟨⟨var, type⟩, _ | ⟨_, _⟩⟩
        · exact absurd rfl hnil
        · exact absurd rfl (hone var type)
        · simp
      · simpa using List.find?_eq_none.mp hfind c hc

/-- The captures that the value of a row without an action is made of. -/
def Row.valueCaptures (row : Row) : List (String × ValueType) :=
  if row.plucks.isEmpty then row.labels.map (fun b => (b.var, b.type)) else row.plucks

/-- The function extracted for an action. -/
def rowAction (env : Env) (ctx : Context) (labels : List Binding) (code : String) :
    Resolved.Action :=
  ⟨.action, actionFunction ctx.base ctx.alternative, labels.map (fun b => ⟨b.label, b.type⟩),
    Resolved.actionResult env.types ctx.rule ctx.alternative, code⟩

/-- The value of a row with an action, which only an alternative of a rule can
have. -/
theorem of_rowValue_some {env : Env} {ctx : Context} {row : Row} {code : String}
    {result : AltResult} {type : ValueType} {out out' : Emitted}
    (h : Yields (rowValue env ctx row (some code)) out (result, type) out') :
    ctx.path = [] ∧ type = (rowAction env ctx row.labels code).resultType ∧
      result = .action ⟨(rowAction env ctx row.labels code).function,
        row.labels.map (fun b => b.var)⟩ ∧
      out' = out.addAction (rowAction env ctx row.labels code) := by
  unfold rowValue actionValue refuse at h
  dsimp only at h
  split at h
  next => simp at h
  next hnested =>
    simp only [Yields.bind_iff, Yields.pure_iff, Yields.modify_iff, Prod.mk.injEq] at h
    obtain ⟨_, _, rfl, ⟨rfl, rfl⟩, rfl⟩ := h
    refine ⟨?_, rfl, rfl, rfl⟩
    simpa [Context.isNested] using hnested

theorem of_rowValue_none {env : Env} {ctx : Context} {row : Row} {result : AltResult}
    {type : ValueType} {out out' : Emitted}
    (h : Yields (rowValue env ctx row none) out (result, type) out') :
    out = out' ∧ Joined row.valueCaptures result type := by
  unfold rowValue at h
  unfold Row.valueCaptures
  simp only at h
  split at h
  next hempty =>
    rw [if_pos hempty]
    exact of_concatResult h
  next hempty =>
    rw [if_neg hempty]
    exact of_concatResult h

end PegCompiler.Resolution
