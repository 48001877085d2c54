import PegCompiler.Proofs.Resolution.Rows
import PegCompiler.Proofs.Validity.Nodes
/-
  The checks of resolution beside the conditions on nodes. Each check passes exactly
  when its node is in order; for labels and predicates this needs to know what the row
  has bound so far, and that is the only place where the two sides look at different
  things.
-/

namespace PegCompiler.Resolution

open Grammar (ClassItem Element Predicate PredicateParam Quantifier)
open Resolved (ValueType isIdentifier resultVar sameName)

/-! ## Labels -/

theorem lookupLabel_eq_none {ctx : Context} {label : String} :
    ctx.lookupLabel label = none ↔ ∀ b ∈ ctx.labels, sameName b.label label = false := by
  simp [Context.lookupLabel]

theorem labelDefect_eq_none {ctx : Context} {label : String} :
    labelDefect ctx label = none ↔ isIdentifier label = true ∧
      sameName label resultVar = false ∧ ∀ b ∈ ctx.labels, sameName b.label label = false := by
  rw [← lookupLabel_eq_none, labelDefect]
  cases isIdentifier label with
  | false => simp
  | true =>
    cases sameName label resultVar with
    | true => simp
    | false => cases ctx.lookupLabel label <;> simp

/-! ## Classes and quantifiers -/

theorem itemDefect_eq_none (item : ClassItem) : itemDefect item = none ↔ item.Sound := by
  cases item with
  | char c => simp [itemDefect, ClassItem.Sound, isAscii]
  | range bottom top =>
    unfold itemDefect ClassItem.Sound isAscii
    by_cases hbottom : bottom.toNat < 128
    · by_cases htop : top.toNat < 128
      · simp [hbottom, htop]
      · simp [htop]
    · simp [hbottom]

theorem classDefect_eq_none (items : List ClassItem) :
    classDefect items = none ↔ items ≠ [] ∧ ∀ item ∈ items, item.Sound := by
  cases items with
  | nil => simp [classDefect]
  | cons item rest =>
    rw [classDefect, List.findSome?_eq_none_iff]
    · simp only [itemDefect_eq_none, ne_eq, reduceCtorEq, not_false_eq_true, true_and]
    · simp

theorem rangeDefect_eq_none (min max : Option UInt32) :
    rangeDefect min max = none ↔ (Quantifier.range min max).Sound := by
  unfold Quantifier.Sound
  cases max with
  | none => cases min <;> simp [rangeDefect]
  | some hi =>
    by_cases hzero : hi = 0
    · cases min <;> simp [rangeDefect, hzero]
    · cases min with
      | none => simp [rangeDefect, hzero]
      | some lo => simp [rangeDefect, hzero]

/-! ## Predicates -/

/-- A source has a binding when a label or a rule of that name was bound. -/
theorem isSome_sourceBinding {ctx : Context} {source : String} :
    (sourceBinding ctx source).isSome ↔
      (∃ b ∈ ctx.labels, sameName b.label source = true) ∨
        ∃ b ∈ ctx.ruleValues, b.label = source := by
  simp [sourceBinding, Context.lookupLabel, Context.lookupRuleValue]

/-- Parameters are accepted behind others exactly when their names are usable, differ
from each other and from those before them, and their sources have bindings. -/
theorem predicateParams_succeeds (ctx : Context) (out : Emitted) :
    ∀ (ps : List PredicateParam) (params : List Resolved.Param) (args : List String),
    Succeeds (predicateParams ctx params args ps) out ↔
      (∀ p ∈ ps, isIdentifier p.name = true ∧ sameName p.name resultVar = false) ∧
      (∀ p ∈ ps, ∀ q ∈ params, sameName q.name p.name = false) ∧
      ps.Pairwise (fun p q => sameName p.name q.name = false) ∧
      ∀ p ∈ ps, (sourceBinding ctx p.source).isSome
  | [], params, args => by
    have hnil : Succeeds (predicateParams ctx params args []) out := .pure _
    simp [hnil]
  | p :: ps, params, args => by
    unfold Succeeds predicateParams refuse
    split
    next h =>
      simp only [Yields.throw_iff, exists_false, List.forall_mem_cons, false_iff]
      rintro ⟨⟨⟨hident, hres⟩, -⟩, -⟩
      simp [hident, hres] at h
    next hname =>
      have hp : isIdentifier p.name = true ∧ sameName p.name resultVar = false := by
        simpa using hname
      split
      next h =>
        simp only [Yields.throw_iff, exists_false, List.forall_mem_cons, false_iff]
        rintro ⟨-, ⟨hnew, -⟩, -⟩
        obtain ⟨q, hq, hsame⟩ := List.any_eq_true.mp h
        rw [hnew q hq] at hsame
        cases hsame
      next hrepeated =>
        have hnew : ∀ q ∈ params, sameName q.name p.name = false := by simpa using hrepeated
        split
        next hsource => simp [hsource]
        next binding hbinding =>
          show Succeeds (predicateParams ctx _ _ ps) out ↔ _
          rw [predicateParams_succeeds ctx out ps]
          simp only [List.forall_mem_cons, List.pairwise_cons, List.forall_mem_append, hbinding,
            Option.isSome_some, hp, true_and]
          constructor
          · rintro ⟨hnames, hold, hdistinct, hsources⟩
            exact ⟨hnames, ⟨hnew, fun q hq => (hold q hq).1⟩,
              ⟨fun q hq => (hold q hq).2.1, hdistinct⟩, hsources⟩
          · rintro ⟨hnames, ⟨-, hold⟩, ⟨hfirst, hdistinct⟩, hsources⟩
            exact ⟨hnames, fun q hq => ⟨hold q hq, hfirst q hq, by simp⟩, hdistinct, hsources⟩

/-- A predicate is extracted exactly when it is in order, stands outside of separators,
and its sources have bindings. -/
theorem resolvePredicate_succeeds {ctx : Context} {p : Predicate} {out : Emitted} :
    Succeeds (resolvePredicate ctx p) out ↔
      ctx.separator = false ∧ p.Sound ∧
        ∀ q ∈ p.params, (sourceBinding ctx q.source).isSome := by
  have hparams := predicateParams_succeeds ctx out p.params [] []
  unfold Succeeds resolvePredicate refuse
  dsimp only
  split
  next hsep => simp [hsep]
  next hsep =>
    split
    next htype =>
      simp only [Yields.bind_iff, Yields.throw_iff, false_and, exists_false, false_iff]
      rintro ⟨-, ⟨hreturns, -, -⟩, -⟩
      rcases hreturns with hblank | hlogical
      · simp [hblank] at htype
      · simp [hlogical] at htype
    next htype =>
      have hreturns : Text.trimmed p.returnType = "" ∨
          sameName (Text.trimmed p.returnType) "logical" = true := by
        by_cases hblank : Text.trimmed p.returnType = ""
        · exact .inl hblank
        · exact .inr (by simpa [hblank] using htype)
      constructor
      · rintro ⟨call, out', h⟩
        simp only [Yields.bind_iff, Yields.pure_iff, Yields.modifyGet_iff, Yields.modify_iff] at h
        obtain ⟨⟨params, args⟩, mid, hrun, -⟩ := h
        obtain ⟨hnames, -, hdistinct, hsources⟩ := hparams.mp ⟨_, _, hrun⟩
        exact ⟨by simpa using hsep, ⟨hreturns, hnames, hdistinct⟩, hsources⟩
      · rintro ⟨-, ⟨-, hnames, hdistinct⟩, hsources⟩
        obtain ⟨⟨params, args⟩, mid, hrun⟩ :=
          hparams.mpr ⟨hnames, by simp, hdistinct, hsources⟩
        simp only [Yields.bind_iff, Yields.pure_iff, Yields.modifyGet_iff, Yields.modify_iff]
        exact ⟨_, _, (params, args), mid, hrun, _, _, rfl, ⟨⟩, _, rfl, rfl, rfl⟩

end PegCompiler.Resolution
