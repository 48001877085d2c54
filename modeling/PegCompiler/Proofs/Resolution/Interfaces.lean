import PegCompiler.Proofs.Resolution.Extracted
import PegCompiler.Proofs.Semantics.Bindings
import PegCompiler.Proofs.Validity.Checks
/-
  The parameters of the functions that are extracted. An action has the labels of its row
  as parameters, and a predicate those that the author names; either are checked one by
  one when they come up, so that in the end they are identifiers that differ from each
  other and from the name of the result. A row carries this for its labels (`Bound`).
-/

namespace PegCompiler.Resolution

open Grammar (Alternative Element)
open Resolved (isIdentifier resultVar sameName)
open Target (DistinctNames)

/-- Names of parameters: no two of them are the same, and none is that of the result. -/
structure ParamNames (names : List String) : Prop where
  identifiers : ∀ name ∈ names, isIdentifier name = true
  result : ∀ name ∈ names, sameName name resultVar = false
  distinct : DistinctNames names

theorem ParamNames.nil : ParamNames [] :=
  ⟨fun _ h => (nomatch h), fun _ h => (nomatch h), .nil⟩

/-- A label that passes its check can stand behind those before it. -/
theorem ParamNames.label {ctx : Context} {label : String}
    (h : ParamNames (ctx.labels.map fun b => b.label)) (hlabel : labelDefect ctx label = none) :
    ParamNames ((ctx.labels.map fun b => b.label) ++ [label]) := by
  obtain ⟨hident, hresult, hnew⟩ := labelDefect_eq_none.mp hlabel
  constructor
  · exact List.forall_mem_append.mpr ⟨h.identifiers, by simpa using hident⟩
  · exact List.forall_mem_append.mpr ⟨h.result, by simpa using hresult⟩
  · refine List.pairwise_append.mpr ⟨h.distinct, List.pairwise_singleton .., ?_⟩
    intro a ha b hb
    obtain rfl := List.mem_singleton.mp hb
    obtain ⟨binding, hbinding, rfl⟩ := List.mem_map.mp ha
    exact hnew binding hbinding

/-- So can the parameters of a predicate that is in order. -/
theorem ParamNames.predicate {p : Grammar.Predicate} (h : p.Sound) :
    ParamNames (p.params.map fun q => q.name) where
  identifiers := List.forall_mem_map.mpr fun q hq => (h.params q hq).1
  result := List.forall_mem_map.mpr fun q hq => (h.params q hq).2
  distinct := List.pairwise_map.mpr h.distinct

/-- All extracted functions have proper parameters. -/
def Checked (out : Emitted) : Prop :=
  ∀ a ∈ out.actions, ParamNames (a.params.map fun q => q.name)

section
variable {out out' : Emitted}

theorem Checked.add {a : Resolved.Action} (h : Checked out)
    (ha : ParamNames (a.params.map fun q => q.name)) (hout : out'.actions = out.actions ++ [a]) :
    Checked out' := by
  unfold Checked
  rw [hout]
  exact List.forall_mem_append.mpr ⟨h, by simpa using ha⟩

theorem Checked.ruleCall {env : Env} {ctx : Context} {target : String} {call : Resolved.RuleCall}
    (h : Checked out) (hcall : Yields (ruleCall env ctx target) out call out') : Checked out' := by
  obtain ⟨_, -, -, rfl⟩ | ⟨-, -, rfl⟩ := of_ruleCall hcall <;> exact h

theorem Checked.predicate {ctx : Context} {p : Grammar.Predicate} {call : Resolved.ActionCall}
    (h : Checked out) (hp : Yields (resolvePredicate ctx p) out call out') : Checked out' := by
  obtain ⟨-, hsound, -⟩ := resolvePredicate_succeeds.mp ⟨call, out', hp⟩
  obtain ⟨sourced, hparams, -, -, rfl⟩ := of_resolvePredicate hp
  have hnames := ParamNames.predicate hsound
  rw [← hparams, List.map_map] at hnames
  refine h.add (a := predicateAction call.function sourced p.code) ?_ rfl
  simpa [predicateAction, Sourced.param, Function.comp_def] using hnames

theorem Checked.rowValue {env : Env} {ctx : Context} {row : Row} {action : Option String}
    {result : Resolved.AltResult} {type : Resolved.ValueType} (h : Checked out)
    (hlabels : ParamNames (row.labels.map fun b => b.label))
    (hvalue : Yields (rowValue env ctx row action) out (result, type) out') : Checked out' := by
  cases action with
  | none =>
    obtain ⟨rfl, -⟩ := of_rowValue_none hvalue
    exact h
  | some code =>
    obtain ⟨-, -, -, rfl⟩ := of_rowValue_some hvalue
    refine h.add (a := rowAction env ctx row.labels code) ?_ rfl
    simpa [rowAction, Function.comp_def] using hlabels

end

/-- The label of an element passes the check. -/
def LabelChecked (ctx : Context) (e : ResolvedElement) : Prop :=
  ∀ label, e.label = some label → labelDefect ctx label = none

theorem labelChecked_keptIf {keep plucked : Bool} {ctx : Context} {label rule : Option String}
    {m : Resolved.Matcher} {type : Resolved.ValueType} {source : Resolved.CaptureSource}
    (h : ∀ l, label = some l → labelDefect ctx l = none) :
    LabelChecked ctx (keptIf keep ctx plucked label rule m type source) := by
  cases keep with
  | true => exact h
  | false => exact fun _ hlabel => nomatch hlabel

/-- Extracted functions stay proper, and so do the labels of a row. -/
def checking : Relations where
  alternatives _ _ out _ _ out' := Checked out → Checked out'
  alternative _ out _ _ out' := Checked out → Checked out'
  elements _ _ row out _ _ row' out' := ParamNames (row.labels.map fun b => b.label) →
    ParamNames (row'.labels.map fun b => b.label) ∧ (Checked out → Checked out')
  element ctx out _ e out' := LabelChecked ctx e ∧ (Checked out → Checked out')
  quantified _ out _ _ out' := Checked out → Checked out'
  expr _ out _ _ out' := Checked out → Checked out'

theorem paramNames_add {ctx : Context} {row : Row} {e : ResolvedElement}
    (h : ParamNames (row.labels.map fun b => b.label)) (hlabels : ctx.labels = row.labels)
    (he : LabelChecked ctx e) : ParamNames ((row.add e).labels.map fun b => b.label) := by
  unfold Row.add
  split
  next => exact h
  next capture _ =>
    cases hlabel : e.label with
    | none => simpa using h
    | some label =>
      rw [← hlabels] at h ⊢
      simpa using h.label (he label hlabel)

theorem checking_closed (env : Env) : checking.Closed env where
  noAlternatives := id
  moreAlternatives ha hrest hout := hrest (ha hout)
  row {ctx out elements action es row mid result type out'} hes hvalue hout := by
    obtain ⟨hlabels, hmid⟩ := hes .nil
    exact (hmid hout).rowValue hlabels hvalue
  noElements hrow := ⟨hrow, id⟩
  moreElements {ctx position row out e rest r rs row' mid out'} he hrest hrow := by
    obtain ⟨hlabel, hmid⟩ := he
    obtain ⟨hrow', hout⟩ := hrest (paramNames_add hrow rfl hlabel)
    exact ⟨hrow', hout ∘ hmid⟩
  predicate h := ⟨fun _ hlabel => (nomatch hlabel), fun hout => hout.predicate h⟩
  lookahead h := ⟨fun _ hlabel => (nomatch hlabel), h⟩
  reference hlabel hcall := ⟨labelChecked_keptIf hlabel, fun hout => hout.ruleCall hcall⟩
  group hlabel _ h _ := ⟨labelChecked_keptIf hlabel, h⟩
  item hlabel _ h := ⟨labelChecked_keptIf hlabel, h⟩
  once h := h
  repeated h _ := h
  separated h _ hs := hs ∘ h
  literal := id
  charClass _ := id
  ruleRef hcall hout := hout.ruleCall hcall
  anyChar := id
  endOfInput := id
  nested _ h := h

theorem Checked.rules {env : Env} : ∀ {rules : List Grammar.Rule} {rs : List Resolved.Rule}
    {out out' : Emitted}, Yields (rules.mapM (resolveRule env)) out rs out' → Checked out →
    Checked out'
  | [], _, _, _, h, hout => by
    obtain ⟨-, rfl⟩ := Yields.mapM_nil_iff.mp h
    exact hout
  | _ :: _, _, _, _, h, hout => by
    obtain ⟨_, _, hr, _, hrest, -⟩ := Yields.mapM_cons_iff.mp h
    obtain ⟨-, _, hrs, -⟩ := of_resolveRule hr
    exact Checked.rules hrest ((checking_closed env).alternatives _ hrs hout)

/-- The parameters of every extracted function are identifiers that differ from each other
and from the name of the result. -/
theorem paramNames_of_resolve {g : Grammar} {types : ActionTypes} {p : Resolved.Parser}
    (h : resolve g types = .ok p) : ∀ a ∈ p.actions, ParamNames (a.params.map fun q => q.name) := by
  obtain ⟨-, out, hrules, -, hactions⟩ := of_resolve h
  rw [hactions]
  exact Checked.rules hrules fun _ ha => nomatch ha

end PegCompiler.Resolution
