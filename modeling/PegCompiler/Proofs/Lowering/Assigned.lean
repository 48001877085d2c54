import PegCompiler.Proofs.Lowering.Refinement
import PegCompiler.Proofs.Semantics.Undefined
/-
  The variables of generated functions are set before they are read. Matching with a
  well-typed parser ends where the calls of rules do (`choice_ends`), and then so does
  the generated code, which answers as the parser does. A run that reads a variable
  without a value would not end, whatever its calls come to; and so there is none
  (`not_faults`), also where calls do not end.
-/

namespace PegCompiler.Lowering

open Resolved (ActionCall Alternative AltResult CallsWithin Capture Captured Choice Element Matcher
  Parser Rule alternativesTyped captures_cons elementsTyped runAlternatives runElements
  runSeparator separatorTyped)
open Semantics (Outcome repetition)
open Target (CallsExtend Function Machine Return)

section
variable {V : Type} {p : Parser} {M : Resolved.Machine V} {earlier captures : List Capture}
  {env : Captured V}

/-! ## Matching ends where calls do -/

/-- A machine has the extracted functions of a parser, and all its calls of rules end,
within the input. -/
structure Ending (p : Parser) (M : Resolved.Machine V) : Prop where
  actions : M.actions = p.actions
  within : CallsWithin M
  ends : ∀ id pos, (M.call id pos).isSome

theorem actionCall_ends (hM : Ending p M) {kind : Resolved.ActionKind} {type : Resolved.ValueType}
    {call : ActionCall} (h : call.Typed p kind captures type) (hcovers : Covers captures env) :
    (call.value M env).isSome := by
  obtain ⟨f, hf, -, -, hargs⟩ := h
  obtain ⟨name, args⟩ := call
  obtain ⟨vs, hvs⟩ := hcovers.args hargs
  obtain rfl : f.function = name := by simpa using hf.holds
  rw [Resolved.value_of_call (hM.actions.symm ▸ hf) hvs hargs.length_eq.symm]
  rfl

/-- A row whose elements have matched has a value. -/
theorem result_ends (hM : Ending p M) {type : Resolved.ValueType} {result : AltResult}
    (h : result.Typed p captures type) (hcovers : Covers captures env) (start stop : Nat) :
    (result.value M env start stop).isSome := by
  cases result with
  | consumed => rfl
  | capture var =>
    obtain ⟨v, hv⟩ := hcovers.holds h
    exact Option.isSome_iff_exists.mpr ⟨v, hv⟩
  | concat vars =>
    obtain ⟨-, -, hvars⟩ := h
    obtain ⟨vs, hvs⟩ := hcovers.values fun var hvar => ⟨_, hvars var hvar⟩
    unfold AltResult.value
    dsimp only
    rw [mapM_eq_some hvs]
    rfl
  | action call => exact actionCall_ends hM h hcovers

/-- A captured element adds its capture. -/
theorem Covers.kept (h : Covers earlier env) (start stop : Nat) (v : V) :
    ∀ (capture : Option Capture),
    Covers (earlier ++ capture.toList) (Resolved.Capture.keep M env start stop v capture)
  | none => by simpa [Resolved.Capture.keep] using h
  | some ⟨var, type, .value⟩ => h.keep ⟨var, type, .value⟩ v
  | some ⟨var, type, .text⟩ => h.keep ⟨var, type, .text⟩ _

mutual

theorem matcher_ends (hM : Ending p M) : ∀ (m : Matcher) {earlier : List Capture}
    {env : Captured V} {pos : Nat}, m.Typed p earlier → Covers earlier env →
    pos ≤ M.input.length → (m.run M env pos).isSome
  | .literal _, _, _, _, _, _, _ => by
    rw [Matcher.run]
    rfl
  | .class _, _, _, _, _, _, _ => by
    rw [Matcher.run]
    rfl
  | .anyChar, _, _, _, _, _, _ => by
    rw [Matcher.run]
    rfl
  | .endOfInput, _, _, _, _, _, _ => by
    rw [Matcher.run]
    rfl
  | .call call, _, _, pos, _, _, _ => by
    rw [Matcher.run]
    exact hM.ends call.rule pos
  | .choice c, _, _, _, h, _, hpos => by
    rw [Matcher.Typed] at h
    rw [Matcher.run]
    exact choice_ends hM c h hpos
  | .repeat body min max separator, _, env, pos, h, hcovers, hpos => by
    rw [Matcher.Typed] at h
    rw [Matcher.run]
    -- turns stay within the input, so that each has a place to end at
    apply Resolved.repetition_isSome
    · exact fun q hq stop hstop => Resolved.separator_within hM.within env separator hq hstop
    · exact fun q hq => body.within hM.within env hq
    · exact hpos
    · intro q _ hq
      exact ⟨separator_ends hM separator h.2 hcovers hq, matcher_ends hM body h.1 hcovers hq⟩
  | .lookahead negated body, _, _, _, h, hcovers, hpos => by
    rw [Matcher.Typed] at h
    rw [Matcher.run, Option.isSome_map]
    exact matcher_ends hM body h hcovers hpos
  | .predicate negated call, _, _, _, h, hcovers, _ => by
    rw [Matcher.Typed] at h
    rw [Matcher.run, Option.isSome_map]
    exact actionCall_ends hM h hcovers

theorem separator_ends (hM : Ending p M) : ∀ (separator : Option Matcher)
    {earlier : List Capture} {env : Captured V} {pos : Nat}, separatorTyped p earlier separator →
    Covers earlier env → pos ≤ M.input.length → (runSeparator M env separator pos).isSome
  | none, _, _, _, _, _, _ => by
    rw [runSeparator]
    rfl
  | some m, _, _, _, h, hcovers, hpos => by
    rw [separatorTyped] at h
    rw [runSeparator, Option.isSome_map]
    exact matcher_ends hM m h hcovers hpos

theorem choice_ends (hM : Ending p M) : ∀ (c : Choice) {pos : Nat}, c.Typed p →
    pos ≤ M.input.length → (c.run M pos).isSome
  | ⟨alternatives, _⟩, _, h, hpos => by
    rw [Choice.Typed] at h
    rw [Choice.run]
    exact alternatives_end hM alternatives h.1 hpos

theorem alternatives_end (hM : Ending p M) : ∀ (alternatives : List Alternative) {pos : Nat},
    alternativesTyped p alternatives → pos ≤ M.input.length →
    (runAlternatives M alternatives pos).isSome
  | [], _, _, _ => by
    rw [runAlternatives]
    rfl
  | a :: rest, pos, h, hpos => by
    rw [alternativesTyped] at h
    obtain ⟨outcome, hrun⟩ := Option.isSome_iff_exists.mp (alternative_ends hM a h.1 hpos)
    rw [runAlternatives, hrun]
    cases outcome with
    | failed => exact alternatives_end hM rest h.2 hpos
    | matched stop v => rfl

theorem alternative_ends (hM : Ending p M) : ∀ (a : Alternative) {pos : Nat}, a.Typed p →
    pos ≤ M.input.length → (a.run M pos).isSome
  | ⟨elements, result, type⟩, pos, h, hpos => by
    rw [Alternative.Typed] at h
    obtain ⟨row, hrow, hcovers⟩ := elements_end hM elements h.1 Covers.nil hpos
    rw [Alternative.run, hrow]
    cases row with
    | none => rfl
    | some row =>
      -- the value of the row is made of captures that the elements have set
      have hvalue := result_ends hM h.2.2 (hcovers row rfl) pos row.1
      show ((result.value M row.2 pos row.1).map _).isSome
      rwa [Option.isSome_map]

/-- Elements behind which all captures of the row have values. -/
theorem elements_end (hM : Ending p M) : ∀ (elements : List Element) {earlier : List Capture}
    {env : Captured V} {pos : Nat}, elementsTyped p earlier elements → Covers earlier env →
    pos ≤ M.input.length → ∃ row, runElements M env elements pos = some row ∧
      ∀ r, row = some r → Covers (earlier ++ elements.filterMap fun e => e.capture) r.2
  | [], _, env, pos, _, hcovers, _ => by
    refine ⟨some (pos, env), by rw [runElements], fun r hr => ?_⟩
    obtain rfl := Option.some.inj hr
    simpa using hcovers
  | ⟨m, capture⟩ :: rest, earlier, env, pos, h, hcovers, hpos => by
    rw [elementsTyped] at h
    obtain ⟨outcome, hrun⟩ := Option.isSome_iff_exists.mp (matcher_ends hM m h.1 hcovers hpos)
    rw [runElements, hrun]
    cases outcome with
    | failed => exact ⟨none, rfl, fun _ hr => (nomatch hr)⟩
    | matched stop v =>
      have hstop := m.within hM.within env hpos stop v hrun
      rw [captures_cons, ← List.append_assoc]
      exact elements_end hM rest h.2.2 (hcovers.kept pos stop v capture) hstop.2

end

end

section
variable {V : Type} {p : Parser} {T : Machine V} {calls : String → Nat → Option (Outcome V)}

/-! ## Calls that end -/

/-- Calls that fail where others do not end. -/
def endingCalls (calls : String → Nat → Option (Outcome V)) (id : String) (pos : Nat) :
    Option (Outcome V) :=
  some ((calls id pos).getD .failed)

/-- Calls of functions that return without a match where others do not end. -/
def endingReturns (call : String → Int → Option (Return V)) (name : String) (c : Int) :
    Option (Return V) :=
  some ((call name c).getD ⟨false, c, none⟩)

theorem endingReturns_extend : CallsExtend T (endingReturns T.call) := by
  intro name c r h
  unfold endingReturns
  rw [h, Option.getD_some]

theorem Answers.ending {pos : Nat} {x : Option (Outcome V)} {y : Option (Return V)}
    (h : Answers pos x y) :
    Answers pos (some (x.getD .failed)) (some (y.getD ⟨false, pos + 1, none⟩)) := by
  cases h with
  | unknown => exact .failed none
  | failed value => exact .failed value
  | matched stop value => exact .matched stop value

theorem Answers.isSome {pos : Nat} {x : Option (Outcome V)} {y : Option (Return V)}
    (h : Answers pos x y) (hx : x.isSome) : y.isSome := by
  cases h with
  | unknown => exact hx
  | failed value => rfl
  | matched stop value => rfl

theorem Linked.ending (hl : Linked p T calls) :
    Linked p (T.withCall (endingReturns T.call)) (endingCalls calls) where
  faithful := hl.faithful
  primitive := hl.primitive
  rule := hl.rule
  action := hl.action
  answers rule hrule pos hpos := (hl.answers rule hrule pos hpos).ending
  within id pos hpos q v h := by
    apply hl.within id pos hpos q v
    unfold endingCalls at h
    cases hcall : calls id pos with
    | none =>
      rw [hcall] at h
      cases h
    | some outcome =>
      rw [hcall] at h
      exact h

theorem ending_source (hl : Linked p T calls) :
    Ending p (source p (T.withCall (endingReturns T.call)) (endingCalls calls)) where
  actions := rfl
  within := hl.ending.within
  ends _ _ := rfl

/-! ## Rules -/

/-- The function of a rule reads no variable without a value. -/
theorem not_faults (hp : p.Typed) (hl : Linked p T calls) {rule : Rule} (hrule : rule.Typed p)
    {f : Function} (hf : lowerRule rule = .ok f) {pos : Nat} (hpos : pos ≤ T.input.length) :
    ¬ f.Faults T (pos + 1) := by
  intro hfaults
  -- with calls that end the function has no outcome, but the rule that it answers has one
  have hnone := Function.run_of_faults endingReturns_extend hfaults
  have hanswers := answers_rule hp hl.ending hrule hf hpos
  have hends := alternatives_end (ending_source hl) rule.body.alternatives hrule.rows hpos
  rw [hnone, Resolved.Choice.run_eq] at hanswers
  have hreturns := hanswers.isSome (by rwa [Option.isSome_map])
  cases hreturns

end

end PegCompiler.Lowering
