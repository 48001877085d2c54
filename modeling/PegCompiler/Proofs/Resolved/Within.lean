import PegCompiler.Proofs.Semantics.Resolved
/-
  Matches stay within the input: one that starts there stops there, and never in front
  of where it started.
-/

namespace PegCompiler.Resolved

open Semantics (Host Outcome checked consumed nothing repetition stopChar stopEnd stopText turn turnLimit turns)

section
variable {V : Type}

/-- A place where something stops is within the input and not in front of its
start. -/
def StopsWithin (input : List Char) (pos : Nat) (stop : Option Nat) : Prop :=
  ∀ q, stop = some q → pos ≤ q ∧ q ≤ input.length

/-- A match stops within the input. -/
def Within (input : List Char) (pos : Nat) (x : Option (Outcome V)) : Prop :=
  ∀ q v, x = some (.matched q v) → pos ≤ q ∧ q ≤ input.length

variable {input : List Char} {pos : Nat}

theorem stopsWithin_text (text : List Char) (h : pos ≤ input.length) :
    StopsWithin input pos (stopText input text pos) := by
  intro q hq
  unfold stopText at hq
  split at hq
  next hprefix =>
    have hlen := (List.isPrefixOf_iff_prefix.mp hprefix).length_le
    rw [List.length_drop] at hlen
    cases hq
    omega
  next => cases hq

theorem stopsWithin_char (kind : Char → Bool) :
    StopsWithin input pos (stopChar input kind pos) := by
  intro q hq
  unfold stopChar at hq
  split at hq
  next c hc =>
    have hpos := (List.getElem?_eq_some_iff.mp hc).1
    split at hq
    · cases hq
      omega
    · cases hq
  next => cases hq

theorem stopsWithin_end (h : pos ≤ input.length) : StopsWithin input pos (stopEnd input pos) := by
  intro q hq
  unfold stopEnd at hq
  split at hq
  · cases hq
    omega
  · cases hq

theorem within_consumed {H : Host V} {stop : Option Nat} (h : StopsWithin input pos stop) :
    Within input pos (some (consumed H input pos stop)) := by
  intro q v hq
  cases stop with
  | none => simp [consumed] at hq
  | some stop =>
    simp only [consumed, Option.some.injEq, Outcome.matched.injEq] at hq
    exact h q (congrArg some hq.1)

theorem within_checked {H : Host V} {ok : Bool} (h : pos ≤ input.length) :
    Within input pos (some (checked H input pos ok)) := by
  refine within_consumed fun q hq => ?_
  cases ok with
  | false => cases hq
  | true =>
    obtain rfl := Option.some.inj hq
    exact ⟨Nat.le_refl _, h⟩

theorem Within.stop {x : Option (Outcome V)} (h : Within input pos x) {stop : Option Nat}
    (hx : x.map Outcome.stop? = some stop) : StopsWithin input pos stop := by
  obtain ⟨o, rfl, rfl⟩ := Option.map_eq_some_iff.mp hx
  intro q hq
  cases o with
  | failed => cases hq
  | matched stop v => exact h q v (by rw [← Option.some.inj hq])

/-! ## Repetition -/

theorem within_turn {between : Nat → Option (Option Nat)} {body : Nat → Option (Outcome V)}
    (hbetween : ∀ q ≤ input.length, ∀ stop, between q = some stop → StopsWithin input q stop)
    (hbody : ∀ q ≤ input.length, Within input q (body q)) {first : Bool} {stop : Option Nat}
    (hpos : pos ≤ input.length) (h : turn between body first pos = some stop) :
    StopsWithin input pos stop := by
  unfold turn at h
  simp only [Option.bind_eq_bind, Option.bind_eq_some_iff] at h
  obtain ⟨middle, hmiddle, h⟩ := h
  cases middle with
  | none =>
    obtain rfl := Option.some.inj h
    rintro _ ⟨⟩
  | some r =>
    have hr : pos ≤ r ∧ r ≤ input.length := by
      split at hmiddle
      · cases hmiddle
        exact ⟨Nat.le_refl _, hpos⟩
      · exact hbetween pos hpos _ hmiddle r rfl
    intro q hq
    have := (hbody r hr.2).stop h q hq
    omega

theorem within_turns {bounded : Bool} {one : Bool → Nat → Option (Option Nat)}
    (hone : ∀ first, ∀ q ≤ input.length, ∀ stop, one first q = some stop →
      StopsWithin input q stop) : ∀ {left count pos count' stop : Nat}, pos ≤ input.length →
    turns bounded one left count pos = some (count', stop) → pos ≤ stop ∧ stop ≤ input.length
  | 0, _, _, _, _, hpos, h => by
    obtain ⟨-, rfl⟩ := Prod.mk.inj (Option.some.inj h)
    exact ⟨Nat.le_refl _, hpos⟩
  | left + 1, count, pos, count', stop, hpos, h => by
    rw [turns] at h
    simp only [Option.bind_eq_bind, Option.bind_eq_some_iff] at h
    obtain ⟨result, hresult, h⟩ := h
    have hwithin := hone _ pos hpos result hresult
    cases result with
    | none =>
      obtain ⟨-, rfl⟩ := Prod.mk.inj (Option.some.inj h)
      exact ⟨Nat.le_refl _, hpos⟩
    | some q =>
      have hq := hwithin q rfl
      dsimp only at h
      split at h
      · obtain ⟨-, rfl⟩ := Prod.mk.inj (Option.some.inj h)
        exact hq
      · have := within_turns hone hq.2 h
        omega

theorem within_repetition {H : Host V} {min : Int} {max : Option Int}
    {between : Nat → Option (Option Nat)} {body : Nat → Option (Outcome V)}
    (hbetween : ∀ q ≤ input.length, ∀ stop, between q = some stop → StopsWithin input q stop)
    (hbody : ∀ q ≤ input.length, Within input q (body q)) (hpos : pos ≤ input.length) :
    Within input pos (repetition H input min max between body pos) := by
  intro q v h
  unfold repetition at h
  simp only [Option.bind_eq_bind, Option.bind_eq_some_iff] at h
  obtain ⟨⟨count, stop⟩, hturns, h⟩ := h
  have hstop := within_turns (fun _ _ hq _ => within_turn hbetween hbody hq) hpos hturns
  have hconsumed : StopsWithin input pos (if (count : Int) < min then none else some stop) := by
    intro r hr
    split at hr
    · cases hr
    · obtain rfl := Option.some.inj hr
      exact hstop
  exact within_consumed hconsumed q v h

/-- Turns end when each of them does. -/
theorem turns_isSome {bounded : Bool} {one : Bool → Nat → Option (Option Nat)}
    (hone : ∀ first q, pos ≤ q → q ≤ input.length → (one first q).isSome)
    (hwithin : ∀ first, ∀ q ≤ input.length, ∀ stop, one first q = some stop →
      StopsWithin input q stop) : ∀ {left count q : Nat}, pos ≤ q → q ≤ input.length →
    (turns bounded one left count q).isSome
  | 0, _, _, _, _ => rfl
  | left + 1, count, q, hq, hlen => by
    obtain ⟨stop, hstop⟩ := Option.isSome_iff_exists.mp (hone (count == 0) q hq hlen)
    rw [turns, hstop, Option.bind_eq_bind, Option.bind_some]
    cases stop with
    | none => rfl
    | some stop =>
      have hrange := hwithin _ q hlen _ hstop stop rfl
      dsimp only
      split
      · rfl
      · exact turns_isSome hone hwithin (by omega) hrange.2

/-- A repetition ends when its body and what stands in between end, from its own place
on. -/
theorem repetition_isSome {H : Host V} {min : Int} {max : Option Int}
    {between : Nat → Option (Option Nat)} {body : Nat → Option (Outcome V)}
    (hbetween : ∀ q ≤ input.length, ∀ stop, between q = some stop → StopsWithin input q stop)
    (hbody : ∀ q ≤ input.length, Within input q (body q)) (hpos : pos ≤ input.length)
    (hends : ∀ q, pos ≤ q → q ≤ input.length → (between q).isSome ∧ (body q).isSome) :
    (repetition H input min max between body pos).isSome := by
  have hone : ∀ first q, pos ≤ q → q ≤ input.length → (turn between body first q).isSome := by
    intro first q hq hlen
    -- the first turn has no separator in front of it
    have hmiddle : ∃ middle, (if first then some (some q) else between q) = some middle ∧
        StopsWithin input q middle := by
      cases first with
      | true => exact ⟨some q, rfl, fun r hr => by cases hr; exact ⟨Nat.le_refl _, hlen⟩⟩
      | false =>
        obtain ⟨middle, hmiddle⟩ := Option.isSome_iff_exists.mp (hends q hq hlen).1
        exact ⟨middle, hmiddle, hbetween q hlen middle hmiddle⟩
    obtain ⟨middle, hmiddle, hrange⟩ := hmiddle
    unfold turn
    rw [hmiddle, Option.bind_eq_bind, Option.bind_some]
    cases middle with
    | none => rfl
    | some r =>
      have hr := hrange r rfl
      dsimp only
      rw [Option.isSome_map]
      exact (hends r (by omega) hr.2).2
  have hturns : (turns max.isSome (turn between body) (turnLimit input pos max) 0 pos).isSome :=
    turns_isSome hone (fun _ _ hq _ => within_turn hbetween hbody hq) (Nat.le_refl pos) hpos
  obtain ⟨⟨count, stop⟩, hturns⟩ := Option.isSome_iff_exists.mp hturns
  unfold repetition
  rw [hturns]
  rfl

/-! ## Matchers -/

variable {M : Machine V}

/-- Calls of rules stay within the input. -/
def CallsWithin (M : Machine V) : Prop :=
  ∀ id, ∀ pos ≤ M.input.length, Within M.input pos (M.call id pos)

mutual

theorem Matcher.within (hM : CallsWithin M) (env : Captured V) : ∀ (m : Matcher) {pos : Nat},
    pos ≤ M.input.length → Within M.input pos (m.run M env pos)
  | .literal value, pos, h => by
    rw [Matcher.run]
    exact within_consumed (stopsWithin_text _ h)
  | .class tests, pos, _ => by
    rw [Matcher.run]
    exact within_consumed (stopsWithin_char _)
  | .anyChar, pos, _ => by
    rw [Matcher.run]
    exact within_consumed (stopsWithin_char _)
  | .endOfInput, pos, h => by
    rw [Matcher.run]
    exact within_consumed (stopsWithin_end h)
  | .call c, pos, h => by
    rw [Matcher.run]
    exact hM _ pos h
  | .choice c, pos, h => by
    rw [Matcher.run]
    exact Choice.within hM c h
  | .repeat body min max separator, pos, h => by
    rw [Matcher.run]
    exact within_repetition (fun q hq _ hstop => separator_within hM env separator hq hstop)
      (fun q hq => Matcher.within hM env body hq) h
  | .lookahead negated body, pos, h => by
    rw [Matcher.run]
    intro q v hq
    obtain ⟨_, _, hq⟩ := Option.map_eq_some_iff.mp hq
    exact within_checked h q v (congrArg some hq)
  | .predicate negated c, pos, h => by
    rw [Matcher.run]
    intro q v hq
    obtain ⟨_, _, hq⟩ := Option.map_eq_some_iff.mp hq
    exact within_checked h q v (congrArg some hq)

theorem separator_within (hM : CallsWithin M) (env : Captured V) :
    ∀ (separator : Option Matcher) {pos : Nat} {stop : Option Nat}, pos ≤ M.input.length →
      runSeparator M env separator pos = some stop → StopsWithin M.input pos stop
  | none, pos, stop, h, hstop => by
    rw [runSeparator] at hstop
    obtain rfl := Option.some.inj hstop
    intro q hq
    obtain rfl := Option.some.inj hq
    exact ⟨Nat.le_refl _, h⟩
  | some m, pos, stop, h, hstop => by
    rw [runSeparator] at hstop
    exact (Matcher.within hM env m h).stop hstop

theorem Choice.within (hM : CallsWithin M) : ∀ (c : Choice) {pos : Nat}, pos ≤ M.input.length →
    Within M.input pos (c.run M pos)
  | ⟨alternatives, _⟩, pos, h => by
    rw [Choice.run]
    exact alternatives_within hM alternatives h

theorem alternatives_within (hM : CallsWithin M) : ∀ (alternatives : List Alternative) {pos : Nat},
    pos ≤ M.input.length → Within M.input pos (runAlternatives M alternatives pos)
  | [], pos, _ => by
    rw [runAlternatives]
    exact fun _ _ hq => (nomatch hq)
  | a :: rest, pos, h => by
    rw [runAlternatives]
    have ha := Alternative.within hM a h
    rcases hrun : a.run M pos with _ | _ | ⟨stop, value⟩
    · exact fun _ _ hq => (nomatch hq)
    · exact alternatives_within hM rest h
    · exact fun q v hq => ha q v (hrun.trans hq)

theorem Alternative.within (hM : CallsWithin M) : ∀ (a : Alternative) {pos : Nat},
    pos ≤ M.input.length → Within M.input pos (a.run M pos)
  | ⟨elements, result, _⟩, pos, h => by
    rw [Alternative.run]
    intro q v hq
    simp only [Option.bind_eq_bind, Option.bind_eq_some_iff] at hq
    obtain ⟨row, hrow, hq⟩ := hq
    cases row with
    | none => cases hq
    | some row =>
      obtain ⟨_, _, hq⟩ := Option.map_eq_some_iff.mp hq
      obtain ⟨rfl, -⟩ := Outcome.matched.inj hq
      exact elements_within hM [] elements row h hrow

theorem elements_within (hM : CallsWithin M) (env : Captured V) : ∀ (elements : List Element)
    {pos : Nat} (row : Nat × Captured V), pos ≤ M.input.length →
      runElements M env elements pos = some (some row) → pos ≤ row.1 ∧ row.1 ≤ M.input.length
  | [], pos, row, h, hrow => by
    rw [runElements] at hrow
    obtain rfl := Option.some.inj (Option.some.inj hrow)
    exact ⟨Nat.le_refl _, h⟩
  | ⟨matcher, capture⟩ :: rest, pos, row, h, hrow => by
    rw [runElements] at hrow
    have hm := Matcher.within hM env matcher h
    rcases hrun : matcher.run M env pos with _ | _ | ⟨stop, value⟩
    · simp [hrun] at hrow
    · simp [hrun] at hrow
    · rw [hrun] at hrow
      have hstop := hm stop value hrun
      have := elements_within hM _ rest row hstop.2 hrow
      omega

end

end

/-- Calls stay within the input at every depth. -/
theorem Parser.call_within {V : Type} (p : Parser) (H : Host V) (input : List Char) :
    ∀ (depth : Nat) (id : String), ∀ pos ≤ input.length,
      Within input pos (p.call H input depth id pos)
  | 0, _, _, _ => fun _ _ h => (nomatch h)
  | depth + 1, id, pos, hpos => by
    intro q v h
    simp only [Parser.call, Option.bind_eq_bind, Option.bind_eq_some_iff] at h
    obtain ⟨rule, _, h⟩ := h
    obtain ⟨outcome, hrun, h⟩ := Option.map_eq_some_iff.mp h
    have hbody := Choice.within (M := p.machine H input depth)
      (fun id pos hpos => Parser.call_within p H input depth id pos hpos) rule.body hpos
    cases outcome with
    | failed => cases h
    | matched stop value =>
      unfold Rule.finish at h
      dsimp only at h
      split at h
      · cases h
      · obtain ⟨rfl, -⟩ := Outcome.matched.inj h
        exact hbody _ _ hrun

end PegCompiler.Resolved
