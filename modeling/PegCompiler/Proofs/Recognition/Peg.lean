import PegCompiler.Proofs.Semantics.Host
/-!
  Parsing expression grammars by themselves: no rows, no quantifiers, no values.
  An expression matches a piece of the input from a place on, or fails there; `Derives`
  says so by rules, and `Peg.call` computes it for calls nested to a depth. A repetition
  stops behind a match that consumed nothing.
-/

namespace PegCompiler

/-- A parsing expression. -/
inductive Peg where
  | empty
  | text (chars : List Char)
  /-- One character of a kind. -/
  | char (kind : Char → Bool)
  | ref (rule : String)
  | seq (first second : Peg)
  /-- The second only if the first fails. -/
  | choice (first second : Peg)
  | star (body : Peg)
  | not (body : Peg)

namespace Peg

open Semantics (stopChar stopText turns)

/-- Never matches. -/
def fail : Peg := .not .empty

/-- Matches at the end of the input. -/
def atEnd : Peg := .not (.char fun _ => true)

/-- Matches what the body matches, but consumes nothing. -/
def and (body : Peg) : Peg := .not (.not body)

/-- At least `min` and at most `max` matches. -/
def between (body : Peg) : (min max : Nat) → Peg
  | 0, 0 => .empty
  | 0, max + 1 => .choice (.seq body (between body 0 max)) .empty
  | _ + 1, 0 => fail
  | min + 1, max + 1 => .seq body (between body min max)

/-- What becomes of an expression at a place: it fails, or stops somewhere. -/
inductive Derives (rules : String → Option Peg) (input : List Char) :
    Peg → (pos : Nat) → Option Nat → Prop
  | empty {pos : Nat} : Derives rules input .empty pos (some pos)
  | text {chars : List Char} {pos : Nat} :
      Derives rules input (.text chars) pos (stopText input chars pos)
  | char {kind : Char → Bool} {pos : Nat} :
      Derives rules input (.char kind) pos (stopChar input kind pos)
  | ref {id : String} {e : Peg} {pos : Nat} {stop : Option Nat} (hrule : rules id = some e)
      (h : Derives rules input e pos stop) : Derives rules input (.ref id) pos stop
  | seqFail {e e' : Peg} {pos : Nat} (h : Derives rules input e pos none) :
      Derives rules input (.seq e e') pos none
  | seq {e e' : Peg} {pos middle : Nat} {stop : Option Nat}
      (h : Derives rules input e pos (some middle)) (h' : Derives rules input e' middle stop) :
      Derives rules input (.seq e e') pos stop
  | first {e e' : Peg} {pos stop : Nat} (h : Derives rules input e pos (some stop)) :
      Derives rules input (.choice e e') pos (some stop)
  | second {e e' : Peg} {pos : Nat} {stop : Option Nat} (h : Derives rules input e pos none)
      (h' : Derives rules input e' pos stop) : Derives rules input (.choice e e') pos stop
  | starEnd {e : Peg} {pos : Nat} (h : Derives rules input e pos none) :
      Derives rules input (.star e) pos (some pos)
  | starStop {e : Peg} {pos : Nat} (h : Derives rules input e pos (some pos)) :
      Derives rules input (.star e) pos (some pos)
  | starMore {e : Peg} {pos middle : Nat} {stop : Option Nat} (hne : middle ≠ pos)
      (h : Derives rules input e pos (some middle))
      (h' : Derives rules input (.star e) middle stop) : Derives rules input (.star e) pos stop
  | notFail {e : Peg} {pos stop : Nat} (h : Derives rules input e pos (some stop)) :
      Derives rules input (.not e) pos none
  | not {e : Peg} {pos : Nat} (h : Derives rules input e pos none) :
      Derives rules input (.not e) pos (some pos)

section
variable {rules : String → Option Peg} {input : List Char}

/-- An expression either fails at a place or stops at one other place. -/
theorem Derives.unique {e : Peg} {pos : Nat} {stop stop' : Option Nat}
    (h : Derives rules input e pos stop) (h' : Derives rules input e pos stop') : stop = stop' := by
  -- the second derivation starts with the same part, which decides its rule
  induction h generalizing stop' with
  | empty | text | char =>
    cases h'
    rfl
  | ref hrule _ ih =>
    cases h' with
    | ref hrule' h' =>
      obtain rfl := Option.some.inj (hrule.symm.trans hrule')
      exact ih h'
  | seqFail _ ih =>
    cases h' with
    | seqFail _ => rfl
    | seq h' _ => cases ih h'
  | seq _ _ ih ih₂ =>
    cases h' with
    | seqFail h' => cases ih h'
    | seq h' h'' =>
      obtain rfl := Option.some.inj (ih h')
      exact ih₂ h''
  | first _ ih =>
    cases h' with
    | first h' => exact ih h'
    | second h' _ => cases ih h'
  | second _ _ ih ih₂ =>
    cases h' with
    | first h' => cases ih h'
    | second _ h'' => exact ih₂ h''
  | starEnd _ ih =>
    cases h' with
    | starEnd _ | starStop _ => rfl
    | starMore _ h' _ => cases ih h'
  | starStop _ ih =>
    cases h' with
    | starEnd _ | starStop _ => rfl
    | starMore hne h' _ => exact absurd (Option.some.inj (ih h')).symm hne
  | starMore hne _ _ ih ih₂ =>
    cases h' with
    | starEnd h' => cases ih h'
    | starStop h' => exact absurd (Option.some.inj (ih h')) hne
    | starMore _ h' h'' =>
      obtain rfl := Option.some.inj (ih h')
      exact ih₂ h''
  | notFail _ ih =>
    cases h' with
    | notFail _ => rfl
    | not h' => cases ih h'
  | not _ ih =>
    cases h' with
    | notFail h' => cases ih h'
    | not _ => rfl

/-- Where something stops that starts at a place: not in front of it, and in the input if
it started there. -/
def StopsFrom (input : List Char) (pos : Nat) (stop : Option Nat) : Prop :=
  ∀ q, stop = some q → pos ≤ q ∧ q ≤ max pos input.length

theorem stopsFrom_text (chars : List Char) (pos : Nat) :
    StopsFrom input pos (stopText input chars pos) := by
  intro q hq
  unfold stopText at hq
  split at hq
  next hprefix =>
    have hlen := (List.isPrefixOf_iff_prefix.mp hprefix).length_le
    rw [List.length_drop] at hlen
    cases hq
    omega
  next => cases hq

theorem stopsFrom_char (kind : Char → Bool) (pos : Nat) :
    StopsFrom input pos (stopChar input kind pos) := by
  intro q hq
  unfold stopChar at hq
  split at hq
  next c hc =>
    have hpos := (List.getElem?_eq_some_iff.mp hc).1
    split at hq
    · cases hq
      omega
    · cases hq
  next => cases hq

theorem Derives.stopsFrom {e : Peg} {pos : Nat} {stop : Option Nat}
    (h : Derives rules input e pos stop) : StopsFrom input pos stop := by
  induction h with
  | text => exact stopsFrom_text _ _
  | char => exact stopsFrom_char _ _
  | ref _ _ ih | first _ ih | second _ _ _ ih => exact ih
  | seqFail | notFail => exact fun _ hq => (nomatch hq)
  | seq _ _ ih ih₂ | starMore _ _ _ ih ih₂ =>
    intro q hq
    have := ih _ rfl
    have := ih₂ q hq
    omega
  | empty | starEnd | starStop | not =>
    intro q hq
    obtain rfl := Option.some.inj hq
    exact ⟨Nat.le_refl _, Nat.le_max_left ..⟩

end

/-! ## Computing it -/

section
variable (input : List Char) (calls : String → Nat → Option (Option Nat))

/-- Matches at a place; there is no outcome where a call has none. -/
def run : Peg → Nat → Option (Option Nat)
  | .empty, pos => some (some pos)
  | .text chars, pos => some (stopText input chars pos)
  | .char kind, pos => some (stopChar input kind pos)
  | .ref id, pos => calls id pos
  | .seq e e', pos => do
    match ← e.run pos with
    | none => some none
    | some stop => e'.run stop
  | .choice e e', pos => do
    match ← e.run pos with
    | none => e'.run pos
    | some stop => some (some stop)
  | .star e, pos =>
    (turns false (fun _ => e.run) (input.length - pos + 1) 0 pos).map fun r => some r.2
  | .not e, pos => (e.run pos).map fun
    | none => some pos
    | some _ => none

end

section
variable {input : List Char} {calls : String → Nat → Option (Option Nat)}

theorem run_seq (e e' : Peg) (pos : Nat) : (Peg.seq e e').run input calls pos =
    (e.run input calls pos).bind fun
      | none => some none
      | some stop => e'.run input calls stop := by
  rw [run]
  rfl

theorem run_choice (e e' : Peg) (pos : Nat) : (Peg.choice e e').run input calls pos =
    (e.run input calls pos).bind fun
      | none => e'.run input calls pos
      | some stop => some (some stop) := by
  rw [run]
  rfl

end

/-- Calls a rule at a place, with calls nested as deep as `depth`. -/
def call (rules : String → Option Peg) (input : List Char) :
    (depth : Nat) → (rule : String) → (pos : Nat) → Option (Option Nat)
  | 0, _, _ => none
  | depth + 1, id, pos => do
    let e ← rules id
    e.run input (call rules input depth) pos

/-! ## Computed and derived outcomes are the same -/

/-- One turn more than there are characters left is enough. -/
theorem turns_enough {input : List Char} {one : Nat → Option (Option Nat)} :
    ∀ {left left' count count' pos : Nat},
      (∀ q, pos ≤ q → q ≤ max pos input.length → ∀ stop, one q = some stop →
        StopsFrom input q stop) →
      input.length - pos + 1 ≤ left → input.length - pos + 1 ≤ left' →
      (turns false (fun _ => one) left count pos).map (fun r => some r.2) =
        (turns false (fun _ => one) left' count' pos).map (fun r => some r.2)
  | left + 1, left' + 1, count, count', pos, hone, h, h' => by
    rw [turns, turns]
    cases hstop : one pos with
    | none => rfl
    | some stop =>
      cases stop with
      | none => rfl
      | some stop =>
        have hrange := hone pos (Nat.le_refl _) (Nat.le_max_left ..) _ hstop stop rfl
        show Option.map _ (if (!false && stop == pos) = true then _ else _) =
          Option.map _ (if (!false && stop == pos) = true then _ else _)
        by_cases hne : stop = pos
        · rw [if_pos (by simp [hne]), if_pos (by simp [hne])]
          rfl
        · rw [if_neg (by simp [hne]), if_neg (by simp [hne])]
          refine turns_enough (fun q hq hlen => hone q ?_ ?_) (by omega) (by omega)
          · omega
          · omega

theorem turns_mono {one one' : Nat → Option (Option Nat)}
    (h : ∀ pos stop, one pos = some stop → one' pos = some stop) :
    ∀ {left count pos : Nat} {r : Nat × Nat}, turns false (fun _ => one) left count pos = some r →
      turns false (fun _ => one') left count pos = some r
  | 0, _, _, _, hr => hr
  | left + 1, count, pos, r, hr => by
    rw [turns] at hr ⊢
    simp only [Option.bind_eq_bind, Option.bind_eq_some_iff] at hr
    obtain ⟨stop, hstop, hr⟩ := hr
    rw [h pos stop hstop, Option.bind_eq_bind, Option.bind_some]
    cases stop with
    | none => exact hr
    | some stop =>
      dsimp only at hr ⊢
      split at hr
      next hlast => rw [if_pos hlast]; exact hr
      next hmore => rw [if_neg hmore]; exact turns_mono h hr

section
variable {rules : String → Option Peg} {input : List Char}

/-- More calls that have an outcome change no outcome. -/
theorem run_mono {calls calls' : String → Nat → Option (Option Nat)}
    (h : ∀ id pos stop, calls id pos = some stop → calls' id pos = some stop) : ∀ (e : Peg)
    {pos : Nat} {stop : Option Nat}, e.run input calls pos = some stop →
      e.run input calls' pos = some stop
  | .empty, _, _, hrun => hrun
  | .text _, _, _, hrun => hrun
  | .char _, _, _, hrun => hrun
  | .ref id, pos, stop, hrun => h id pos stop hrun
  | .seq e e', pos, stop, hrun => by
    rw [run] at hrun ⊢
    simp only [Option.bind_eq_bind, Option.bind_eq_some_iff] at hrun
    obtain ⟨middle, hmiddle, hrun⟩ := hrun
    rw [run_mono h e hmiddle, Option.bind_eq_bind, Option.bind_some]
    cases middle with
    | none => exact hrun
    | some middle => exact run_mono h e' hrun
  | .choice e e', pos, stop, hrun => by
    rw [run] at hrun ⊢
    simp only [Option.bind_eq_bind, Option.bind_eq_some_iff] at hrun
    obtain ⟨first, hfirst, hrun⟩ := hrun
    rw [run_mono h e hfirst, Option.bind_eq_bind, Option.bind_some]
    cases first with
    | none => exact run_mono h e' hrun
    | some first => exact hrun
  | .star e, pos, stop, hrun => by
    rw [run] at hrun ⊢
    obtain ⟨r, hr, hstop⟩ := Option.map_eq_some_iff.mp hrun
    exact Option.map_eq_some_iff.mpr ⟨r, turns_mono (fun _ _ => run_mono h e) hr, hstop⟩
  | .not e, pos, stop, hrun => by
    rw [run] at hrun ⊢
    obtain ⟨o, ho, hstop⟩ := Option.map_eq_some_iff.mp hrun
    exact Option.map_eq_some_iff.mpr ⟨o, run_mono h e ho, hstop⟩

theorem call_mono : ∀ {depth depth' : Nat}, depth ≤ depth' → ∀ id pos stop,
    call rules input depth id pos = some stop → call rules input depth' id pos = some stop
  | depth + 1, depth' + 1, hle, id, pos, stop, h => by
    simp only [call, Option.bind_eq_bind, Option.bind_eq_some_iff] at h ⊢
    obtain ⟨e, he, h⟩ := h
    exact ⟨e, he, run_mono (call_mono (Nat.le_of_succ_le_succ hle)) e h⟩

/-- What is computed is derived, when it is for calls. -/
theorem derives_of_run {calls : String → Nat → Option (Option Nat)}
    (h : ∀ id pos stop, calls id pos = some stop → Derives rules input (.ref id) pos stop) :
    ∀ (e : Peg) {pos : Nat} {stop : Option Nat}, e.run input calls pos = some stop →
      Derives rules input e pos stop
  | .empty, _, _, hrun => by
    obtain rfl := Option.some.inj hrun
    exact .empty
  | .text _, _, _, hrun => by
    obtain rfl := Option.some.inj hrun
    exact .text
  | .char _, _, _, hrun => by
    obtain rfl := Option.some.inj hrun
    exact .char
  | .ref id, pos, stop, hrun => h id pos stop hrun
  | .seq e e', pos, stop, hrun => by
    rw [run] at hrun
    simp only [Option.bind_eq_bind, Option.bind_eq_some_iff] at hrun
    obtain ⟨middle, hmiddle, hrun⟩ := hrun
    have hfirst := derives_of_run h e hmiddle
    cases middle with
    | none =>
      obtain rfl := Option.some.inj hrun
      exact .seqFail hfirst
    | some middle =>
      exact .seq hfirst (derives_of_run h e' hrun)
  | .choice e e', pos, stop, hrun => by
    rw [run] at hrun
    simp only [Option.bind_eq_bind, Option.bind_eq_some_iff] at hrun
    obtain ⟨first, hfirst, hrun⟩ := hrun
    have hderives := derives_of_run h e hfirst
    cases first with
    | none => exact .second hderives (derives_of_run h e' hrun)
    | some first =>
      obtain rfl := Option.some.inj hrun
      exact .first hderives
  | .star e, pos, stop, hrun => by
    rw [run] at hrun
    obtain ⟨⟨count, last⟩, hturns, rfl⟩ := Option.map_eq_some_iff.mp hrun
    -- the turns that are left are never used up
    have hstar : ∀ {left count pos last : Nat}, input.length - pos + 1 ≤ left →
        ∀ {count' : Nat}, turns false (fun _ => e.run input calls) left count pos = some (count', last) →
        Derives rules input (.star e) pos (some last) := by
      intro left
      induction left with
      | zero => intro _ _ _ hleft; omega
      | succ left ih =>
        intro count pos last hleft count' hturns
        rw [turns] at hturns
        simp only [Option.bind_eq_bind, Option.bind_eq_some_iff] at hturns
        obtain ⟨stop, hstop, hturns⟩ := hturns
        have hbody := derives_of_run h e hstop
        cases stop with
        | none =>
          obtain ⟨-, rfl⟩ := Prod.mk.inj (Option.some.inj hturns)
          exact .starEnd hbody
        | some stop =>
          have hrange := hbody.stopsFrom stop rfl
          dsimp only at hturns
          split at hturns
          next hlast =>
            obtain ⟨-, rfl⟩ := Prod.mk.inj (Option.some.inj hturns)
            obtain rfl : stop = pos := by simpa using hlast
            exact .starStop hbody
          next hmore =>
            have hne : stop ≠ pos := by simpa using hmore
            exact .starMore hne hbody (ih (by omega) hturns)
    exact hstar (Nat.le_refl _) hturns
  | .not e, pos, stop, hrun => by
    rw [run] at hrun
    obtain ⟨o, ho, rfl⟩ := Option.map_eq_some_iff.mp hrun
    have hderives := derives_of_run h e ho
    cases o with
    | none => exact .not hderives
    | some _ => exact .notFail hderives

theorem derives_of_call : ∀ (depth : Nat) (id : String) (pos : Nat) (stop : Option Nat),
    call rules input depth id pos = some stop → Derives rules input (.ref id) pos stop
  | 0, _, _, _, h => nomatch h
  | depth + 1, id, pos, stop, h => by
    simp only [call, Option.bind_eq_bind, Option.bind_eq_some_iff] at h
    obtain ⟨e, he, h⟩ := h
    exact .ref he (derives_of_run (derives_of_call depth) e h)

/-- What is derived is computed, at some depth. -/
theorem Derives.run {e : Peg} {pos : Nat} {stop : Option Nat}
    (h : Derives rules input e pos stop) :
    ∃ depth, e.run input (call rules input depth) pos = some stop := by
  have hmono {e : Peg} {pos : Nat} {stop : Option Nat} {depth depth' : Nat} (hle : depth ≤ depth')
      (h : e.run input (call rules input depth) pos = some stop) :
      e.run input (call rules input depth') pos = some stop :=
    run_mono (call_mono hle) e h
  -- two parts may need different depths; the larger one does for both
  induction h with
  | empty => exact ⟨0, rfl⟩
  | text => exact ⟨0, rfl⟩
  | char => exact ⟨0, rfl⟩
  | @ref id e pos stop hrule _ ih =>
    obtain ⟨depth, hdepth⟩ := ih
    refine ⟨depth + 1, ?_⟩
    rw [Peg.run, call, hrule]
    exact hdepth
  | seqFail _ ih =>
    obtain ⟨depth, hdepth⟩ := ih
    refine ⟨depth, ?_⟩
    rw [Peg.run, hdepth]
    rfl
  | @seq e e' pos middle stop h h' ih ih₂ =>
    obtain ⟨depth, hdepth⟩ := ih
    obtain ⟨depth', hdepth'⟩ := ih₂
    refine ⟨max depth depth', ?_⟩
    rw [Peg.run, hmono (Nat.le_max_left ..) hdepth]
    exact hmono (Nat.le_max_right ..) hdepth'
  | first _ ih =>
    obtain ⟨depth, hdepth⟩ := ih
    refine ⟨depth, ?_⟩
    rw [Peg.run, hdepth]
    rfl
  | second _ _ ih ih₂ =>
    obtain ⟨depth, hdepth⟩ := ih
    obtain ⟨depth', hdepth'⟩ := ih₂
    refine ⟨max depth depth', ?_⟩
    rw [Peg.run, hmono (Nat.le_max_left ..) hdepth]
    exact hmono (Nat.le_max_right ..) hdepth'
  | starEnd _ ih =>
    obtain ⟨depth, hdepth⟩ := ih
    refine ⟨depth, ?_⟩
    rw [Peg.run, turns, hdepth]
    rfl
  | starStop _ ih =>
    obtain ⟨depth, hdepth⟩ := ih
    refine ⟨depth, ?_⟩
    rw [Peg.run, turns, hdepth]
    simp
  | @starMore e pos middle stop hne h h' ih ih₂ =>
    have hrange := h.stopsFrom middle rfl
    obtain ⟨depth, hdepth⟩ := ih
    obtain ⟨depth', hdepth'⟩ := ih₂
    refine ⟨max depth depth', ?_⟩
    have hrest := hmono (Nat.le_max_right depth depth') hdepth'
    rw [Peg.run, turns, hmono (Nat.le_max_left ..) hdepth]
    show Option.map _ (if (!false && middle == pos) = true then _ else _) = _
    rw [if_neg (by simp [hne])]
    have hone (q : Nat) (stop : Option Nat)
        (hstop : e.run input (call rules input (max depth depth')) q = some stop) :
        StopsFrom input q stop :=
      (derives_of_run (derives_of_call _) e hstop).stopsFrom
    -- the turns that are left after one reach as far as those from its end
    exact (turns_enough (fun q _ _ => hone q) (by omega) (Nat.le_refl _)).trans hrest
  | notFail _ ih =>
    obtain ⟨depth, hdepth⟩ := ih
    refine ⟨depth, ?_⟩
    rw [Peg.run, hdepth]
    rfl
  | not _ ih =>
    obtain ⟨depth, hdepth⟩ := ih
    refine ⟨depth, ?_⟩
    rw [Peg.run, hdepth]
    rfl

/-- A reference derives what calls of its rule come to. -/
theorem derives_ref_iff {id : String} {pos : Nat} {stop : Option Nat} :
    Derives rules input (.ref id) pos stop ↔ ∃ depth, call rules input depth id pos = some stop :=
  ⟨fun h => h.run, fun ⟨depth, h⟩ => derives_of_call depth id pos stop h⟩

end

end Peg

end PegCompiler
