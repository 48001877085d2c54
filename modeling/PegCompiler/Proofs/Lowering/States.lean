import PegCompiler.Proofs.Naming.Distinct
import PegCompiler.Proofs.Semantics.Target
/-
  The variables of a running function. Blocks declare captures only, so every other
  variable is one of the function's own. The variables that a construct keeps for
  itself have its number: what runs inside has higher numbers and leaves them alone
  (`Kept`).
-/

namespace PegCompiler.Lowering

open Naming (word)
open Target (Datum Frame State readBlocks writeBlocks)

/-- The names of all variables of a scope. -/
def Scope.names (s : Scope) : List String :=
  s.integers ++ s.logicals ++ s.others.map (fun v => v.1)

section
variable {V : Type}

/-! ## Blocks and locals -/

/-- The variables of blocks are captures. -/
def OnlyCaptures (blocks : List (Frame V)) : Prop :=
  ∀ f ∈ blocks, ∀ name, (f name).isSome → word name = "capture".toList

/-- A name that is neither that of a capture nor the cursor. -/
def Plain (name : String) : Prop :=
  word name ≠ "capture".toList ∧ name ≠ cursorVar

theorem readBlocks_plain {name : String} (hname : Plain name) : ∀ {blocks : List (Frame V)},
    OnlyCaptures blocks → readBlocks name blocks = none
  | [], _ => rfl
  | f :: rest, h => by
    have hf : f name = none := Option.not_isSome_iff_eq_none.mp fun hsome =>
      hname.1 (h f (by simp) name hsome)
    rw [readBlocks, hf]
    exact readBlocks_plain hname fun g hg => h g (by simp [hg])

theorem writeBlocks_plain {name : String} (hname : Plain name) (d : Option (Datum V)) :
    ∀ {blocks : List (Frame V)}, OnlyCaptures blocks → writeBlocks name d blocks = none
  | [], _ => rfl
  | f :: rest, h => by
    have hf : ¬ (f name).isSome := fun hsome => hname.1 (h f (by simp) name hsome)
    rw [writeBlocks, if_neg hf, writeBlocks_plain hname d fun g hg => h g (by simp [hg])]
    rfl

/-- The state with a variable of the function set, or made undefined. -/
def withLocal (s : State V) (name : String) (d : Option (Datum V)) : State V :=
  { s with locals := s.locals.set name d }

@[simp] theorem withLocal_cursor (s : State V) (name : String) (d : Option (Datum V)) :
    (withLocal s name d).cursor = s.cursor := rfl

@[simp] theorem withLocal_blocks (s : State V) (name : String) (d : Option (Datum V)) :
    (withLocal s name d).blocks = s.blocks := rfl

theorem withLocal_self (s : State V) (name : String) (d : Option (Datum V)) :
    (withLocal s name d).locals name = some d :=
  if_pos rfl

theorem withLocal_other (s : State V) {name other : String} (d : Option (Datum V))
    (h : other ≠ name) :
    (withLocal s name d).locals other = s.locals other :=
  if_neg h

theorem withLocal_declared {s : State V} {name : String} (d : Option (Datum V))
    (h : (s.locals name).isSome) (other : String) :
    ((withLocal s name d).locals other).isSome = (s.locals other).isSome := by
  by_cases hother : other = name
  · subst hother
    rw [withLocal_self, h]
    rfl
  · rw [withLocal_other s d hother]

/-- The state with the cursor moved. -/
def withCursor (s : State V) (c : Int) : State V :=
  { s with cursor := c }

@[simp] theorem withCursor_cursor (s : State V) (c : Int) : (withCursor s c).cursor = c := rfl

@[simp] theorem withCursor_blocks (s : State V) (c : Int) :
    (withCursor s c).blocks = s.blocks := rfl

@[simp] theorem withCursor_locals (s : State V) (c : Int) :
    (withCursor s c).locals = s.locals := rfl

theorem withCursor_self {s : State V} {c : Int} (h : s.cursor = c) : withCursor s c = s := by
  subst h
  rfl

theorem read_plain {s : State V} {name : String} (hname : Plain name)
    (hblocks : OnlyCaptures s.blocks) : s.read name = (s.locals name).join := by
  unfold State.read
  rw [if_neg hname.2, readBlocks_plain hname hblocks]
  rfl

theorem read_local {s : State V} {name : String} {d : Datum V} (hname : Plain name)
    (hblocks : OnlyCaptures s.blocks) (h : s.locals name = some (some d)) :
    s.read name = some d := by
  rw [read_plain hname hblocks, h]
  rfl

theorem write_plain {s : State V} {name : String} (d : Option (Datum V)) (hname : Plain name)
    (hblocks : OnlyCaptures s.blocks) (h : (s.locals name).isSome) :
    s.write name d = some (withLocal s name d) := by
  unfold State.write
  rw [if_neg hname.2, writeBlocks_plain hname _ hblocks, if_pos h]
  rfl

theorem read_cursor (s : State V) : s.read cursorVar = some (.int s.cursor) :=
  if_pos rfl

theorem write_cursor (s : State V) (c : Int) :
    s.write cursorVar (some (.int c)) = some (withCursor s c) :=
  if_pos rfl

/-! ## What a construct keeps -/

/-- The words of the variables that constructs keep for themselves. -/
def ownWords : List String := ["save", "i", "count", "mark", "ok", "lo", "hi"]

/-- The variables of constructs with numbers up to `n`, and the one that says whether
the rule matched. -/
def Protected (n : Nat) (name : String) : Prop :=
  name = acceptVar ∨ ∃ w ∈ ownWords, ∃ j ≤ n, name = numbered w j

theorem Protected.mono {m n : Nat} {name : String} (h : Protected m name) (hmn : m ≤ n) :
    Protected n name := by
  obtain h | ⟨w, hw, j, hj, h⟩ := h
  · exact .inl h
  · exact .inr ⟨w, hw, j, Nat.le_trans hj hmn, h⟩

theorem protected_own {w : String} (hw : w ∈ ownWords) {j n : Nat} (hj : j ≤ n) :
    Protected n (numbered w j) :=
  .inr ⟨w, hw, j, hj, rfl⟩

theorem word_own {w : String} (hw : w ∈ ownWords) (k : Nat) : word (numbered w k) = w.toList :=
  Naming.word_numbered k ((by decide : ∀ w ∈ ownWords, '_' ∉ w.toList) w hw)

theorem plain_of_word {name w : String} (h : word name = w.toList)
    (hw : w ≠ "capture" ∧ w ≠ "cursor") : Plain name := by
  refine ⟨fun he => hw.1 (String.toList_inj.mp (h.symm.trans he)), fun he => ?_⟩
  subst he
  exact hw.2 (String.toList_inj.mp (h.symm.trans (by decide)))

theorem plain_own {w : String} (hw : w ∈ ownWords) (k : Nat) : Plain (numbered w k) :=
  plain_of_word (word_own hw k)
    ((by decide : ∀ w ∈ ownWords, w ≠ "capture" ∧ w ≠ "cursor") w hw)

/-- A variable with a higher number belongs to what runs inside. -/
theorem not_protected_own {w : String} (hw : w ∈ ownWords) {k n : Nat} (h : n < k) :
    ¬ Protected n (numbered w k) := by
  rintro (he | ⟨w', -, j, hj, he⟩)
  · refine Naming.ne_of_word ?_ he
    rw [word_own hw]
    exact (by decide : ∀ w ∈ ownWords, w.toList ≠ word acceptVar) w hw
  · have := (Naming.append_number_inj he).2
    omega

/-- A variable of another word belongs to nobody. -/
theorem not_protected_of_word {name w : String} {n : Nat} (h : word name = w.toList)
    (hw : w ∉ ownWords ∧ w ≠ "accept") : ¬ Protected n name := by
  rintro (he | ⟨w', hw', j, -, he⟩)
  · subst he
    exact hw.2 (String.toList_inj.mp (h.symm.trans (by decide)))
  · subst he
    rw [word_own hw'] at h
    exact hw.1 (String.toList_inj.mp h ▸ hw')

/-- Declarations stay, and so does what is protected. -/
structure Kept (n : Nat) (s s' : State V) : Prop where
  declared : ∀ name, (s'.locals name).isSome = (s.locals name).isSome
  same : ∀ name, Protected n name → s'.locals name = s.locals name

namespace Kept

theorem refl (n : Nat) (s : State V) : Kept n s s :=
  ⟨fun _ => rfl, fun _ _ => rfl⟩

theorem trans {n : Nat} {s t u : State V} (h : Kept n s t) (h' : Kept n t u) : Kept n s u :=
  ⟨fun name => (h'.declared name).trans (h.declared name),
    fun name hp => (h'.same name hp).trans (h.same name hp)⟩

theorem mono {m n : Nat} {s s' : State V} (h : Kept n s s') (hmn : m ≤ n) : Kept m s s' :=
  ⟨h.declared, fun name hp => h.same name (hp.mono hmn)⟩

theorem withLocal {n : Nat} {s : State V} {name : String} (d : Option (Datum V))
    (hname : ¬ Protected n name) (h : (s.locals name).isSome) : Kept n s (withLocal s name d) :=
  ⟨withLocal_declared d h, fun _ hp => withLocal_other s d fun he => hname (he ▸ hp)⟩

/-- Only the variables of the function count. -/
theorem of_locals {n : Nat} {s s' : State V} (h : s'.locals = s.locals) : Kept n s s' :=
  ⟨fun name => by rw [h], fun name _ => by rw [h]⟩

end Kept

end

end PegCompiler.Lowering
