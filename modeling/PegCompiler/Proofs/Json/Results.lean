import PegCompiler.Json.Shape
/-
  What readers give. `Ensures` says that every value that a reader gives has a property,
  whatever the text. It is closed under sequencing, and a record ensures a property of a
  field when reading the field does and the values that stand for the field when it is left
  out have it: the slots of the record keep the property from entry to entry.
-/

namespace PegCompiler.Json

/-- Every value that a reader gives has a property. -/
def Ensures {α : Type} (read : Reader α) (P : α → Prop) : Prop :=
  ∀ text a rest, read text = .ok (a, rest) → P a

namespace Ensures

variable {α β : Type} {P : α → Prop} {Q : β → Prop}

theorem trivial (read : Reader α) : Ensures read fun _ => True :=
  fun _ _ _ _ => True.intro

theorem pure {a : α} (h : P a) : Ensures (Pure.pure a) P := by
  intro text b rest hread
  cases hread
  exact h

theorem fail (cause : Cause) : Ensures (Reader.fail cause) P :=
  fun _ _ _ h => nomatch h

theorem failAhead (cause : Cause) : Ensures (Reader.failAhead cause) P :=
  fun _ _ _ h => nomatch h

theorem failPending (cause : Cause) : Ensures (Reader.failPending cause) P :=
  fun _ _ _ h => nomatch h

theorem bind {x : Reader α} {f : α → Reader β} (hx : Ensures x P)
    (hf : ∀ a, P a → Ensures (f a) Q) : Ensures (x >>= f) Q := by
  intro text b rest h
  change (x text >>= fun p => f p.1 p.2) = _ at h
  cases hread : x text with
  | error e =>
    rw [hread] at h
    nomatch h
  | ok r =>
    rw [hread] at h
    exact hf r.1 (hx _ _ _ hread) _ _ _ h

/-- What is read first does not matter. -/
theorem andThen {x : Reader α} {f : α → Reader β} (hf : ∀ a, Ensures (f a) Q) :
    Ensures (x >>= f) Q :=
  bind (trivial x) fun a _ => hf a

theorem map {x : Reader α} {g : α → β} (hx : Ensures x fun a => Q (g a)) :
    Ensures (g <$> x) Q := by
  rw [map_eq_pure_bind]
  exact bind hx fun a ha => pure ha

/-- A type mismatch ends reading. -/
theorem wrongType (expected : String) : Ensures (wrongType expected) P := by
  unfold Json.wrongType
  refine andThen fun next => ?_
  split
  · exact failAhead _
  · exact andThen fun _ => fail _
  · exact andThen fun _ => fail _
  · exact andThen fun _ => fail _
  · exact andThen fun _ => andThen fun _ => fail _
  · exact fail _
  · exact fail _
  · split
    · refine andThen fun n => ?_
      split
      · exact fail _
      · exact fail _
      · exact fail _
      · exact fail _
    · exact failAhead _

/-- Whoever leaves the rest of a text alone has read in front of it. -/
theorem exists_of_run' {x : Reader α} {text : List Char} {a : α}
    (h : StateT.run' x text = .ok a) : ∃ rest, x text = .ok (a, rest) := by
  change Prod.fst <$> x text = _ at h
  cases hx : x text with
  | error e =>
    rw [hx] at h
    nomatch h
  | ok r =>
    rw [hx] at h
    cases h
    exact ⟨r.2, rfl⟩

theorem whole {read : Reader α} (h : Ensures read P) {s : String} {a : α}
    (hs : Json.whole read s = .ok a) : P a := by
  obtain ⟨rest, hrun⟩ := exists_of_run' hs
  refine bind h (fun v hv => andThen fun next => ?_) _ _ _ hrun
  split
  · exact pure hv
  · exact failAhead _

theorem settle {read : Reader α} (h : Ensures read P) (close : List Char → List Char) :
    Ensures (settle close read) P := by
  intro text a rest hread
  unfold Json.settle at hread
  split at hread
  · next r hr =>
    cases hread
    exact h _ _ _ hr
  · nomatch hread

/-- Entries keep what each of them keeps. -/
theorem entries {σ : Type} {entry : String → σ → Option (Reader σ)} {I : σ → Prop}
    (hentry : ∀ {key slots read}, entry key slots = some read → I slots → Ensures read I)
    (room : List Char) : ∀ {first : Bool} {slots : σ}, I slots →
      Ensures (entries entry room first slots) I := by
  induction room with
  | nil => exact fun _ => failAhead _
  | cons x room ih =>
    intro first slots hslots
    rw [Json.entries]
    refine andThen fun more => ?_
    split
    · refine andThen fun key => ?_
      split
      · next read hread => exact bind (hentry hread hslots) fun slots hslots => ih hslots
      · exact andThen fun _ => andThen fun _ => ih hslots
    · exact pure hslots

theorem record {σ : Type} {expected : String} {empty : σ} {I : σ → Prop}
    {entry : String → σ → Option (Reader σ)} {close : σ → Reader α} {items : Reader α}
    (hempty : I empty)
    (hentry : ∀ {key slots read}, entry key slots = some read → I slots → Ensures read I)
    (hclose : ∀ slots, I slots → Ensures (close slots) P) (hitems : Ensures items P) :
    Ensures (record expected empty entry close items) P := by
  unfold Json.record
  refine andThen fun next => ?_
  split
  · refine andThen fun _ => bind (hitems.settle _) fun a ha => andThen fun _ => pure ha
  · refine andThen fun _ => bind (settle (P := P) ?_ _) fun a ha => andThen fun _ => pure ha
    exact andThen fun room => bind (entries hentry room hempty) hclose
  · exact wrongType expected

/-! ## Fields -/

variable {f : Field α}

theorem fill (h : Ensures f.read P) (slot : Option α) :
    Ensures (f.fill slot) fun filled => ∀ a ∈ filled, P a := by
  unfold Field.fill
  have hread : Ensures (do colon; return some (← f.read)) fun filled => ∀ a ∈ filled, P a := by
    refine andThen fun _ => bind h fun a ha => pure ?_
    rintro _ ⟨⟩
    exact ha
  split
  · exact andThen fun _ => hread
  · exact hread

theorem close (habsent : ∀ a ∈ f.absent, P a) {slot : Option α} (hslot : ∀ a ∈ slot, P a) :
    Ensures (f.close slot) P := by
  unfold Field.close
  split
  · next a ha =>
    refine pure ?_
    cases slot with
    | none => exact habsent a ha
    | some b => exact hslot a ha
  · exact failPending _

theorem item (h : Ensures f.read P) (homitted : ∀ a ∈ f.omitted, P a) (place : Nat)
    (expected : String) : Ensures (f.item place expected) P := by
  unfold Field.item
  refine andThen fun more => ?_
  split
  · exact h
  · split
    · next a ha => exact pure (homitted a ha)
    · exact failPending _

/-- The second field of a record of two. -/
theorem record2 {g : Field β} {expected : String} (h : Ensures g.read Q)
    (habsent : ∀ b ∈ g.absent, Q b) (homitted : ∀ b ∈ g.omitted, Q b) :
    Ensures (record2 expected f g) fun r => Q r.2 := by
  unfold Json.record2
  refine record (I := fun slots => ∀ b ∈ slots.2, Q b) (by rintro b ⟨⟩) ?_ ?_ ?_
  · rintro key ⟨a, b⟩ read hread hslots
    dsimp only at hread
    split at hread
    · cases hread
      exact andThen fun _ => pure hslots
    · split at hread
      · cases hread
        exact bind (fill h b) fun _ hb => pure hb
      · nomatch hread
  · rintro ⟨a, b⟩ hslots
    exact andThen fun _ => bind (close habsent hslots) fun _ hb => pure hb
  · exact andThen fun _ => bind (item h homitted 1 _) fun _ hb => pure hb

end Ensures

end PegCompiler.Json
