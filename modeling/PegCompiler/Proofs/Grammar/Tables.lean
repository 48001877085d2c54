import Mathlib.Data.String.Basic
import Mathlib.Order.Basic
import PegCompiler.Grammar.ActionTypes
/-
  Tables of declared types are lists in strictly ascending order of their keys. Every list
  of declarations makes such a table, and a table is made of its own entries. One more entry
changes what is declared for its own key and for no other.
-/

namespace PegCompiler

namespace ActionType

/-- The key of one entry is less than that of another. -/
def Less (e f : ActionType) : Prop :=
  e.before f.rule f.alternative = true

theorem less_iff {e f : ActionType} :
    e.Less f ↔ e.rule < f.rule ∨ e.rule = f.rule ∧ e.alternative < f.alternative := by
  simp [Less, before]

theorem isFor_iff {e f : ActionType} :
    e.isFor f.rule f.alternative = true ↔ e.rule = f.rule ∧ e.alternative = f.alternative := by
  simp [isFor]

theorem Less.trans {e f g : ActionType} (h : e.Less f) (h' : f.Less g) : e.Less g := by
  rw [less_iff] at *
  rcases h with hrule | ⟨hrule, halternative⟩
  · rcases h' with hrule' | ⟨hrule', -⟩
    · exact .inl (hrule.trans hrule')
    · exact .inl (hrule' ▸ hrule)
  · rcases h' with hrule' | ⟨hrule', halternative'⟩
    · exact .inl (hrule ▸ hrule')
    · exact .inr ⟨hrule.trans hrule', UInt64.lt_trans halternative halternative'⟩

theorem Less.not_isFor {e f : ActionType} (h : e.Less f) :
    e.isFor f.rule f.alternative = false := by
  rw [Bool.eq_false_iff, ne_eq, isFor_iff]
  rintro ⟨hrule, halternative⟩
  rw [less_iff, hrule, halternative] at h
  rcases h with hlt | ⟨-, hlt⟩
  · exact lt_irrefl _ hlt
  · exact UInt64.lt_irrefl _ hlt

/-- Entries with the same key stand in the same relations. -/
theorem Less.of_isFor {e f g : ActionType} (h : f.Less g)
    (he : f.isFor e.rule e.alternative = true) : e.Less g := by
  rw [isFor_iff] at he
  rw [less_iff] at *
  rwa [← he.1, ← he.2]

/-- Of two keys one is less, unless they are the same. -/
theorem less_of_not {e f : ActionType} (hfor : ¬ f.isFor e.rule e.alternative = true)
    (hbefore : ¬ f.before e.rule e.alternative = true) : e.Less f := by
  rw [isFor_iff] at hfor
  change ¬ f.Less e at hbefore
  rw [less_iff, not_or] at hbefore
  rw [less_iff]
  rcases lt_trichotomy e.rule f.rule with hlt | heq | hlt
  · exact .inl hlt
  · refine .inr ⟨heq, ?_⟩
    have hle : ¬ f.alternative < e.alternative := fun hlt => hbefore.2 ⟨heq.symm, hlt⟩
    have hne : f.alternative ≠ e.alternative := fun h => hfor ⟨heq.symm, h⟩
    exact UInt64.lt_of_le_of_ne (UInt64.not_lt.mp hle) hne.symm
  · exact absurd hlt hbefore.1

theorem mem_insertInto {e f : ActionType} {es : List ActionType} (h : f ∈ e.insertInto es) :
    f = e ∨ f ∈ es := by
  induction es with
  | nil => exact .inl (List.mem_singleton.mp h)
  | cons g es ih =>
    rw [insertInto] at h
    split at h
    · exact (List.mem_cons.mp h).imp_right (List.mem_cons_of_mem g)
    · split at h
      · rcases List.mem_cons.mp h with rfl | h
        · exact .inr List.mem_cons_self
        · exact (ih h).imp_right (List.mem_cons_of_mem g)
      · exact List.mem_cons.mp h

theorem pairwise_insertInto (e : ActionType) {es : List ActionType} (h : es.Pairwise Less) :
    (e.insertInto es).Pairwise Less := by
  induction es with
  | nil => exact List.pairwise_singleton _ _
  | cons f es ih =>
    obtain ⟨hf, hes⟩ := List.pairwise_cons.mp h
    rw [insertInto]
    split
    · next hfor =>
      exact List.pairwise_cons.mpr ⟨fun g hg => (hf g hg).of_isFor hfor, hes⟩
    · split
      · next hbefore =>
        refine List.pairwise_cons.mpr ⟨fun g hg => ?_, ih hes⟩
        rcases mem_insertInto hg with rfl | hg
        · exact hbefore
        · exact hf g hg
      · next hfor hbefore =>
        have hless := less_of_not hfor hbefore
        exact List.pairwise_cons.mpr ⟨List.forall_mem_cons.mpr
          ⟨hless, fun g hg => hless.trans (hf g hg)⟩, h⟩

theorem insertInto_of_less {e : ActionType} {es : List ActionType} (h : ∀ f ∈ es, f.Less e) :
    e.insertInto es = es ++ [e] := by
  induction es with
  | nil => rfl
  | cons f es ih =>
    obtain ⟨hf, hes⟩ := List.forall_mem_cons.mp h
    have hbefore : f.before e.rule e.alternative = true := hf
    rw [insertInto, hf.not_isFor, if_neg Bool.false_ne_true, if_pos hbefore, ih hes]
    rfl

end ActionType

namespace ActionTypes

/-- The entries are in strictly ascending order of their keys, as they are in a table. -/
def Ordered (t : ActionTypes) : Prop :=
  t.entries.Pairwise ActionType.Less

theorem ordered_ofList (es : List ActionType) : (ofList es).Ordered := by
  have h : ∀ (es : List ActionType) (t : ActionTypes), t.Ordered → (es.foldl insert t).Ordered := by
    intro es
    induction es with
    | nil => exact fun _ ht => ht
    | cons e es ih => exact fun t ht => ih _ (ActionType.pairwise_insertInto e ht)
  exact h es ⟨[]⟩ List.Pairwise.nil

/-- A table is made of its own entries. -/
theorem ofList_entries {t : ActionTypes} (h : t.Ordered) : ofList t.entries = t := by
  have hfold : ∀ (es done : List ActionType), (done ++ es).Pairwise ActionType.Less →
      es.foldl insert ⟨done⟩ = ⟨done ++ es⟩ := by
    intro es
    induction es with
    | nil =>
      intro done _
      rw [List.append_nil]
      rfl
    | cons e es ih =>
      intro done hdone
      have hless : ∀ f ∈ done, f.Less e := fun f hf =>
        (List.pairwise_append.mp hdone).2.2 f hf e List.mem_cons_self
      rw [List.append_cons] at hdone ⊢
      rw [List.foldl_cons, insert, ActionType.insertInto_of_less hless]
      exact ih _ hdone
  exact hfold t.entries [] h

/-- An entry counts for its own key only. -/
theorem declared_insert_of_ne {t : ActionTypes} {e : ActionType} {rule : String} {index : Nat}
    (h : ¬ (e.rule = rule ∧ e.alternative.toNat = index)) :
    (t.insert e).declared rule index = t.declared rule index := by
  have hkey : ∀ f : ActionType, f.rule = e.rule → f.alternative = e.alternative →
      (f.rule == rule && f.alternative.toNat == index) = false := by
    intro f hrule halternative
    rw [hrule, halternative]
    simpa using h
  have hfind : ∀ es : List ActionType,
      (e.insertInto es).find? (fun f => f.rule == rule && f.alternative.toNat == index) =
        es.find? fun f => f.rule == rule && f.alternative.toNat == index := by
    intro es
    induction es with
    | nil => rw [ActionType.insertInto, List.find?_cons, hkey e rfl rfl]
    | cons f es ih =>
      rw [ActionType.insertInto]
      split
      · next hfor =>
        obtain ⟨hrule, halternative⟩ := ActionType.isFor_iff.mp hfor
        rw [List.find?_cons, List.find?_cons, hkey e rfl rfl, hkey f hrule halternative]
      · split
        · rw [List.find?_cons, List.find?_cons, ih]
        · rw [List.find?_cons, hkey e rfl rfl]
  unfold declared insert
  rw [hfind]

end ActionTypes

end PegCompiler
