import Mathlib.Data.List.Nodup
import PegCompiler.Resolved.Names
/-
  The bases of rules. Every id of a list gets a base, and two ids never show the
  same base: an id whose name is taken gets a number that is still free, and of one
  more numbers than there are taken names one is free.
-/

namespace PegCompiler.Naming

open Resolved

theorem shown_number_inj {name : String} {m n : Nat}
    (h : (BaseName.mk name (some m)).shown = (BaseName.mk name (some n)).shown) : m = n := by
  have hl := congrArg String.toList h
  simp only [BaseName.shown, String.toList_append, List.append_assoc,
    List.append_cancel_left_eq] at hl
  simpa [Nat.toString_eq_ofList_toDigits] using
    congrArg (fun ds => Nat.ofDigitChars 10 ds 0) hl

/-- Of more numbers than there are taken names, one is free. -/
theorem exists_free_number (taken : List String) (name : String) :
    ∃ n ∈ List.range' 1 (taken.length + 1), (BaseName.mk name (some n)).shown ∉ taken := by
  by_contra hall
  have hsub : (List.range' 1 (taken.length + 1)).map (fun n => (BaseName.mk name (some n)).shown) ⊆
      taken := by
    intro s hs
    obtain ⟨n, hn, rfl⟩ := List.mem_map.mp hs
    exact by_contra fun hfree => hall ⟨n, hn, hfree⟩
  have hnodup : ((List.range' 1 (taken.length + 1)).map
      (fun n => (BaseName.mk name (some n)).shown)).Nodup :=
    List.Nodup.map (fun _ _ h => shown_number_inj h) List.nodup_range'
  have hlen := hnodup.length_le_of_subset hsub
  rw [List.length_map, List.length_range'] at hlen
  omega

/-- The base chosen among taken names is not one of them. -/
theorem shown_among_not_mem (taken : List String) (name : String) :
    (BaseName.among taken name).shown ∉ taken := by
  unfold BaseName.among
  split
  next htaken =>
    obtain ⟨n, hn, hfree⟩ := exists_free_number taken name
    cases hfind : (List.range' 1 (taken.length + 1)).find?
        (fun n => !taken.contains (BaseName.mk name (some n)).shown) with
    | none =>
      rw [List.find?_eq_none] at hfind
      exact absurd hfree (by simpa using hfind n hn)
    | some m => simpa using List.find?_some hfind
  next hfree => simpa [BaseName.shown] using hfree

/-! ## The bases of a list of ids -/

/-- Ids and shown bases occur once. -/
structure Distinct (names : RuleNames) : Prop where
  ids : (names.bases.map (fun entry => entry.1)).Nodup
  shown : (names.bases.map (fun entry => entry.2.shown)).Nodup

theorem distinct_add {names : RuleNames} (h : Distinct names) (id : String) :
    Distinct (names.add id) := by
  unfold RuleNames.add
  split
  next => exact h
  next hnew =>
    have hid : id ∉ names.bases.map (fun entry => entry.1) := by
      intro hmem
      obtain ⟨entry, hentry, rfl⟩ := List.mem_map.mp hmem
      exact hnew (List.lookup_isSome_iff.mpr ⟨entry, hentry, beq_self_eq_true _⟩)
    constructor
    · simpa [List.concat_eq_append] using List.Nodup.concat hid h.ids
    · simpa [List.concat_eq_append] using
        List.Nodup.concat (shown_among_not_mem _ (sanitize id)) h.shown

theorem distinct_foldl : ∀ (ids : List String) {names : RuleNames}, Distinct names →
    Distinct (ids.foldl RuleNames.add names)
  | [], _, h => h
  | id :: ids, _, h => distinct_foldl ids (distinct_add h id)

theorem distinct_ofIds (ids : List String) : Distinct (RuleNames.ofIds ids) :=
  distinct_foldl ids ⟨List.nodup_nil, List.nodup_nil⟩

/-- An id that has a base keeps it. -/
theorem base_add_of_some {names : RuleNames} {id : String} {b : BaseName} (other : String)
    (h : names.base id = some b) : (names.add other).base id = some b := by
  unfold RuleNames.add
  split
  · exact h
  · simp only [RuleNames.base, List.lookup_append] at h ⊢
    rw [h]
    rfl

theorem isSome_base_add (names : RuleNames) (id : String) : ((names.add id).base id).isSome := by
  unfold RuleNames.add
  split
  next h => exact h
  next h =>
    simp only [RuleNames.base, List.lookup_append, Option.not_isSome_iff_eq_none] at h ⊢
    simp [h]

theorem base_foldl_of_some {id : String} {b : BaseName} : ∀ (ids : List String)
    {names : RuleNames}, names.base id = some b → (ids.foldl RuleNames.add names).base id = some b
  | [], _, h => h
  | other :: ids, _, h => base_foldl_of_some ids (base_add_of_some other h)

theorem exists_base_foldl {id : String} : ∀ (ids : List String) (names : RuleNames), id ∈ ids →
    ∃ b, (ids.foldl RuleNames.add names).base id = some b
  | other :: ids, names, h => by
    rcases List.mem_cons.mp h with rfl | h
    · obtain ⟨b, hb⟩ := Option.isSome_iff_exists.mp (isSome_base_add names id)
      exact ⟨b, base_foldl_of_some ids hb⟩
    · exact exists_base_foldl ids (names.add other) h

/-- Every id of a list has a base. -/
theorem exists_base {id : String} {ids : List String} (h : id ∈ ids) :
    ∃ b, (RuleNames.ofIds ids).base id = some b :=
  exists_base_foldl ids {} h

theorem mem_of_base {names : RuleNames} {id : String} {b : BaseName}
    (h : names.base id = some b) : (id, b) ∈ names.bases := by
  obtain ⟨l₁, l₂, hl, -⟩ := List.lookup_eq_some_iff.mp h
  exact hl ▸ by simp

theorem mem_of_base_add {names : RuleNames} {id other : String}
    (h : ((names.add other).base id).isSome) : (names.base id).isSome ∨ id = other := by
  unfold RuleNames.add at h
  split at h
  next => exact .inl h
  next =>
    simp only [RuleNames.base, List.lookup_append, Option.isSome_or, Bool.or_eq_true] at h ⊢
    refine h.imp_right fun h => ?_
    by_contra hne
    simp [List.lookup_cons, beq_false_of_ne hne] at h

/-- Only the ids of a list have bases. -/
theorem mem_of_base_foldl {id : String} : ∀ (ids : List String) {names : RuleNames},
    ((ids.foldl RuleNames.add names).base id).isSome → (names.base id).isSome ∨ id ∈ ids
  | [], _, h => .inl h
  | other :: ids, names, h => by
    rcases mem_of_base_foldl ids h with h | h
    · rcases mem_of_base_add h with h | rfl
      · exact .inl h
      · exact .inr (List.mem_cons_self ..)
    · exact .inr (List.mem_cons_of_mem _ h)

theorem mem_ids_of_base {ids : List String} {id : String} {b : BaseName}
    (h : (RuleNames.ofIds ids).base id = some b) : id ∈ ids := by
  have hsome : ((RuleNames.ofIds ids).base id).isSome := by simp [h]
  exact (mem_of_base_foldl ids hsome).resolve_left (by simp [RuleNames.base])

/-- Two ids never show the same base. -/
theorem base_inj {ids : List String} {i j : String} {b c : BaseName}
    (hi : (RuleNames.ofIds ids).base i = some b) (hj : (RuleNames.ofIds ids).base j = some c)
    (h : b.shown = c.shown) : i = j :=
  congrArg Prod.fst (List.inj_on_of_nodup_map (distinct_ofIds ids).shown (mem_of_base hi)
    (mem_of_base hj) h)

end PegCompiler.Naming
