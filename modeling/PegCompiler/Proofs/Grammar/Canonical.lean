import Mathlib.Data.List.Induction
import Mathlib.Data.List.Pairwise
import Mathlib.Data.List.Perm.Basic
import PegCompiler.Proofs.Grammar.Tables
import PegCompiler.Proofs.Text.Bytes
/-
  The table of a list of declarations is a map. It has one entry for each alternative that
  the list declares a type for, with the type of the last declaration, in ascending order of
  rules as bytes and then of alternatives. So a table is determined by what is declared last
  for each alternative, whatever the order and the number of declarations
  (`ofList_eq_iff`), and from whatever order its entries are listed in, sorting them by
  their keys gives the table (`mergeSort_eq_entries`).
-/

namespace PegCompiler

namespace ActionType

/-- Entries are for one alternative of one rule. -/
def SameKey (e f : ActionType) : Prop :=
  e.rule = f.rule ∧ e.alternative = f.alternative

/-- The order of a table: rules by their bytes, and then alternatives by number. -/
def InFront (e f : ActionType) : Prop :=
  Text.bytes e.rule < Text.bytes f.rule ∨ e.rule = f.rule ∧ e.alternative < f.alternative

/-- One entry may stand before another in a list that is sorted by keys. -/
def keyLe (e f : ActionType) : Bool :=
  Text.bytes e.rule < Text.bytes f.rule ||
    (Text.bytes e.rule == Text.bytes f.rule && e.alternative ≤ f.alternative)

theorem inFront_iff {e f : ActionType} : e.InFront f ↔ e.Less f := by
  rw [InFront, Text.bytes_lt_iff, less_iff]

theorem keyLe_iff {e f : ActionType} : keyLe e f = true ↔ e.Less f ∨ e.SameKey f := by
  simp only [keyLe, Bool.or_eq_true, Bool.and_eq_true, decide_eq_true_eq, beq_iff_eq,
    Text.bytes_lt_iff, Text.bytes_inj, UInt64.le_iff_lt_or_eq, less_iff, SameKey]
  rw [or_assoc, and_or_left]

theorem Less.not_sameKey {e f : ActionType} (h : e.Less f) : ¬ e.SameKey f := by
  intro hkey
  have hfor := h.not_isFor
  rw [isFor_iff.mpr hkey] at hfor
  exact nomatch hfor

theorem less_trichotomy (e f : ActionType) : e.Less f ∨ e.SameKey f ∨ f.Less e := by
  by_cases hfor : f.isFor e.rule e.alternative = true
  · exact .inr (.inl ((isFor_iff.mp hfor).imp Eq.symm Eq.symm))
  by_cases hbefore : f.before e.rule e.alternative = true
  · exact .inr (.inr hbefore)
  · exact .inl (less_of_not hfor hbefore)

theorem keyLe_total (e f : ActionType) : (keyLe e f || keyLe f e) = true := by
  rw [Bool.or_eq_true, keyLe_iff, keyLe_iff]
  rcases less_trichotomy e f with hless | hkey | hless
  · exact .inl (.inl hless)
  · exact .inl (.inr hkey)
  · exact .inr (.inl hless)

theorem keyLe_trans (e f g : ActionType) (h : keyLe e f = true) (h' : keyLe f g = true) :
    keyLe e g = true := by
  rw [keyLe_iff] at *
  rcases h with h | ⟨hrule, halternative⟩
  · rcases h' with h' | ⟨hrule, halternative⟩
    · exact .inl (h.trans h')
    · rw [less_iff, ← hrule, ← halternative, ← less_iff]
      exact .inl h
  · rw [less_iff, SameKey, hrule, halternative, ← less_iff, ← SameKey]
    exact h'

theorem sameKey_of_keyLe {e f : ActionType} (h : keyLe e f = true) (h' : keyLe f e = true) :
    e.SameKey f := by
  rw [keyLe_iff] at h h'
  rcases h with h | hkey
  · rcases h' with h' | hkey
    · exact absurd ⟨rfl, rfl⟩ (h.trans h').not_sameKey
    · exact hkey.imp Eq.symm Eq.symm
  · exact hkey

/-- The keys of entries differ. -/
def KeysDiffer (es : List ActionType) : Prop :=
  es.Pairwise fun e f => ¬ e.SameKey f

/-- Where keys differ, entries for one alternative are the same. -/
theorem KeysDiffer.eq {es : List ActionType} (h : KeysDiffer es) {e f : ActionType}
    (he : e ∈ es) (hf : f ∈ es) (hkey : e.SameKey f) : e = f := by
  by_contra hne
  have : Std.Symm fun e f : ActionType => ¬ e.SameKey f :=
    ⟨fun _ _ hnot hkey => hnot (hkey.imp Eq.symm Eq.symm)⟩
  exact h.forall he hf hne hkey

theorem KeysDiffer.nodup {es : List ActionType} (h : KeysDiffer es) : es.Nodup := by
  have : Std.Irrefl fun e f : ActionType => ¬ e.SameKey f := ⟨fun _ hnot => hnot ⟨rfl, rfl⟩⟩
  exact List.Pairwise.nodup h

/-- What is the only entry of its kind is found. -/
theorem find?_eq_some {es : List ActionType} {kind : ActionType → Bool} {e : ActionType}
    (he : e ∈ es) (hkind : kind e = true) (honly : ∀ f ∈ es, kind f = true → f = e) :
    es.find? kind = some e := by
  obtain ⟨f, hfind⟩ := Option.isSome_iff_exists.mp (List.find?_isSome.mpr ⟨e, he, hkind⟩)
  rw [hfind, honly f (List.mem_of_find?_eq_some hfind) (List.find?_some hfind)]

/-- What an entry is put into loses its entry for the same alternative and no other. -/
theorem mem_insertInto_iff {e f : ActionType} {es : List ActionType} (h : es.Pairwise Less) :
    f ∈ e.insertInto es ↔ f = e ∨ f ∈ es ∧ ¬ e.SameKey f := by
  induction es with
  | nil => simp [insertInto]
  | cons g es ih =>
    obtain ⟨hg, hes⟩ := List.pairwise_cons.mp h
    rw [insertInto]
    split
    · next hfor =>
      have hkey : e.SameKey g := (isFor_iff.mp hfor).imp Eq.symm Eq.symm
      have hrest : ∀ f ∈ es, ¬ e.SameKey f := fun f hf => ((hg f hf).of_isFor hfor).not_sameKey
      rw [List.mem_cons, List.mem_cons, or_and_right]
      constructor
      · rintro (rfl | hf)
        · exact .inl rfl
        · exact .inr (.inr ⟨hf, hrest f hf⟩)
      · rintro (rfl | ⟨rfl, hnot⟩ | ⟨hf, -⟩)
        · exact .inl rfl
        · exact absurd hkey hnot
        · exact .inr hf
    · split
      · next hbefore =>
        have hkey : ¬ e.SameKey g := fun hkey =>
          Less.not_sameKey (e := g) hbefore (hkey.imp Eq.symm Eq.symm)
        rw [List.mem_cons, List.mem_cons, ih hes, or_and_right]
        constructor
        · rintro (rfl | rfl | hf)
          · exact .inr (.inl ⟨rfl, hkey⟩)
          · exact .inl rfl
          · exact .inr (.inr hf)
        · rintro (rfl | ⟨rfl, -⟩ | hf)
          · exact .inr (.inl rfl)
          · exact .inl rfl
          · exact .inr (.inr hf)
      · next hfor hbefore =>
        have hless := less_of_not hfor hbefore
        have hall : ∀ f ∈ g :: es, ¬ e.SameKey f := List.forall_mem_cons.mpr
          ⟨hless.not_sameKey, fun f hf => (hless.trans (hg f hf)).not_sameKey⟩
        rw [List.mem_cons]
        exact or_congr_right ⟨fun hf => ⟨hf, hall f hf⟩, fun hf => hf.1⟩

/-- The type that a list of declarations gives an alternative last. -/
def lastFor (es : List ActionType) (rule : String) (alternative : UInt64) : Option String :=
  (es.reverse.find? fun e => e.isFor rule alternative).map fun e => e.returnType

theorem lastFor_concat (es : List ActionType) (e : ActionType) (rule : String)
    (alternative : UInt64) : lastFor (es ++ [e]) rule alternative =
      if e.isFor rule alternative then some e.returnType else lastFor es rule alternative := by
  rw [lastFor, List.reverse_append, List.reverse_singleton, List.singleton_append, List.find?_cons]
  cases e.isFor rule alternative <;> rfl

/-- Where keys differ, every declaration is the last for its alternative. -/
theorem KeysDiffer.lastFor_eq_some {es : List ActionType} (h : KeysDiffer es) {e : ActionType} :
    lastFor es e.rule e.alternative = some e.returnType ↔ e ∈ es := by
  rw [lastFor, Option.map_eq_some_iff]
  constructor
  · rintro ⟨f, hfind, htype⟩
    have hf := List.mem_reverse.mp (List.mem_of_find?_eq_some hfind)
    have hfor := List.find?_some hfind
    obtain ⟨hrule, halternative⟩ := isFor_iff.mp hfor
    obtain ⟨rule, alternative, type⟩ := e
    obtain ⟨rule', alternative', type'⟩ := f
    subst hrule halternative htype
    exact hf
  · intro he
    refine ⟨e, find?_eq_some (List.mem_reverse.mpr he) (isFor_iff.mpr ⟨rfl, rfl⟩) ?_, rfl⟩
    exact fun f hf hfor => h.eq (List.mem_reverse.mp hf) he (isFor_iff.mp hfor)

end ActionType

namespace ActionTypes

open ActionType (InFront KeysDiffer Less keyLe lastFor lastFor_concat)

theorem ofList_concat (es : List ActionType) (e : ActionType) :
    ofList (es ++ [e]) = (ofList es).insert e := by
  rw [ofList, List.foldl_append]
  rfl

/-- A table has the last declarations of its list. -/
theorem mem_ofList {es : List ActionType} {e : ActionType} :
    e ∈ (ofList es).entries ↔ lastFor es e.rule e.alternative = some e.returnType := by
  induction es using List.reverseRecOn with
  | nil => simp [ofList, lastFor]
  | append_singleton es f ih =>
    rw [ofList_concat, lastFor_concat, insert, ActionType.mem_insertInto_iff (ordered_ofList es), ih]
    by_cases hfor : f.isFor e.rule e.alternative = true
    · obtain ⟨hrule, halternative⟩ := ActionType.isFor_iff.mp hfor
      have hkey : f.SameKey e := ⟨hrule, halternative⟩
      rw [if_pos hfor, Option.some_inj]
      constructor
      · rintro (rfl | ⟨-, hnot⟩)
        · rfl
        · exact absurd hkey hnot
      · intro htype
        obtain ⟨rule, alternative, type⟩ := e
        obtain ⟨rule', alternative', type'⟩ := f
        subst hrule halternative htype
        exact .inl rfl
    · have hkey : ¬ f.SameKey e := fun hkey => hfor (ActionType.isFor_iff.mpr hkey)
      rw [if_neg hfor]
      constructor
      · rintro (rfl | ⟨h, -⟩)
        · exact absurd ⟨rfl, rfl⟩ hkey
        · exact h
      · exact fun h => .inr ⟨h, hkey⟩

theorem Ordered.keysDiffer {t : ActionTypes} (h : t.Ordered) : KeysDiffer t.entries :=
  h.imp ActionType.Less.not_sameKey

/-- Sorting the entries of a table by their keys gives them in the order of the table,
whatever order they are listed in. -/
theorem mergeSort_eq_entries {t : ActionTypes} (h : t.Ordered) {xs : List ActionType}
    (hxs : xs.Nodup) (hmem : ∀ e, e ∈ xs ↔ e ∈ t.entries) : xs.mergeSort keyLe = t.entries := by
  have hperm : (xs.mergeSort keyLe).Perm t.entries :=
    (List.mergeSort_perm xs keyLe).trans
      ((List.perm_ext_iff_of_nodup hxs h.keysDiffer.nodup).mpr hmem)
  have hsorted := List.pairwise_mergeSort ActionType.keyLe_trans ActionType.keyLe_total xs
  have hordered : t.entries.Pairwise fun e f => keyLe e f = true :=
    h.imp fun hless => ActionType.keyLe_iff.mpr (.inl hless)
  refine List.Perm.eq_of_pairwise ?_ hsorted hordered hperm
  intro e f he hf hef hfe
  exact h.keysDiffer.eq (hperm.mem_iff.mp he) hf (ActionType.sameKey_of_keyLe hef hfe)

/-- Tables with the same entries are the same. -/
theorem Ordered.eq {t u : ActionTypes} (ht : t.Ordered) (hu : u.Ordered)
    (hmem : ∀ e, e ∈ t.entries ↔ e ∈ u.entries) : t = u := by
  have hsame : t.entries = u.entries :=
    (mergeSort_eq_entries ht ht.keysDiffer.nodup fun _ => .rfl).symm.trans
      (mergeSort_eq_entries hu ht.keysDiffer.nodup hmem)
  rw [← ofList_entries ht, hsame, ofList_entries hu]

/-- A table declares what its entries say. -/
theorem Ordered.declared_eq_some {t : ActionTypes} (h : t.Ordered) {rule : String} {index : Nat}
    {type : String} : t.declared rule index = some type ↔
      ∃ e ∈ t.entries, e.rule = rule ∧ e.alternative.toNat = index ∧ e.returnType = type := by
  rw [declared, Option.map_eq_some_iff]
  constructor
  · rintro ⟨e, hfind, htype⟩
    have hkey := List.find?_some hfind
    rw [Bool.and_eq_true, beq_iff_eq, beq_iff_eq] at hkey
    exact ⟨e, List.mem_of_find?_eq_some hfind, hkey.1, hkey.2, htype⟩
  · rintro ⟨e, he, rfl, rfl, rfl⟩
    refine ⟨e, ActionType.find?_eq_some he (by simp) fun f hf hfor => ?_, rfl⟩
    rw [Bool.and_eq_true, beq_iff_eq, beq_iff_eq] at hfor
    exact h.keysDiffer.eq hf he ⟨hfor.1, UInt64.toNat_inj.mp hfor.2⟩

theorem ofList_eq_iff {es fs : List ActionType} : ofList es = ofList fs ↔
    ∀ rule alternative, lastFor es rule alternative = lastFor fs rule alternative := by
  constructor
  · intro h rule alternative
    refine Option.ext fun type => ?_
    rw [← mem_ofList (e := ⟨rule, alternative, type⟩), h, mem_ofList]
  · intro h
    refine (ordered_ofList es).eq (ordered_ofList fs) fun e => ?_
    rw [mem_ofList, mem_ofList, h]

/-- Declarations for different alternatives may be made in any order. -/
theorem ofList_eq_of_perm {es fs : List ActionType} (hperm : fs.Perm es) (h : KeysDiffer es) :
    ofList fs = ofList es := by
  have hfs : KeysDiffer fs := by
    refine hperm.symm.pairwise h fun hnot hkey => hnot (hkey.imp Eq.symm Eq.symm)
  refine (ordered_ofList fs).eq (ordered_ofList es) fun e => ?_
  rw [mem_ofList, mem_ofList, hfs.lastFor_eq_some, h.lastFor_eq_some, hperm.mem_iff]

/-- A table is the map of a list of declarations. -/
structure IsMapOf (t : ActionTypes) (es : List ActionType) : Prop where
  /-- Each key stands once, in the order of keys. -/
  ascending : t.entries.Pairwise InFront
  last : ∀ e, e ∈ t.entries ↔ lastFor es e.rule e.alternative = some e.returnType
  declared : ∀ rule index type, t.declared rule index = some type ↔
    ∃ e ∈ t.entries, e.rule = rule ∧ e.alternative.toNat = index ∧ e.returnType = type
  again : ofList t.entries = t
  /-- Whoever lists the last declarations in any order, and sorts them by keys, has the
  entries. -/
  sorted : ∀ xs : List ActionType, xs.Nodup →
    (∀ e, e ∈ xs ↔ lastFor es e.rule e.alternative = some e.returnType) →
    xs.mergeSort keyLe = t.entries

/-- **Tables are canonical.** The table of a list of declarations is the map of what is
declared last; lists make the same table exactly when they declare the same last, as they do
in any order if their keys differ; and further declarations to a table are as further
declarations in its list. -/
theorem ofList_canonical (es : List ActionType) :
    (ofList es).IsMapOf es ∧
    (∀ fs, ofList fs = ofList es ↔
      ∀ rule alternative, lastFor fs rule alternative = lastFor es rule alternative) ∧
    (∀ fs : List ActionType, fs.Perm es → KeysDiffer es → ofList fs = ofList es) ∧
    ∀ calls : List ActionType, calls.foldl insert (ofList es) = ofList (es ++ calls) := by
  have hordered := ordered_ofList es
  refine ⟨⟨?_, fun _ => mem_ofList, fun _ _ _ => hordered.declared_eq_some,
    ofList_entries hordered, ?_⟩, fun _ => ofList_eq_iff, fun _ => ofList_eq_of_perm, ?_⟩
  · exact hordered.imp fun hless => ActionType.inFront_iff.mpr hless
  · intro xs hxs hmem
    exact mergeSort_eq_entries hordered hxs fun e => (hmem e).trans mem_ofList.symm
  · exact fun calls => (List.foldl_append ..).symm

/-- Declarations for alternatives of three rules, in no order. -/
def scattered : List ActionType :=
  [⟨"b", 0, "real"⟩, ⟨"é", 1, "integer"⟩, ⟨"a", 10, "logical"⟩, ⟨"a", 9, ""⟩]

theorem scattered_canonical :
    scattered.reverse.Perm scattered ∧ ActionType.KeysDiffer scattered ∧
    (ofList scattered).IsMapOf scattered ∧ ofList scattered.reverse = ofList scattered ∧
    (ofList (scattered ++ [⟨"b", 0, "complex"⟩])).entries =
      [⟨"a", 9, ""⟩, ⟨"a", 10, "logical"⟩, ⟨"b", 0, "complex"⟩, ⟨"é", 1, "integer"⟩] := by
  have hdiffer : ActionType.KeysDiffer scattered := by
    simp [ActionType.KeysDiffer, ActionType.SameKey, scattered]
  obtain ⟨hmap, -, hperm, -⟩ := ofList_canonical scattered
  have hreverse := hperm scattered.reverse (List.reverse_perm _) hdiffer
  exact ⟨List.reverse_perm _, hdiffer, hmap, hreverse, by decide⟩

end ActionTypes

end PegCompiler
