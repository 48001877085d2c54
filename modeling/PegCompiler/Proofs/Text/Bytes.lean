import Mathlib.Data.String.Basic
import Mathlib.Data.UInt
/-
  Texts as bytes. Texts are compared character by character, and their bytes in UTF-8 are
  in the same order: of two characters the greater has the greater byte at the first place
  where the bytes differ, and none has bytes that those of another go on from.
-/

namespace PegCompiler.Text

open String (utf8EncodeChar)

/-- The bytes of a text in UTF-8. -/
def bytes (s : String) : List UInt8 :=
  s.toUTF8.data.toList

theorem bytes_eq (s : String) : bytes s = s.toList.flatMap utf8EncodeChar := by
  have hbytes : s.toByteArray = (s.toList.flatMap utf8EncodeChar).toByteArray := by
    conv => lhs; rw [← String.ofList_toList (s := s), String.toByteArray_ofList]
    rfl
  rw [bytes, String.toUTF8_eq_toByteArray, hbytes, List.data_toByteArray]

/-! ## Characters -/

/-- Bytes differ at a place that both have, and the first have the smaller byte there. -/
inductive Below : List UInt8 → List UInt8 → Prop
  | here {x y : UInt8} (h : x < y) (xs ys : List UInt8) : Below (x :: xs) (y :: ys)
  | later (x : UInt8) {xs ys : List UInt8} (h : Below xs ys) : Below (x :: xs) (x :: ys)

theorem Below.append_lt {xs ys : List UInt8} (h : Below xs ys) (us vs : List UInt8) :
    xs ++ us < ys ++ vs := by
  induction h with
  | here h xs ys => exact List.cons_lt_cons_iff.mpr (.inl h)
  | later x _ ih => exact List.cons_lt_cons_iff.mpr (.inr ⟨rfl, ih⟩)

/-- Bytes of numbers in ascending order. -/
theorem below_cons {m n : Nat} {xs ys : List UInt8} (hn : n < 256) (hle : m ≤ n)
    (h : m = n → Below xs ys) : Below (UInt8.ofNat m :: xs) (UInt8.ofNat n :: ys) := by
  obtain rfl | hlt := Nat.eq_or_lt_of_le hle
  · exact .later _ (h rfl)
  · refine .here (UInt8.lt_iff_toNat_lt.mpr ?_) xs ys
    rw [UInt8.toNat_ofNat', UInt8.toNat_ofNat', Nat.mod_eq_of_lt hn, Nat.mod_eq_of_lt (by omega)]
    exact hlt

theorem below_first {m n : Nat} (xs ys : List UInt8) (hn : n < 256) (hlt : m < n) :
    Below (UInt8.ofNat m :: xs) (UInt8.ofNat n :: ys) :=
  below_cons hn (Nat.le_of_lt hlt) fun h => absurd h (Nat.ne_of_lt hlt)

theorem below_encode {c d : Char} (h : c < d) : Below (utf8EncodeChar c) (utf8EncodeChar d) := by
  have hlt : c.val.toNat < d.val.toNat := UInt32.lt_iff_toNat_lt.mp h
  have hmax : d.val.toNat < 0x110000 := by
    have hvalid := d.valid
    simp only [UInt32.isValidChar, Nat.isValidChar] at hvalid
    omega
  unfold utf8EncodeChar
  generalize c.val.toNat = m at hlt ⊢
  generalize d.val.toNat = n at hlt hmax ⊢
  dsimp only
  -- a character of more bytes has a greater first byte; of as many, the bytes are digits
  by_cases hone : n ≤ 127
  · rw [if_pos hone, if_pos (by omega)]
    exact below_first _ _ (by omega) hlt
  rw [if_neg hone]
  by_cases htwo : n ≤ 2047
  · rw [if_pos htwo]
    split
    · exact below_first _ _ (by omega) (by omega)
    · rw [if_pos (by omega)]
      refine below_cons (by omega) (by omega) fun hfirst => ?_
      exact below_first _ _ (by omega) (by omega)
  rw [if_neg htwo]
  by_cases hthree : n ≤ 65535
  · rw [if_pos hthree]
    split
    · exact below_first _ _ (by omega) (by omega)
    split
    · exact below_first _ _ (by omega) (by omega)
    · rw [if_pos (by omega)]
      refine below_cons (by omega) (by omega) fun hfirst => ?_
      refine below_cons (by omega) (by omega) fun hsecond => ?_
      exact below_first _ _ (by omega) (by omega)
  rw [if_neg hthree]
  split
  · exact below_first _ _ (by omega) (by omega)
  split
  · exact below_first _ _ (by omega) (by omega)
  split
  · exact below_first _ _ (by omega) (by omega)
  · refine below_cons (by omega) (by omega) fun hfirst => ?_
    refine below_cons (by omega) (by omega) fun hsecond => ?_
    refine below_cons (by omega) (by omega) fun hthird => ?_
    exact below_first _ _ (by omega) (by omega)

/-! ## Texts -/

theorem append_lt_append {us vs : List UInt8} (h : us < vs) : ∀ xs : List UInt8, xs ++ us < xs ++ vs
  | [] => h
  | _ :: xs => List.cons_lt_cons_iff.mpr (.inr ⟨rfl, append_lt_append h xs⟩)

theorem flatMap_encode_lt : ∀ {cs ds : List Char}, cs < ds →
    cs.flatMap utf8EncodeChar < ds.flatMap utf8EncodeChar
  | _, [], h => absurd h (List.not_lt_nil _)
  | [], d :: ds, _ => by
    rw [List.flatMap_nil, List.flatMap_cons]
    cases hd : utf8EncodeChar d with
    | nil =>
      have hsize := String.length_utf8EncodeChar d
      rw [hd] at hsize
      exact absurd hsize (Nat.ne_of_lt d.utf8Size_pos)
    | cons x xs => exact List.nil_lt_cons _ _
  | c :: cs, d :: ds, h => by
    rw [List.flatMap_cons, List.flatMap_cons]
    obtain hlt | ⟨rfl, hrest⟩ := List.cons_lt_cons_iff.mp h
    · exact (below_encode hlt).append_lt _ _
    · exact append_lt_append (flatMap_encode_lt hrest) _

/-- The bytes of a lesser text are less. -/
theorem bytes_lt {s t : String} (h : s < t) : bytes s < bytes t := by
  rw [bytes_eq, bytes_eq]
  exact flatMap_encode_lt (String.lt_iff_toList_lt.mp h)

theorem bytes_lt_iff {s t : String} : bytes s < bytes t ↔ s < t := by
  refine ⟨fun h => ?_, bytes_lt⟩
  rcases lt_trichotomy s t with hlt | rfl | hgt
  · exact hlt
  · exact absurd h (List.lt_irrefl _)
  · exact absurd h (List.lt_asymm (bytes_lt hgt))

/-- Texts of the same bytes are the same. -/
theorem bytes_inj {s t : String} : bytes s = bytes t ↔ s = t := by
  refine ⟨fun h => ?_, fun h => h ▸ rfl⟩
  rcases lt_trichotomy s t with hlt | heq | hgt
  · exact absurd (h ▸ bytes_lt hlt) (List.lt_irrefl _)
  · exact heq
  · exact absurd (h ▸ bytes_lt hgt) (List.lt_irrefl _)

end PegCompiler.Text
