import PegCompiler.Text.Quoted
/-
  Quoted texts are read back. One reader does for both notations (`readUntil`): it takes
  characters and their escapes up to a character that ends the text. What a character is
  written as, in double quotes or in a class, is read as that character, whatever follows.
-/

namespace PegCompiler.Text

/-- The character that a backslash and a character stand for. -/
def unescape : Char → Char
  | 'n' => '\n'
  | 'r' => '\r'
  | 't' => '\t'
  | '0' => '\x00'
  | c => c

/-- The value of a hexadecimal digit. -/
def hexValue (c : Char) : Nat :=
  ((List.range 16).find? fun d => Nat.digitChar d == c).getD 0

/-- One more character in front of those that were read. -/
def behind (c : Char) (r : List Char × List Char) : List Char × List Char :=
  (c :: r.1, r.2)

mutual

/-- The characters up to one that ends the text, and what stands behind it. -/
def readUntil (stop : Char) : List Char → Option (List Char × List Char)
  | [] => none
  | '\\' :: 'u' :: '\x7b' :: cs => readCode stop 0 cs
  | '\\' :: c :: cs => (readUntil stop cs).map (behind (unescape c))
  | c :: cs => if c == stop then some ([], cs) else (readUntil stop cs).map (behind c)

/-- The same behind the beginning of a code. -/
def readCode (stop : Char) (code : Nat) : List Char → Option (List Char × List Char)
  | [] => none
  | '\x7d' :: cs => (readUntil stop cs).map (behind (Char.ofNat code))
  | c :: cs => readCode stop (16 * code + hexValue c) cs

end

section
variable {stop : Char}

theorem readUntil_stop (hstop : stop ≠ '\\') (rest : List Char) :
    readUntil stop (stop :: rest) = some ([], rest) := by
  rw [readUntil]
  · simp
  · rintro _ rfl
    exact absurd rfl hstop
  · rintro _ _ rfl
    exact absurd rfl hstop

theorem readUntil_plain {c : Char} (hc : c ≠ '\\') (hstop : c ≠ stop) (rest : List Char) :
    readUntil stop (c :: rest) = (readUntil stop rest).map (behind c) := by
  rw [readUntil]
  · rw [if_neg (by simpa using hstop)]
  · rintro _ rfl
    exact absurd rfl hc
  · rintro _ _ rfl
    exact absurd rfl hc

theorem readUntil_escape {c : Char} (hc : c ≠ 'u') (rest : List Char) :
    readUntil stop ('\\' :: c :: rest) = (readUntil stop rest).map (behind (unescape c)) := by
  rw [readUntil]
  rintro _ rfl
  exact absurd rfl hc

/-- A character is read from the escape that stands for it. -/
theorem readUntil_given {c d e : Char} (h : c = d) (he : e ≠ 'u') (hd : unescape e = d)
    (rest : List Char) :
    readUntil stop (['\\', e] ++ rest) = (readUntil stop rest).map (behind c) := by
  rw [h, ← hd]
  exact readUntil_escape he rest

/-- Digits are added to the code. -/
theorem readCode_digit (code : Nat) {d : Nat} (hd : d < 16) (rest : List Char) :
    readCode stop code (Nat.digitChar d :: rest) = readCode stop (16 * code + d) rest := by
  have hdigit : ∀ d < 16, Nat.digitChar d ≠ '\x7d' ∧ hexValue (Nat.digitChar d) = d := by decide
  obtain ⟨hclose, hvalue⟩ := hdigit d hd
  rw [readCode, hvalue]
  exact fun h => absurd h hclose

theorem readCode_digits (n : Nat) : ∀ rest : List Char,
    readCode stop 0 (Nat.toDigits 16 n ++ rest) = readCode stop n rest := by
  induction n using Nat.strongRecOn with
  | ind n ih =>
    intro rest
    by_cases hn : n < 16
    · rw [Nat.toDigits_of_lt_base hn, List.singleton_append, readCode_digit 0 hn, Nat.mul_zero,
        Nat.zero_add]
    · rw [Nat.toDigits_of_base_le (by decide) (Nat.le_of_not_lt hn), List.append_assoc,
        ih (n / 16) (Nat.div_lt_self (by omega) (by decide)), List.singleton_append,
        readCode_digit _ (Nat.mod_lt n (by decide)), Nat.div_add_mod]

theorem readUntil_code (c : Char) (rest : List Char) :
    readUntil stop (codeEscape c ++ rest) = (readUntil stop rest).map (behind c) := by
  have hcode : codeEscape c ++ rest =
      '\\' :: 'u' :: '\x7b' :: (Nat.toDigits 16 c.toNat ++ '\x7d' :: rest) := by
    simp [codeEscape]
  rw [hcode, readUntil, readCode_digits, readCode, Char.ofNat_toNat]

/-! ## The two notations -/

theorem readUntil_quotedChar (c : Char) (rest : List Char) :
    readUntil '"' (quotedChar c ++ rest) = (readUntil '"' rest).map (behind c) := by
  unfold quotedChar
  split
  next h => exact readUntil_given (beq_iff_eq.mp h) (by decide) rfl rest
  next hquote =>
  split
  next h => exact readUntil_given (beq_iff_eq.mp h) (by decide) rfl rest
  next hslash =>
  have hplain : readUntil '"' ([c] ++ rest) = (readUntil '"' rest).map (behind c) :=
    readUntil_plain (by simpa using hslash) (by simpa using hquote) rest
  split
  next h => exact readUntil_given (beq_iff_eq.mp h) (by decide) rfl rest
  split
  next h => exact readUntil_given (beq_iff_eq.mp h) (by decide) rfl rest
  split
  next h => exact readUntil_given (beq_iff_eq.mp h) (by decide) rfl rest
  split
  next h => exact readUntil_given (Char.toNat_inj.mp (beq_iff_eq.mp h)) (by decide) rfl rest
  split
  next => exact hplain
  split
  next => exact readUntil_code c rest
  next => exact hplain

/-- A character of a class is read where it does not end the class. -/
theorem readUntil_escapedChar {c : Char} (hc : c ≠ ']') (rest : List Char) :
    readUntil ']' (escapedChar c ++ rest) = (readUntil ']' rest).map (behind c) := by
  unfold escapedChar
  split
  next h => exact readUntil_given (beq_iff_eq.mp h) (by decide) rfl rest
  split
  next h => exact readUntil_given (beq_iff_eq.mp h) (by decide) rfl rest
  split
  next h => exact readUntil_given (beq_iff_eq.mp h) (by decide) rfl rest
  split
  next h => exact readUntil_given (beq_iff_eq.mp h) (by decide) rfl rest
  split
  next h => exact readUntil_given (beq_iff_eq.mp h) (by decide) rfl rest
  split
  next h => exact readUntil_given (beq_iff_eq.mp h) (by decide) rfl rest
  next hslash =>
  split
  next => exact readUntil_plain (by simpa using hslash) hc rest
  next => exact readUntil_code c rest

/-- A text of characters each of which is read is read up to its end. -/
theorem readUntil_flatMap {write : Char → List Char} (hstop : stop ≠ '\\') : ∀ {cs : List Char},
    (∀ c ∈ cs, ∀ rest, readUntil stop (write c ++ rest) = (readUntil stop rest).map (behind c)) →
    ∀ rest, readUntil stop (cs.flatMap write ++ stop :: rest) = some (cs, rest)
  | [], _, rest => readUntil_stop hstop rest
  | c :: cs, h, rest => by
    obtain ⟨hc, hcs⟩ := List.forall_mem_cons.mp h
    rw [List.flatMap_cons, List.append_assoc, hc, readUntil_flatMap hstop hcs]
    rfl

/-- A text in double quotes is read back. -/
theorem readUntil_quoted (s : String) (rest : List Char) :
    readUntil '"' (s.toList.flatMap quotedChar ++ '"' :: rest) = some (s.toList, rest) :=
  readUntil_flatMap (by decide) (fun c _ => readUntil_quotedChar c) rest

/-- The characters of a class are read back, unless one of them seems to end it. -/
theorem readUntil_escaped {cs : List Char} (h : ']' ∉ cs) (rest : List Char) :
    readUntil ']' (cs.flatMap escapedChar ++ ']' :: rest) = some (cs, rest) :=
  readUntil_flatMap (by decide)
    (fun c hc => readUntil_escapedChar fun he => h (he ▸ hc)) rest

end

end PegCompiler.Text
