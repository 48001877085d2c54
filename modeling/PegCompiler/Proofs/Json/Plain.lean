import Mathlib
import PegCompiler.Json.Shape
import PegCompiler.Json.Value
/-
  Plain values read as they are written. `Reads` says that a reader takes a text, with
  anything behind it that may stand behind a value, and gives the value that was written;
  every reader of texts, numbers and truth values has one lemma for it.

  Strings go character by character: what is written for a character is read as this
  character (`stringChars_escapedChar`), whatever was read before. Numbers go digit by
  digit, and the value gathered so far never exceeds that of all digits
  (`gatherWhole_of_le`), so no digit of a number that fits is dropped.
-/

namespace PegCompiler.Json

/-! ## Readers in sequence -/

namespace Reader

variable {α β : Type} {x : Reader α} {f : α → Reader β}

theorem bind_ok {text rest : List Char} {a : α} (h : x text = .ok (a, rest)) :
    (x >>= f) text = f a rest := by
  change (x text >>= fun p => f p.1 p.2) = _
  rw [h]
  rfl

theorem map_ok {text rest : List Char} {a : α} {g : α → β} (h : x text = .ok (a, rest)) :
    (g <$> x) text = .ok (g a, rest) := by
  rw [map_eq_pure_bind, bind_ok h]
  rfl

end Reader

theorem peek_cons {c : Char} (h : isSpace c = false) (rest : List Char) :
    peek (c :: rest) = .ok (some c, c :: rest) := by
  change Except.ok ((List.dropWhile isSpace (c :: rest)).head?,
    List.dropWhile isSpace (c :: rest)) = _
  rw [List.dropWhile_cons_of_neg (by rw [h]; decide)]
  rfl

theorem drop_cons (c : Char) (rest : List Char) : drop (c :: rest) = .ok ((), rest) := rfl

/-- Where a reader finds a character that is no space, it may look at it first. -/
theorem peek_bind {β : Type} {c : Char} (h : isSpace c = false) (rest : List Char)
    (f : Option Char → Reader β) : (peek >>= f) (c :: rest) = f (some c) (c :: rest) :=
  Reader.bind_ok (peek_cons h rest)

theorem drop_bind {β : Type} (c : Char) (rest : List Char) (f : Unit → Reader β) :
    (drop >>= f) (c :: rest) = f () rest :=
  Reader.bind_ok (drop_cons c rest)

theorem get_bind {β : Type} (text : List Char) (f : List Char → Reader β) :
    (get >>= f) text = f text text :=
  rfl

theorem word_append (cs rest : List Char) : word cs (cs ++ rest) = .ok ((), rest) := by
  induction cs with
  | nil => rfl
  | cons c cs ih =>
    change (if c == c then word cs else Reader.fault .expectedWord) (cs ++ rest) = _
    rw [if_pos (beq_self_eq_true c)]
    exact ih

/-! ## Texts of values -/

/-- Text behind a value: none, or what separates values or ends a construct. -/
def Terminated (rest : List Char) : Prop :=
  ∀ c ∈ rest.head?, c = ',' ∨ c = ']' ∨ c = '\x7d'

/-- A reader takes a text and gives a value, whatever stands behind the text. -/
def Reads {α : Type} (read : Reader α) (text : List Char) (a : α) : Prop :=
  ∀ rest, Terminated rest → read (text ++ rest) = .ok (a, rest)

/-- A text starts with a character that is no space and ends no array, and does not start
like null. -/
def Opens (text : List Char) : Prop :=
  ∃ c rest, text = c :: rest ∧ isSpace c = false ∧ c ≠ ']' ∧ c ≠ 'n'

theorem terminated_nil : Terminated [] := fun _ h => nomatch h

theorem terminated_cons {c : Char} (h : c = ',' ∨ c = ']' ∨ c = '\x7d') (rest : List Char) :
    Terminated (c :: rest) := by
  rintro d ⟨⟩
  exact h

theorem Opens.append {text : List Char} (h : Opens text) (rest : List Char) :
    ∃ c more, text ++ rest = c :: more ∧ isSpace c = false ∧ c ≠ ']' ∧ c ≠ 'n' := by
  obtain ⟨c, more, rfl, hc⟩ := h
  exact ⟨c, more ++ rest, rfl, hc⟩

namespace Reads

variable {α β : Type} {read : Reader α} {text : List Char} {a : α}

theorem map (h : Reads read text a) (g : α → β) : Reads (g <$> read) text (g a) :=
  fun rest hrest => Reader.map_ok (h rest hrest)

/-- A reader that only looks at the value another gives. -/
theorem bind {f : α → Reader β} {b : β} (h : Reads read text a)
    (hf : ∀ rest, f a rest = .ok (b, rest)) : Reads (read >>= f) text b := by
  intro rest hrest
  rw [Reader.bind_ok (h rest hrest), hf]

theorem whole {s : String} (h : Reads read s.toList a) : Json.whole read s = .ok a := by
  have hread := h [] terminated_nil
  rw [List.append_nil] at hread
  unfold Json.whole
  change Prod.fst <$> StateT.run _ s.toList = _
  rw [show StateT.run _ s.toList = _ from Reader.bind_ok hread]
  rfl

end Reads

/-! ## Strings -/

/-- Small codes as they are written in hexadecimal digits. -/
theorem hexFour_of_lt : ∀ n < 0x20, hexFour '0' '0' (hexDigit (n / 16)) (hexDigit n) = some n := by
  decide

/-- What is written for a character is read as this character. -/
theorem stringChars_escapedChar (done : List Char) (c : Char) (rest : List Char) :
    stringChars done (escapedChar c ++ rest) = stringChars (c :: done) rest := by
  unfold escapedChar
  by_cases hquote : c = '"'
  · subst hquote
    simp [stringChars, shortEscape]
  by_cases hbackslash : c = '\\'
  · subst hbackslash
    simp [stringChars, shortEscape]
  by_cases hnewline : c = '\n'
  · subst hnewline
    simp [stringChars, shortEscape]
  by_cases hreturn : c = '\r'
  · subst hreturn
    simp [stringChars, shortEscape]
  by_cases htab : c = '\t'
  · subst htab
    simp [stringChars, shortEscape]
  by_cases hbackspace : c.toNat = 8
  · obtain rfl : c = Char.ofNat 8 := by rw [← hbackspace, Char.ofNat_toNat]
    simp [stringChars, shortEscape]
  by_cases hfeed : c.toNat = 12
  · obtain rfl : c = Char.ofNat 12 := by rw [← hfeed, Char.ofNat_toNat]
    simp [stringChars, shortEscape]
  simp only [beq_iff_eq, hquote, hbackslash, hnewline, hreturn, htab, hbackspace, hfeed, if_false]
  by_cases hcontrol : c.toNat < 0x20
  · have htrailing : isTrailing c.toNat = false := by unfold isTrailing; simp; omega
    have hleading : isLeading c.toNat = false := by unfold isLeading; simp; omega
    rw [if_pos hcontrol]
    simp only [List.cons_append, List.nil_append]
    rw [stringChars, hexFour_of_lt c.toNat hcontrol]
    simp only [htrailing, hleading, Char.ofNat_toNat]
    rfl
  · rw [if_neg hcontrol]
    simp [stringChars, hbackslash, hcontrol]

theorem stringChars_escaped (s : List Char) : ∀ (done rest : List Char),
    stringChars done (s.flatMap escapedChar ++ '"' :: rest) =
      .ok (String.ofList (done.reverse ++ s), rest) := by
  induction s with
  | nil =>
    intro done rest
    rw [List.append_nil]
    rfl
  | cons c s ih =>
    intro done rest
    rw [List.flatMap_cons, List.append_assoc, stringChars_escapedChar, ih, List.reverse_cons,
      List.append_assoc]
    rfl

/-- A string behind its opening quote, with anything behind it. -/
theorem stringBody_stringText (s : String) (rest : List Char) :
    stringBody (s.toList.flatMap escapedChar ++ '"' :: rest) = .ok (s, rest) := by
  change stringChars [] _ = _
  rw [stringChars_escaped, List.reverse_nil, List.nil_append, String.ofList_toList]

theorem stringText_append (s : String) (rest : List Char) :
    stringText s ++ rest = '"' :: (s.toList.flatMap escapedChar ++ '"' :: rest) := by
  rw [stringText, List.cons_append, List.append_assoc]
  rfl

theorem opens_string (s : String) : Opens (Json.string s).text :=
  ⟨'"', _, by rw [Json.text, stringText], by decide, by decide, by decide⟩

theorem reads_text (expected : String) (s : String) :
    Reads (text? expected) (Json.string s).text s := by
  intro rest _
  rw [Json.text, stringText_append]
  unfold text?
  rw [peek_bind (by decide)]
  change (drop >>= fun _ => stringBody) _ = _
  rw [drop_bind, stringBody_stringText]

theorem reads_textValue (s : String) : Reads textValue (Json.string s).text s :=
  reads_text _ s

theorem reads_charValue (c : Char) :
    Reads charValue (Json.string (String.ofList [c])).text c := by
  refine (reads_text "a character" (String.ofList [c])).bind ?_
  intro rest
  rw [String.toList_ofList]
  rfl

/-! ## Truth values and null -/

theorem reads_boolValue (b : Bool) : Reads boolValue (Json.bool b).text b := by
  intro rest _
  unfold boolValue
  cases b with
  | true =>
    rw [Json.text, List.cons_append, peek_bind (by decide)]
    exact Reader.bind_ok (word_append ['t', 'r', 'u', 'e'] rest)
  | false =>
    rw [Json.text, List.cons_append, peek_bind (by decide)]
    exact Reader.bind_ok (word_append ['f', 'a', 'l', 's', 'e'] rest)

theorem reads_nullable_none {α : Type} (read : Reader α) :
    Reads (nullable read) Json.null.text none := by
  intro rest _
  unfold nullable
  rw [Json.text, List.cons_append, peek_bind (by decide)]
  exact Reader.bind_ok (word_append ['n', 'u', 'l', 'l'] rest)

theorem Reads.nullable {α : Type} {read : Reader α} {text : List Char} {a : α}
    (h : Reads read text a) (hopens : Opens text) : Reads (Json.nullable read) text (some a) := by
  intro rest hrest
  obtain ⟨c, more, htext, hspace, -, hnull⟩ := hopens.append rest
  have hread := h rest hrest
  unfold Json.nullable
  rw [htext] at hread ⊢
  rw [peek_bind hspace]
  refine (congrFun (?_ : _ = read >>= fun value => pure (some value)) _).trans
    (Reader.bind_ok hread)
  split
  · next heq => exact absurd (Option.some.inj heq) hnull
  · rfl

/-! ## Numbers -/

/-- Digits are gathered without loss as long as their value fits. -/
theorem gatherWhole_of_le (ds : List Char) : ∀ (s : Nat) (e : Int),
    Nat.ofDigitChars 10 ds s ≤ maxSignificand →
      gatherWhole s e false ds = (Nat.ofDigitChars 10 ds s, e) := by
  induction ds with
  | nil =>
    intro s e _
    rfl
  | cons d ds ih =>
    intro s e h
    have hnext : 10 * s + (d.toNat - '0'.toNat) ≤ maxSignificand := by
      refine le_trans ?_ h
      change _ ≤ Nat.ofDigitChars 10 ds (10 * s + (d.toNat - '0'.toNat))
      rw [Nat.ofDigitChars_eq_ofDigitChars_zero]
      have hpow : 0 < 10 ^ ds.length := by positivity
      nlinarith [Nat.zero_le (Nat.ofDigitChars 10 ds 0)]
    rw [gatherWhole]
    simp only [Bool.false_or, decide_eq_true_eq, if_neg (not_lt.mpr hnext), gt_iff_lt]
    exact ih _ _ h

theorem value_ofNat {n : Nat} (h : n ≤ maxSignificand) : (Number.ofNat n).value = .unsigned n := by
  have hdigits : Nat.ofDigitChars 10 (Nat.toDigits 10 n) 0 = n := Nat.ofDigitChars_ten_toDigits
  have hgather := gatherWhole_of_le (Nat.toDigits 10 n) 0 0 (by rw [hdigits]; exact h)
  rw [hdigits] at hgather
  unfold Number.value Number.ofNat
  simp only [hgather]
  rfl

theorem isDigit_of_mem_toDigits {n : Nat} {c : Char} (h : c ∈ Nat.toDigits 10 n) :
    isDigit c = true := by
  have hdigit := Nat.isDigit_of_mem_toDigits (by decide) (by decide) h
  rw [Char.isDigit, Bool.and_eq_true, decide_eq_true_eq, decide_eq_true_eq] at hdigit
  rw [isDigit, Bool.and_eq_true, decide_eq_true_eq, decide_eq_true_eq]
  exact hdigit

/-- Only the number 0 is written with a zero in front. -/
theorem head_toDigits (n : Nat) : n = 0 ∨ (Nat.toDigits 10 n).head? ≠ some '0' := by
  induction n using Nat.strongRecOn with
  | _ n ih =>
    by_cases hn : n < 10
    · have hsmall : ∀ n < 10, n = 0 ∨ [Nat.digitChar n].head? ≠ some '0' := by decide
      rw [Nat.toDigits_of_lt_base hn]
      exact hsmall n hn
    · right
      rw [Nat.toDigits_of_base_le (by decide) (not_lt.mp hn)]
      rcases ih (n / 10) (by omega) with hzero | hhead
      · omega
      · rwa [List.head?_append_of_ne_nil _ Nat.toDigits_ne_nil]

/-- Behind a number no digit, point or exponent follows. -/
theorem not_number_of_terminated {rest : List Char} (h : Terminated rest) {c : Char}
    (hc : c ∈ rest.head?) : isDigit c = false ∧ c ≠ '.' ∧ c ≠ 'e' ∧ c ≠ 'E' := by
  rcases h c hc with rfl | rfl | rfl <;> decide

theorem digits_append {ds rest : List Char} (hds : ∀ c ∈ ds, isDigit c = true)
    (hrest : Terminated rest) : digits (ds ++ rest) = .ok (ds, rest) := by
  have htake : List.takeWhile isDigit rest = [] ∧ List.dropWhile isDigit rest = rest := by
    cases rest with
    | nil => exact ⟨rfl, rfl⟩
    | cons c rest =>
      have hc := (not_number_of_terminated hrest (Option.mem_some.mpr rfl)).1
      exact ⟨List.takeWhile_cons_of_neg (by rw [hc]; decide),
        List.dropWhile_cons_of_neg (by rw [hc]; decide)⟩
  change Except.ok (List.takeWhile isDigit (ds ++ rest), List.dropWhile isDigit (ds ++ rest)) = _
  rw [List.takeWhile_append_of_pos hds, List.dropWhile_append_of_pos hds, htake.1, htake.2,
    List.append_nil]

/-- The first digit of a number. -/
theorem toDigits_eq_cons (n : Nat) : ∃ d ds, Nat.toDigits 10 n = d :: ds ∧ isDigit d = true := by
  obtain ⟨d, ds, hds⟩ := List.exists_cons_of_ne_nil (Nat.toDigits_ne_nil (n := n) (b := 10))
  refine ⟨d, ds, hds, isDigit_of_mem_toDigits (n := n) ?_⟩
  rw [hds]
  exact List.mem_cons_self

theorem someDigits_toDigits (n : Nat) {rest : List Char} (hrest : Terminated rest) :
    someDigits (Nat.toDigits 10 n ++ rest) = .ok (Nat.toDigits 10 n, rest) := by
  obtain ⟨d, ds, hds, hd⟩ := toDigits_eq_cons n
  have hall := digits_append (fun c hc => isDigit_of_mem_toDigits (n := n) hc) hrest
  rw [hds] at hall ⊢
  change (if isDigit d then digits else drop >>= fun _ => Reader.fault .number)
    (d :: ds ++ rest) = _
  rw [if_pos hd]
  exact hall

theorem wholeDigits_of_head {text : List Char} (h : text.head? ≠ some '0') :
    wholeDigits text = someDigits text := by
  cases text with
  | nil => rfl
  | cons c rest =>
    unfold wholeDigits
    rw [get_bind]
    refine congrFun (?_ : _ = someDigits) _
    split
    · next heq => exact absurd (congrArg some (List.cons.inj heq).1) h
    · rfl

theorem wholeDigits_toDigits (n : Nat) {rest : List Char} (hrest : Terminated rest) :
    wholeDigits (Nat.toDigits 10 n ++ rest) = .ok (Nat.toDigits 10 n, rest) := by
  rcases head_toDigits n with rfl | hhead
  · cases rest with
    | nil => exact someDigits_toDigits 0 hrest
    | cons c rest =>
      have hc := (not_number_of_terminated hrest (Option.mem_some.mpr rfl)).1
      change (if isDigit c then Reader.faultAhead .number else pure ['0']) (c :: rest) = _
      rw [hc]
      rfl
  · rw [wholeDigits_of_head]
    · exact someDigits_toDigits n hrest
    · rwa [List.head?_append_of_ne_nil _ Nat.toDigits_ne_nil]

theorem fractionDigits_terminated {rest : List Char} (hrest : Terminated rest) :
    fractionDigits rest = .ok ([], rest) := by
  cases rest with
  | nil => rfl
  | cons c rest =>
    have hpoint := (not_number_of_terminated hrest (Option.mem_some.mpr rfl)).2.1
    unfold fractionDigits
    rw [get_bind]
    refine congrFun (?_ : _ = (pure [] : Reader (List Char))) _
    split
    · next heq => exact absurd (List.cons.inj heq).1 hpoint
    · rfl

theorem exponentDigits_terminated {rest : List Char} (hrest : Terminated rest) :
    exponentDigits rest = .ok (none, rest) := by
  cases rest with
  | nil => rfl
  | cons c rest =>
    obtain ⟨-, -, hlower, hupper⟩ := not_number_of_terminated hrest (Option.mem_some.mpr rfl)
    have hletter : (c == 'e' || c == 'E') = false := by
      rw [Bool.or_eq_false_iff, beq_eq_false_iff_ne, beq_eq_false_iff_ne]
      exact ⟨hlower, hupper⟩
    have hif : ∀ x : Reader (Option (Bool × List Char)),
        (if (c == 'e' || c == 'E') = true then x else pure none) = pure none := by
      intro x
      rw [hletter]
      rfl
    exact congrFun (hif _) (c :: rest)

theorem numberToken_toDigits (n : Nat) {rest : List Char} (hrest : Terminated rest) :
    numberToken (Nat.toDigits 10 n ++ rest) = .ok (.ofNat n, rest) := by
  have hsign : ((Nat.toDigits 10 n ++ rest).head? == some '-') = false := by
    obtain ⟨d, ds, hds, hd⟩ := toDigits_eq_cons n
    rw [hds, List.cons_append, List.head?_cons, Option.some_beq_some, beq_eq_false_iff_ne]
    rintro rfl
    exact absurd hd (by decide)
  unfold numberToken
  change (if ((Nat.toDigits 10 n ++ rest).head? == some '-') = true then (_ : Reader Number)
    else _) _ = _
  rw [hsign]
  change (wholeDigits >>= fun whole => fractionDigits >>= fun fraction => exponentDigits >>=
    fun exponent => pure (Number.mk false whole fraction exponent)) _ = _
  rw [Reader.bind_ok (wholeDigits_toDigits n hrest),
    Reader.bind_ok (fractionDigits_terminated hrest),
    Reader.bind_ok (exponentDigits_terminated hrest)]
  rfl

/-- The text of a number starts with a digit. -/
theorem text_nat (n : Nat) : (nat n).text = Nat.toDigits 10 n := by
  rw [nat, Json.text, Number.ofNat, Number.text]
  simp

theorem not_isSpace_of_isDigit {d : Char} (hd : isDigit d = true) : isSpace d = false := by
  rw [Bool.eq_false_iff]
  intro hspace
  simp only [isSpace, Bool.or_eq_true, beq_iff_eq] at hspace
  rcases hspace with ((rfl | rfl) | rfl) | rfl <;> exact absurd hd (by decide)

theorem opens_nat (n : Nat) : Opens (nat n).text := by
  obtain ⟨d, ds, hds, hd⟩ := toDigits_eq_cons n
  refine ⟨d, ds, by rw [text_nat, hds], not_isSpace_of_isDigit hd, ?_, ?_⟩
  · rintro rfl
    exact absurd hd (by decide)
  · rintro rfl
    exact absurd hd (by decide)

theorem reads_natValue {limit n : Nat} (hlimit : limit ≤ UInt64.size) (hn : n < limit)
    (expected : String) : Reads (natValue limit expected) (nat n).text n := by
  intro rest hrest
  have hvalue : (Number.ofNat n).value = .unsigned n :=
    value_ofNat (Nat.le_sub_one_of_lt (lt_of_lt_of_le hn hlimit))
  have hnumber := numberToken_toDigits n hrest
  obtain ⟨d, ds, hds, hd⟩ := toDigits_eq_cons n
  rw [text_nat]
  rw [hds, List.cons_append] at hnumber ⊢
  unfold natValue
  rw [peek_bind (not_isSpace_of_isDigit hd)]
  have hdigit : (d == '-' || isDigit d) = true := by rw [hd, Bool.or_true]
  simp only [hdigit, if_true]
  rw [Reader.bind_ok hnumber]
  simp only [hvalue, if_pos hn]
  rfl

theorem reads_wordValue (n : UInt32) : Reads wordValue (nat n.toNat).text n := by
  have h : Reads (natValue UInt32.size "u32") (nat n.toNat).text n.toNat :=
    reads_natValue (by decide) n.toNat_lt "u32"
  refine h.bind fun rest => ?_
  rw [UInt32.ofNat_toNat]
  rfl

theorem reads_sizeValue (n : UInt64) : Reads sizeValue (nat n.toNat).text n := by
  have h : Reads (natValue UInt64.size "usize") (nat n.toNat).text n.toNat :=
    reads_natValue (le_refl _) n.toNat_lt "usize"
  refine h.bind fun rest => ?_
  rw [UInt64.ofNat_toNat]
  rfl

end PegCompiler.Json
