import PegCompiler.Proofs.Resolved.Matchers
import PegCompiler.Proofs.Resolved.Reader
/-
  What can be read in PEG notation. A matcher is `Readable` if its names are words, its
  classes are clear, and only atoms are repeated, the end of the input not being one: it is
  written with a sign in front. A class is clear (`ClearClass`) if none of its characters
  looks like a sign of the class at its place. Names, numbers, classes, calls and values are
  then read as they were written, whatever stands behind them.
-/

namespace PegCompiler

namespace Resolved

open Layout (Doc)

/-! ## What can be read -/

/-- The characters that a test is written with, without their escapes. -/
def ClassTest.letters : ClassTest → List Char
  | .set chars => chars.toList
  | .range bottom top => [bottom, '-', top]

/-- None of the tests begins with a hyphen, but a hyphen may be the last of them. -/
def Parted : List ClassTest → Prop
  | [] => True
  | [t] => t = .set (String.ofList ['-']) ∨ t.letters.head? ≠ some '-'
  | t :: rest => t.letters.head? ≠ some '-' ∧ Parted rest

/-- A hyphen that is no sign of a range is the first or the last character of its class, and no
character is the bracket that closes the class. -/
structure ClearClass (tests : List ClassTest) : Prop where
  hyphens : Parted (tests.flatMap ClassTest.singles).tail
  bracket : ']' ∉ tests.flatMap ClassTest.letters

/-- The names of a call are words. -/
structure ActionCall.Readable (call : ActionCall) : Prop where
  function : IsWord call.function
  args : ∀ arg ∈ call.args, IsWord arg

/-- The names of a value are words, and one name is not several. -/
def AltResult.Readable : AltResult → Prop
  | .consumed => True
  | .capture var => IsWord var
  | .concat vars => 2 ≤ vars.length ∧ ∀ var ∈ vars, IsWord var
  | .action call => call.Readable

/-- An element is captured into a word, and by its value if it has one. -/
structure Element.Readable (e : Element) : Prop where
  var : ∀ c, e.capture = some c → IsWord c.var
  source : ∀ c, e.capture = some c → c.source = e.matcher.source

/-- The value and the captures of a row can be read. -/
structure Alternative.Readable (a : Alternative) : Prop where
  result : a.result.Readable
  elements : ∀ e ∈ a.elements, e.Readable

/-- A matcher without signs in front or behind. -/
def Matcher.isAtom : Matcher → Bool
  | .literal _ | .class _ | .anyChar | .call _ | .choice _ => true
  | .endOfInput | .repeat .. | .lookahead .. | .predicate .. => false

/-- What an expression becomes: an atom or the end of the input. -/
def Matcher.isUnit : Matcher → Bool
  | .endOfInput => true
  | m => m.isAtom

/-- A number as a bound. -/
def Bound.isCount : Bound → Bool
  | .count _ => true
  | .code _ => false

/-- A matcher can be read, if those in it can. -/
def Matcher.Readable : Matcher → Prop
  | .class tests => ClearClass tests
  | .call target => IsWord target.rule
  | .choice c => c.alternatives ≠ [] ∧ ∀ a ∈ c.alternatives, a.Readable
  | .repeat body min max separator => body.isAtom = true ∧ min.isCount = true ∧
      (∀ b, max = some b → b.isCount = true) ∧
      ∀ s, separator = some s → s.isUnit = true ∧ max = some min
  | .predicate _ condition => condition.Readable
  | .literal _ | .anyChar | .endOfInput | .lookahead _ _ => True

/-! ## Names and numbers -/

/-- A name ends in front of a text. -/
def Parts (rest : List Char) : Prop :=
  ∀ c, rest.head? = some c → isSign c = true

theorem parts_cons {c : Char} (h : isSign c = true) (rest : List Char) : Parts (c :: rest) := by
  intro d hd
  obtain rfl := Option.some.inj hd
  exact h

theorem takeWhile_of_head {kind : Char → Bool} {cs : List Char}
    (h : ∀ c, cs.head? = some c → kind c = false) :
    cs.takeWhile kind = [] ∧ cs.dropWhile kind = cs := by
  cases cs with
  | nil => exact ⟨rfl, rfl⟩
  | cons c cs =>
    have hc : ¬ kind c = true := by simpa using h c rfl
    exact ⟨List.takeWhile_cons_of_neg hc, List.dropWhile_cons_of_neg hc⟩

theorem readWord_word {s : String} (h : IsWord s) {rest : List Char} (hrest : Parts rest) :
    readWord (s.toList ++ rest) = some (s, rest) := by
  have hchars : ∀ c ∈ s.toList, (!isSign c) = true := fun c hc => by rw [h.chars c hc]; rfl
  have hends : ∀ c, rest.head? = some c → (!isSign c) = false := fun c hc => by
    rw [hrest c hc]
    rfl
  obtain ⟨htake, hdrop⟩ := takeWhile_of_head hends
  unfold readWord
  rw [List.takeWhile_append_of_pos hchars, List.dropWhile_append_of_pos hchars, htake, hdrop,
    List.append_nil]
  cases hs : s.toList with
  | nil => exact absurd hs h.ne_nil
  | cons c cs =>
    show some (String.ofList (c :: cs), rest) = _
    rw [← hs, String.ofList_toList]

theorem readWord_sign {c : Char} (h : isSign c = true) (rest : List Char) :
    readWord (c :: rest) = none := by
  unfold readWord
  rw [List.takeWhile_cons_of_neg (by simp [h])]

theorem readNumber_digits (n : Nat) {rest : List Char}
    (hrest : ∀ c, rest.head? = some c → c.isDigit = false) :
    readNumber ((toString n).toList ++ rest) = some (n, rest) := by
  have hdigits : ∀ c ∈ Nat.toDigits 10 n, c.isDigit = true := fun c hc =>
    Nat.isDigit_of_mem_toDigits (by decide) (by decide) hc
  obtain ⟨htake, hdrop⟩ := takeWhile_of_head hrest
  unfold readNumber
  rw [Nat.toString_eq_ofList_toDigits, String.toList_ofList, List.takeWhile_append_of_pos hdigits,
    List.dropWhile_append_of_pos hdigits, htake, hdrop, List.append_nil,
    Nat.ofDigitChars_ten_toDigits]

theorem readWords_join (sep : Doc) (hsep : ∀ rest, Parts (sep.chars ++ rest)) {rest : List Char}
    (hrest : Parts rest) (hends : sep.chars.isPrefixOf? rest = none) :
    ∀ {words : List String} {depth : Nat}, words ≠ [] → (∀ word ∈ words, IsWord word) →
      words.length ≤ depth →
      readWords sep.chars depth ((Doc.join sep (words.map .text)).chars ++ rest) =
        some (words, rest)
  | [word], 0, _, _, hdepth => nomatch hdepth
  | [word], depth + 1, _, hwords, _ => by
    rw [readWords, List.map_singleton, Doc.chars_join_single, Doc.chars_text,
      readWord_word (hwords word (List.mem_singleton_self _)) hrest, Option.bind_some]
    simp only [hends]
  | word :: next :: words, 0, _, _, hdepth => nomatch hdepth
  | word :: next :: words, depth + 1, _, hwords, hdepth => by
    obtain ⟨hword, hwords⟩ := List.forall_mem_cons.mp hwords
    have ih := readWords_join sep hsep hrest hends (List.cons_ne_nil next words) hwords
      (Nat.le_of_succ_le_succ hdepth)
    have hskip : ∀ cs, sep.chars.isPrefixOf? (sep.chars ++ cs) = some cs := fun cs =>
      List.isPrefixOf?_eq_some_iff_append_eq.mpr rfl
    rw [List.map_cons] at ih
    rw [readWords, List.map_cons, List.map_cons, Doc.chars_join_cons, Doc.chars_text,
      List.append_assoc, List.append_assoc, readWord_word hword (hsep _), Option.bind_some]
    simp only [hskip, ih, Option.map_some]

theorem length_le_sizeOf : ∀ words : List String, words.length ≤ sizeOf words
  | [] => Nat.zero_le _
  | word :: words => by
    have ih := length_le_sizeOf words
    rw [List.length_cons, List.cons.sizeOf_spec]
    omega

/-! ## Classes -/

theorem toList_shown (t : ClassTest) : t.shown.toList = t.letters.flatMap Text.escapedChar := by
  cases t with
  | set chars => exact String.toList_ofList
  | range bottom top =>
    simp only [ClassTest.shown, ClassTest.letters, Text.escaped, String.toList_append,
      String.toList_ofList, List.flatMap_cons, List.flatMap_nil, List.append_nil,
      List.append_assoc]
    rfl

theorem chars_class (tests : List ClassTest) : (Matcher.class tests).doc.chars =
    '[' :: ((tests.flatMap ClassTest.letters).flatMap Text.escapedChar ++ [']']) := by
  have hjoin : (String.join (tests.map ClassTest.shown)).toList =
      (tests.flatMap ClassTest.letters).flatMap Text.escapedChar := by
    rw [String.toList_join, List.flatMap_map, List.flatMap_assoc]
    exact List.flatMap_congr fun t _ => toList_shown t
  rw [Matcher.doc, Doc.chars_mark, String.toList_append, String.toList_append, hjoin]
  rfl

/-- Tested one by one, a class has the same characters. -/
theorem letters_singles (tests : List ClassTest) :
    (tests.flatMap ClassTest.singles).flatMap ClassTest.letters =
      tests.flatMap ClassTest.letters := by
  rw [List.flatMap_assoc]
  refine List.flatMap_congr fun t _ => ?_
  cases t with
  | range bottom top => exact List.append_nil _
  | set chars =>
    have hone : ∀ c, ClassTest.letters (.set (String.ofList [c])) = [c] :=
      fun _ => String.toList_ofList
    rw [ClassTest.singles, List.flatMap_map, ClassTest.letters]
    simp only [hone, List.flatMap_singleton']

/-- A test of one character, or a range. -/
def ClassTest.IsSingle : ClassTest → Prop
  | .set chars => ∃ c, chars = String.ofList [c]
  | .range _ _ => True

theorem isSingle_singles {tests : List ClassTest} :
    ∀ t ∈ tests.flatMap ClassTest.singles, t.IsSingle := by
  intro t ht
  obtain ⟨u, -, ht⟩ := List.mem_flatMap.mp ht
  cases u with
  | range bottom top =>
    obtain rfl := List.mem_singleton.mp ht
    exact trivial
  | set chars =>
    obtain ⟨c, -, rfl⟩ := List.mem_map.mp ht
    exact ⟨c, rfl⟩

theorem ClassTest.IsSingle.letters_ne {t : ClassTest} (h : t.IsSingle)
    (hhead : t.letters.head? ≠ some '-') (rest more : List Char) :
    t.letters ++ rest ≠ '-' :: more := by
  cases t with
  | range bottom top => exact fun he => hhead (congrArg some (List.cons.inj he).1)
  | set chars =>
    obtain ⟨c, rfl⟩ := h
    have hletters : ClassTest.letters (.set (String.ofList [c])) = [c] := String.toList_ofList
    rw [hletters] at hhead ⊢
    exact fun he => hhead (congrArg some (List.cons.inj he).1)

/-- Parted tests are not written like a hyphen with another character behind it. -/
theorem Parted.ne_hyphen : ∀ {tests : List ClassTest}, Parted tests → (∀ t ∈ tests, t.IsSingle) →
    ∀ top more, tests.flatMap ClassTest.letters ≠ '-' :: top :: more
  | [], _, _, _, _ => nofun
  | [t], h, hsingle, top, more => by
    rw [List.flatMap_singleton, ← List.append_nil t.letters]
    rcases h with rfl | hhead
    · have hletters : ClassTest.letters (.set (String.ofList ['-'])) = ['-'] :=
        String.toList_ofList
      rw [hletters]
      nofun
    · exact (hsingle t List.mem_cons_self).letters_ne hhead [] _
  | t :: u :: rest, h, hsingle, top, more => by
    rw [List.flatMap_cons]
    exact (hsingle t List.mem_cons_self).letters_ne h.1 _ _

theorem Parted.tail : ∀ {tests : List ClassTest}, Parted tests → Parted tests.tail
  | [], h => h
  | [_], _ => trivial
  | _ :: _ :: _, h => h.2

/-- The characters of single tests are read as these tests. -/
theorem testsOf_letters : ∀ {tests : List ClassTest}, Parted tests.tail →
    (∀ t ∈ tests, t.IsSingle) → testsOf (tests.flatMap ClassTest.letters) = tests
  | [], _, _ => rfl
  | t :: rest, hparted, h => by
    obtain ⟨ht, hrest⟩ := List.forall_mem_cons.mp h
    have hbehind : Parted rest := hparted
    have ih : testsOf (rest.flatMap ClassTest.letters) = rest := testsOf_letters hbehind.tail hrest
    rw [List.flatMap_cons]
    cases t with
    | range bottom top =>
      show testsOf (bottom :: '-' :: top :: rest.flatMap ClassTest.letters) = _
      rw [testsOf, ih]
    | set chars =>
      obtain ⟨c, rfl⟩ := ht
      have hletters : ClassTest.letters (.set (String.ofList [c])) = [c] := String.toList_ofList
      rw [hletters, List.singleton_append, testsOf, ih]
      exact hbehind.ne_hyphen hrest

theorem ClearClass.testsOf {tests : List ClassTest} (h : ClearClass tests) :
    testsOf (tests.flatMap ClassTest.letters) = tests.flatMap ClassTest.singles := by
  rw [← letters_singles]
  exact testsOf_letters h.hyphens isSingle_singles

/-! ## Calls and values -/

theorem readCall_doc {call : ActionCall} (h : call.Readable) {depth : Nat}
    (hdepth : sizeOf call.args ≤ depth) (rest : List Char) :
    readCall depth (call.doc.chars ++ rest) = some (call, rest) := by
  obtain ⟨function, args⟩ := call
  obtain ⟨hfunction, hargs⟩ := h
  have hargsRead : readArgs depth ((Doc.join (.text "," ++ Doc.space) (args.map .text)).chars ++
      ')' :: rest) = some (args, rest) := by
    cases args with
    | nil => rfl
    | cons arg args =>
      have hwords : readWords [',', ' '] depth ((Doc.join (.text "," ++ Doc.space)
          ((arg :: args).map .text)).chars ++ ')' :: rest) = some (arg :: args, ')' :: rest) :=
        readWords_join (Doc.text "," ++ Doc.space) (fun _ => parts_cons (by decide) _)
          (parts_cons (by decide) rest) rfl (List.cons_ne_nil _ _) hargs
          (Nat.le_trans (length_le_sizeOf _) hdepth)
      obtain ⟨c, cs, hc⟩ := List.exists_cons_of_ne_nil (hargs arg List.mem_cons_self).ne_nil
      have hclose : c ≠ ')' := by
        rintro rfl
        have := (hargs arg List.mem_cons_self).chars ')' (hc ▸ List.mem_cons_self)
        exact absurd this (by decide)
      have hbegins : ∃ more, (Doc.join (.text "," ++ Doc.space) ((arg :: args).map .text)).chars ++
          ')' :: rest = c :: more := by
        cases args with
        | nil =>
          rw [List.map_singleton, Doc.chars_join_single, Doc.chars_text, hc]
          exact ⟨_, rfl⟩
        | cons next args =>
          rw [List.map_cons, List.map_cons, Doc.chars_join_cons, Doc.chars_text, hc]
          exact ⟨_, rfl⟩
      obtain ⟨more, hmore⟩ := hbegins
      rw [hmore] at hwords ⊢
      rw [readArgs]
      · rw [hwords]
        rfl
      · exact fun _ he => absurd (List.cons.inj he).1 hclose
  have hdoc : (ActionCall.mk function args).doc.chars ++ rest = function.toList ++ '(' ::
      ((Doc.join (.text "," ++ Doc.space) (args.map .text)).chars ++ ')' :: rest) := by
    simp [ActionCall.doc]
  rw [hdoc, readCall, readWord_word hfunction (parts_cons (by decide) _)]
  simp only [hargsRead, Option.map_some]

/-- What may stand behind a row of a group: another one, or the end of the group. -/
def RowEnds (rest : List Char) : Prop :=
  (∃ more, rest = ')' :: more) ∨ ∃ more, rest = ' ' :: '/' :: ' ' :: more

/-- The value of a row as it is shown, with its sign. -/
def resultChars : AltResult → List Char
  | .consumed => []
  | result => ' ' :: '=' :: '>' :: ' ' :: result.doc.chars

theorem chars_rowDoc (elements : List Doc) (result : AltResult) :
    (rowDoc elements result).chars =
      (if elements.isEmpty then .text "()" else Doc.join Doc.space elements).chars ++
        resultChars result := by
  cases result with
  | consumed => exact (List.append_nil _).symm
  | _ => rfl

theorem readCall_none {var : String} (h : IsWord var) {rest : List Char} (hrest : Parts rest)
    (hopen : rest.head? ≠ some '(') (depth : Nat) : readCall depth (var.toList ++ rest) = none := by
  unfold readCall
  rw [readWord_word h hrest]
  cases rest with
  | nil => rfl
  | cons c rest =>
    have hc : c ≠ '(' := fun he => hopen (congrArg some he)
    dsimp only
    split
    next he => exact absurd (by simpa using (Prod.mk.inj (Option.some.inj he)).2) (by simp [hc])
    next => rfl

/-- The sign between the captures of a value. -/
def valueSign : Doc :=
  Doc.space ++ (Doc.text "//" ++ Doc.space)

theorem readResult_chars {result : AltResult} (h : result.Readable) {depth : Nat}
    (hdepth : sizeOf result ≤ depth) {rest : List Char} (hrest : RowEnds rest) :
    readResult depth (resultChars result ++ rest) = some (result, rest) := by
  have hparts : Parts rest := by
    rcases hrest with ⟨more, rfl⟩ | ⟨more, rfl⟩
    · exact parts_cons (by decide) _
    · exact parts_cons (by decide) _
  have hopen : rest.head? ≠ some '(' := by
    rcases hrest with ⟨more, rfl⟩ | ⟨more, rfl⟩
    · simp
    · simp
  have hends : [' ', '/', '/', ' '].isPrefixOf? rest = none := by
    rcases hrest with ⟨more, rfl⟩ | ⟨more, rfl⟩
    · rfl
    · rfl
  have hsep : ∀ rest, Parts (valueSign.chars ++ rest) := fun _ => parts_cons (by decide) _
  cases result with
  | consumed =>
    rw [resultChars, List.nil_append, readResult]
    rintro more rfl
    rcases hrest with ⟨_, he⟩ | ⟨_, he⟩ <;> simp at he
  | capture var =>
    have hwords : readWords [' ', '/', '/', ' '] depth (var.toList ++ rest) = some ([var], rest) :=
      readWords_join valueSign hsep hparts hends (List.cons_ne_nil var [])
        (List.forall_mem_singleton.mpr h)
        (by rw [AltResult.capture.sizeOf_spec] at hdepth; rw [List.length_singleton]; omega)
    show readValue depth (var.toList ++ rest) = _
    rw [readValue, readCall_none h hparts hopen]
    simp only [hwords, Option.map_some]
  | concat vars =>
    obtain ⟨hseveral, hvars⟩ := h
    rw [AltResult.concat.sizeOf_spec] at hdepth
    have hlength := length_le_sizeOf vars
    obtain ⟨first, next, vars, rfl⟩ : ∃ first next more, vars = first :: next :: more := by
      match vars, hseveral with
      | first :: next :: more, _ => exact ⟨first, next, more, rfl⟩
    have hwords : readWords valueSign.chars depth ((Doc.join valueSign
        ((first :: next :: vars).map .text)).chars ++ rest) = some (first :: next :: vars, rest) :=
      readWords_join valueSign hsep hparts hends (List.cons_ne_nil _ _) hvars (by omega)
    have hfirst : IsWord first := hvars first List.mem_cons_self
    have hnone : readCall depth ((Doc.join valueSign
        ((first :: next :: vars).map .text)).chars ++ rest) = none := by
      rw [List.map_cons, List.map_cons, Doc.chars_join_cons, Doc.chars_text, List.append_assoc]
      refine readCall_none hfirst ?_ ?_ depth
      · rw [List.append_assoc]
        exact hsep _
      · exact nofun
    show readValue depth
      ((Doc.join valueSign ((first :: next :: vars).map .text)).chars ++ rest) = _
    rw [readValue, hnone]
    show (readWords valueSign.chars depth _).map _ = _
    rw [hwords]
    rfl
  | action call =>
    rw [AltResult.action.sizeOf_spec] at hdepth
    obtain ⟨function, args⟩ := call
    rw [ActionCall.mk.sizeOf_spec] at hdepth
    have hargs : sizeOf args ≤ depth := by omega
    have hcall := readCall_doc h hargs rest
    show readValue depth ((ActionCall.mk function args).doc.chars ++ rest) = _
    rw [readValue, hcall]

end Resolved

end PegCompiler
