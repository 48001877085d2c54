import PegCompiler.Proofs.Layout.Joined
import PegCompiler.Proofs.Target.Legible
/-
  The tokens of a text. Symbols are read from left to right, with the token that has begun
  as the only thing kept (`Partial`): words, numbers and words between dots go on as long
  as their characters do, operators likewise, and a quote inside a character constant is
  written twice. Types are tokens of their own, as they are symbols of their own.

  What is read is said with the rest of the text present (`lexFrom_word`, `lexFrom_quoted`),
  so that a longest match cannot be cut short. A text that has tokens has no continuations
  left (`joined_of_lexes`): an ampersand stands in constants only, and they end on their line.
-/

namespace PegCompiler.Target

open Layout (Symbol joinFrom joined plainSymbols)

/-! ## Tokens -/

inductive Token where
  | word (name : String)
  | number (n : Nat)
  | logical (b : Bool)
  | negation
  | quoted (value : String)
  | type (spec : String)
  | binary (op : BinOp)
  | equals | colon | comma | opening | closing | openingList | closingList | lineEnd
  deriving DecidableEq, Repr

/-- The characters of names, numbers and words between dots. -/
def isWordChar (c : Char) : Bool :=
  isNameChar c || c == '.'

/-- The characters of operators and of the sign of assignments. -/
def isOperatorChar (c : Char) : Bool :=
  ['=', '>', '<', '+', '-', '/'].contains c

/-- The token of a word. -/
def wordToken : List Char → Option Token
  | [] => none
  | '.' :: cs =>
    if cs = "not.".toList then some .negation
    else if cs = "true.".toList then some (.logical true)
    else if cs = "false.".toList then some (.logical false)
    else none
  | c :: cs =>
    if c.isDigit then
      if cs.all Char.isDigit then some (.number (Nat.ofDigitChars 10 (c :: cs) 0)) else none
    else if c.isAlpha && cs.all isNameChar then some (.word (String.ofList (c :: cs)))
    else none

/-- The token of characters of operators. -/
def operatorToken : List Char → Option Token
  | ['='] => some .equals
  | ['=', '='] => some (.binary .eq)
  | ['>'] => some (.binary .gt)
  | ['>', '='] => some (.binary .ge)
  | ['<'] => some (.binary .lt)
  | ['+'] => some (.binary .add)
  | ['-'] => some (.binary .sub)
  | ['/', '/'] => some (.binary .concat)
  | _ => none

/-- The token of a single character. -/
def signToken : Char → Option Token
  | ':' => some .colon
  | ',' => some .comma
  | '(' => some .opening
  | ')' => some .closing
  | '[' => some .openingList
  | ']' => some .closingList
  | '\n' => some .lineEnd
  | _ => none

/-- The token that has begun. -/
inductive Partial where
  | none
  | word (cs : List Char)
  | operator (cs : List Char)
  /-- A character constant, up to a character of it. -/
  | inside (cs : List Char)
  /-- A character constant that has ended, unless another quote follows. -/
  | behind (cs : List Char)
  deriving DecidableEq, Repr

namespace Partial

/-- The token that has ended, if one had begun. -/
def finish : Partial → Option (List Token)
  | none => some []
  | word cs => (wordToken cs).map ([·])
  | operator cs => (operatorToken cs).map ([·])
  | inside _ => Option.none
  | behind cs => some [.quoted (String.ofList cs)]

/-- The beginning of a token, or one of a single character. -/
def start (c : Char) : Option (List Token × Partial) :=
  if c == ' ' then some ([], none)
  else if c == '\'' then some ([], inside [])
  else if isWordChar c then some ([], word [c])
  else if isOperatorChar c then some ([], operator [c])
  else (signToken c).map fun t => ([t], none)

/-- What follows the end of a token. -/
def next (p : Partial) (r : Option (List Token × Partial)) : Option (List Token × Partial) :=
  p.finish.bind fun ts => r.map fun (us, q) => (ts ++ us, q)

/-- The tokens that end with a symbol, and the one that it begins or goes on with. -/
def step : Partial → Symbol → Option (List Token × Partial)
  | p, .type spec => p.next (some ([.type spec], none))
  | inside cs, .char c =>
    if c == '\'' then some ([], behind cs)
    else if c == '\n' then Option.none
    else some ([], inside (cs ++ [c]))
  | behind cs, .char c =>
    if c == '\'' then some ([], inside (cs ++ ['\''])) else (behind cs).next (start c)
  | word cs, .char c =>
    if isWordChar c then some ([], word (cs ++ [c])) else (word cs).next (start c)
  | operator cs, .char c =>
    if isOperatorChar c then some ([], operator (cs ++ [c])) else (operator cs).next (start c)
  | none, .char c => start c

end Partial

/-- The tokens of a text behind the beginning of one. -/
def lexFrom : Partial → List Symbol → Option (List Token)
  | p, [] => p.finish
  | p, s :: rest => (p.step s).bind fun (ts, q) => (lexFrom q rest).map (ts ++ ·)

/-- The tokens of a text. -/
def lex (text : List Symbol) : Option (List Token) :=
  lexFrom .none text

theorem lexFrom_cons {p q : Partial} {s : Symbol} {ts : List Token}
    (h : p.step s = some (ts, q)) (rest : List Symbol) :
    lexFrom p (s :: rest) = (lexFrom q rest).map (ts ++ ·) := by
  rw [lexFrom, h]
  rfl

/-- A symbol that no token ends with. -/
theorem lexFrom_silent {p q : Partial} {s : Symbol} (h : p.step s = some ([], q))
    (rest : List Symbol) : lexFrom p (s :: rest) = lexFrom q rest := by
  rw [lexFrom_cons h]
  exact Option.map_id'

/-! ## Joined lines -/

theorem lexFrom_break (p : Partial) (rest : List Symbol) :
    lexFrom p (.char '&' :: .char '\n' :: rest) = none := by
  have hstart : Partial.start '&' = none := by decide
  cases p with
  | inside cs => rfl
  | none => rfl
  | word cs =>
    have hstep : (Partial.word cs).step (.char '&') = none := by
      rw [Partial.step, if_neg (by decide), hstart, Partial.next]
      simp
    rw [lexFrom, hstep]
    rfl
  | operator cs =>
    have hstep : (Partial.operator cs).step (.char '&') = none := by
      rw [Partial.step, if_neg (by decide), hstart, Partial.next]
      simp
    rw [lexFrom, hstep]
    rfl
  | behind cs => rfl

theorem joined_of_lexes {text : List Symbol} : ∀ {p : Partial}, (lexFrom p text).isSome →
    joined text = text := by
  unfold joined
  induction text with
  | nil => exact fun _ => rfl
  | cons s rest ih =>
    intro p h
    rw [lexFrom] at h
    obtain ⟨ts, hts⟩ := Option.isSome_iff_exists.mp h
    obtain ⟨⟨us, q⟩, -, hrest⟩ := Option.bind_eq_some_iff.mp hts
    obtain ⟨vs, hvs, -⟩ := Option.map_eq_some_iff.mp hrest
    have hjoined := ih (Option.isSome_of_eq_some hvs)
    by_cases hs : s = .char ' '
    · subst hs
      rw [Layout.joinFrom_space, hjoined]
      rintro ⟨more, rfl⟩
      rw [lexFrom_break] at hvs
      exact nomatch hvs
    · rw [Layout.joinFrom_of_ne hs, hjoined]

/-! ## Words -/

/-- No word and no constant goes on with the text. -/
def Parts (text : List Symbol) : Prop :=
  ∀ c, text.head? = some (.char c) → isWordChar c = false ∧ c ≠ '\''

theorem parts_nil : Parts [] :=
  fun _ h => nomatch h

theorem parts_cons {c : Char} (h : isWordChar c = false ∧ c ≠ '\'') (rest : List Symbol) :
    Parts (.char c :: rest) := by
  intro d hd
  obtain rfl : c = d := by simpa using hd
  exact h

/-- A token that has begun ends where nothing goes on with it. -/
theorem lexFrom_finish {p : Partial} {text : List Symbol} {ts : List Token}
    (hfinish : p.finish = some ts)
    (hstep : ∀ s ∈ text.head?, p.step s = p.next (Partial.none.step s)) :
    lexFrom p text = (lexFrom .none text).map (ts ++ ·) := by
  cases text with
  | nil =>
    rw [lexFrom, lexFrom, hfinish, Partial.finish, Option.map_some, List.append_nil]
  | cons s rest =>
    rw [lexFrom, lexFrom, hstep s rfl, Partial.next, hfinish]
    cases Partial.none.step s with
    | none => rfl
    | some r => simp [Option.map_map, Function.comp_def]

theorem lexFrom_chars {cs : List Char} (hcs : ∀ c ∈ cs, isWordChar c = true) (seen : List Char)
    (rest : List Symbol) : lexFrom (.word seen) (cs.map .char ++ rest) =
      lexFrom (.word (seen ++ cs)) rest := by
  induction cs generalizing seen with
  | nil => rw [List.append_nil]; rfl
  | cons c cs ih =>
    obtain ⟨hc, hcs⟩ := List.forall_mem_cons.mp hcs
    have hstep : (Partial.word seen).step (.char c) = some ([], .word (seen ++ [c])) := by
      rw [Partial.step, if_pos hc]
    rw [List.map_cons, List.cons_append, lexFrom_silent hstep, ih hcs, List.append_assoc,
      List.singleton_append]

/-- A word ends where something parts it from the next one. -/
theorem lexFrom_endWord {cs : List Char} {t : Token} (ht : wordToken cs = some t)
    {rest : List Symbol} (hrest : Parts rest) :
    lexFrom (.word cs) rest = (lexFrom .none rest).map (t :: ·) := by
  have hfinish : (Partial.word cs).finish = some [t] := by
    rw [Partial.finish, ht]
    rfl
  refine lexFrom_finish hfinish fun s hs => ?_
  cases s with
  | type spec => rfl
  | char d => rw [Partial.step, if_neg (by simp [(hrest d hs).1]), Partial.step]

/-- A word is read up to what parts it from the next one. -/
theorem lexFrom_word {c : Char} {cs : List Char} (hcs : ∀ d ∈ c :: cs, isWordChar d = true)
    {t : Token} (ht : wordToken (c :: cs) = some t) {rest : List Symbol} (hrest : Parts rest) :
    lexFrom .none ((c :: cs).map .char ++ rest) = (lexFrom .none rest).map (t :: ·) := by
  obtain ⟨hc, hcs⟩ := List.forall_mem_cons.mp hcs
  have hspace : c ≠ ' ' := fun he => absurd (he ▸ hc) (by decide)
  have hquote : c ≠ '\'' := fun he => absurd (he ▸ hc) (by decide)
  have hstart : Partial.none.step (.char c) = some ([], .word [c]) := by
    rw [Partial.step, Partial.start, if_neg (by simpa using hspace),
      if_neg (by simpa using hquote), if_pos hc]
  rw [List.map_cons, List.cons_append, lexFrom_silent hstart, lexFrom_chars hcs]
  exact lexFrom_endWord ht hrest

/-! ## Constants -/

theorem lexFrom_quotedChars {cs : List Char} (hcs : '\n' ∉ cs) (seen : List Char)
    (rest : List Symbol) : lexFrom (.inside seen) ((quotedChars cs).map .char ++ rest) =
      lexFrom (.inside (seen ++ cs)) rest := by
  induction cs generalizing seen with
  | nil => rw [List.append_nil]; rfl
  | cons c cs ih =>
    have hc : c ≠ '\n' := fun he => hcs (he ▸ List.mem_cons_self)
    replace hcs : '\n' ∉ cs := fun hmem => hcs (List.mem_cons_of_mem c hmem)
    by_cases hquote : c = '\''
    · -- a quote ends the constant, and the second one takes that back
      subst hquote
      have hquoted : quotedChars ('\'' :: cs) = '\'' :: '\'' :: quotedChars cs := rfl
      have hend : (Partial.inside seen).step (.char '\'') = some ([], .behind seen) := rfl
      have hback : (Partial.behind seen).step (.char '\'') =
          some ([], .inside (seen ++ ['\''])) := rfl
      rw [hquoted, List.map_cons, List.map_cons, List.cons_append, List.cons_append,
        lexFrom_silent hend, lexFrom_silent hback, ih hcs, List.append_assoc,
        List.singleton_append]
    · have hquoted : quotedChars (c :: cs) = c :: quotedChars cs := by
        simp [quotedChars, hquote]
      have hstep : (Partial.inside seen).step (.char c) = some ([], .inside (seen ++ [c])) := by
        rw [Partial.step, if_neg (by simpa using hquote), if_neg (by simpa using hc)]
      rw [hquoted, List.map_cons, List.cons_append, lexFrom_silent hstep, ih hcs,
        List.append_assoc, List.singleton_append]

/-- A quoted piece is read as the characters that it encodes. -/
theorem lexFrom_quoted {cs : List Char} (hcs : '\n' ∉ cs) {rest : List Symbol}
    (hrest : Parts rest) :
    lexFrom .none (.char '\'' :: ((quotedChars cs).map .char ++ .char '\'' :: rest)) =
      (lexFrom .none rest).map (.quoted (String.ofList cs) :: ·) := by
  have hopen : Partial.none.step (.char '\'') = some ([], .inside []) := by decide
  have hclose : (Partial.inside cs).step (.char '\'') = some ([], .behind cs) := rfl
  have hend : lexFrom (.behind cs) rest =
      (lexFrom .none rest).map ([.quoted (String.ofList cs)] ++ ·) := by
    refine lexFrom_finish rfl fun s hs => ?_
    cases s with
    | type spec => rfl
    | char d => rw [Partial.step, if_neg (by simpa using (hrest d hs).2), Partial.step]
  rw [lexFrom_silent hopen, lexFrom_quotedChars hcs, List.nil_append, lexFrom_silent hclose, hend]
  rfl

end PegCompiler.Target
