import Mathlib
import PegCompiler.Proofs.Layout.Inline
import PegCompiler.Proofs.Resolved.Gist
import PegCompiler.Proofs.Text.Unquoted
import PegCompiler.Resolved.Printer
/-
  A reader of PEG notation. It reads from left to right and decides by one or two characters
  what comes: a quote, a bracket or a point begins a terminal, a sign in front a lookahead,
  and signs behind an atom repeat it. Names go on up to a character of the notation.

  The reader calls itself less deeply than a number says, so that it is a function; what is
  read does not depend on the number, if it is large enough. Read is the gist of a matcher,
  because types and variables of choices are not shown.
-/

namespace PegCompiler

namespace Resolved

open Layout (Doc)
open Text (readUntil)

/-- Reads something from the beginning of a text; the rest of the text is left. -/
abbrev Reader (α : Type) := List Char → Option (α × List Char)

/-! ## Names and numbers -/

/-- Characters of the notation, which names do not have. -/
def signs : List Char :=
  [' ', '"', '[', ']', '.', '(', ')', '!', '&', '?', '*', '+', '|', ':', '/', '=', ',', '\x7b',
    '\x7d']

/-- Whether a character is one of them. -/
def isSign (c : Char) : Bool :=
  signs.contains c

/-- A text that can be read as a name. -/
structure IsWord (s : String) : Prop where
  ne_nil : s.toList ≠ []
  chars : ∀ c ∈ s.toList, isSign c = false

/-- A name: the text up to a character of the notation. -/
def readWord : Reader String := fun cs =>
  match cs.takeWhile (fun c => !isSign c) with
  | [] => none
  | c :: word => some (String.ofList (c :: word), cs.dropWhile fun c => !isSign c)

/-- A number. -/
def readNumber : Reader Nat := fun cs =>
  some (Nat.ofDigitChars 10 (cs.takeWhile Char.isDigit) 0, cs.dropWhile Char.isDigit)

/-- Names with a separator between each two. -/
def readWords (separator : List Char) : Nat → Reader (List String)
  | 0, _ => none
  | depth + 1, cs =>
    (readWord cs).bind fun (word, rest) =>
      match separator.isPrefixOf? rest with
      | some rest => (readWords separator depth rest).map fun (words, rest) => (word :: words, rest)
      | none => some ([word], rest)

/-- The arguments of a call, behind the opening bracket. -/
def readArgs (depth : Nat) : Reader (List String)
  | ')' :: cs => some ([], cs)
  | cs =>
    match readWords [',', ' '] depth cs with
    | some (args, ')' :: rest) => some (args, rest)
    | _ => none

/-- A call of an extracted function. -/
def readCall (depth : Nat) : Reader ActionCall := fun cs =>
  match readWord cs with
  | some (function, '(' :: rest) =>
    (readArgs depth rest).map fun (args, rest) => (⟨function, args⟩, rest)
  | _ => none

/-- The value of a row, behind its sign. -/
def readValue (depth : Nat) : Reader AltResult := fun cs =>
  match readCall depth cs with
  | some (call, rest) => some (.action call, rest)
  | none =>
    (readWords [' ', '/', '/', ' '] depth cs).map fun
      | ([var], rest) => (.capture var, rest)
      | (vars, rest) => (.concat vars, rest)

/-- The value of a row, which is not shown if it is what the row consumed. -/
def readResult (depth : Nat) : Reader AltResult
  | ' ' :: '=' :: '>' :: ' ' :: cs => readValue depth cs
  | cs => some (.consumed, cs)

/-! ## Matchers -/

/-- The tests of a class: a character, a hyphen and a character are a range. -/
def testsOf : List Char → List ClassTest
  | bottom :: '-' :: top :: cs => .range bottom top :: testsOf cs
  | c :: cs => .set (String.ofList [c]) :: testsOf cs
  | [] => []

/-- A matcher without signs in front or behind; alternatives are read by another reader. -/
def readAtom (rows : Reader (List Alternative)) : Reader Matcher
  | '"' :: cs => (readUntil '"' cs).map fun (text, rest) => (.literal (String.ofList text), rest)
  | '[' :: cs => (readUntil ']' cs).map fun (letters, rest) => (.class (testsOf letters), rest)
  | '.' :: cs => some (.anyChar, cs)
  | '(' :: cs => (rows cs).map fun (as, rest) => (.choice ⟨as, none⟩, rest)
  | cs => (readWord cs).map fun (id, rest) => (.call ⟨id, "", .text⟩, rest)

/-- A separator, which is an atom or the end of the input. -/
def readSeparator (rows : Reader (List Alternative)) : Reader Matcher
  | '!' :: '.' :: cs => some (.lookahead true .anyChar, cs)
  | cs => readAtom rows cs

/-- The upper bound of a repetition, if there is one, and the bar behind it. -/
def readUpper : Reader (Option Bound)
  | '|' :: cs => some (none, cs)
  | cs =>
    match readNumber cs with
    | some (max, '|' :: rest) => some (some (.count max), rest)
    | _ => none

/-- What stands behind the first number of a repetition. -/
def readBounds (separator : Reader Matcher) (body : Matcher) (min : Bound) : Reader Matcher
  | '|' :: cs => some (.repeat body min (some min) none, cs)
  | '.' :: '.' :: cs => (readUpper cs).map fun (max, rest) => (.repeat body min max none, rest)
  | ',' :: ' ' :: cs =>
    match separator cs with
    | some (m, '|' :: rest) => some (.repeat body min (some min) (some m), rest)
    | _ => none
  | _ => none

/-- The signs of a repetition behind its body, if there are any. -/
def readSuffix (separator : Reader Matcher) (body : Matcher) : Reader Matcher
  | '?' :: cs => some (.repeat body (.count 0) (some (.count 1)) none, cs)
  | '*' :: cs => some (.repeat body (.count 0) none none, cs)
  | '+' :: cs => some (.repeat body (.count 1) none none, cs)
  | '|' :: cs =>
    (readNumber cs).bind fun (min, rest) => readBounds separator body (.count min) rest
  | cs => some (body, cs)

/-- What stands behind the sign of a lookahead. -/
def readChecked (depth : Nat) (matcher : Reader Matcher) (negated : Bool) : Reader Matcher
  | '\x7b' :: cs =>
    match readCall depth cs with
    | some (call, '\x7d' :: rest) => some (.predicate negated call, rest)
    | _ => none
  | cs => (matcher cs).map fun (m, rest) => (.lookahead negated m, rest)

/-- Where a captured matcher gets its value from. -/
def Matcher.source : Matcher → CaptureSource
  | .call _ | .choice _ => .value
  | _ => .text

/-- An element, with its variable in front if it is captured. -/
def readElement (matcher : Reader Matcher) : Reader Element := fun cs =>
  match readWord cs with
  | some (var, ':' :: rest) =>
    (matcher rest).map fun (m, rest) => (⟨m, some ⟨var, .text, m.source⟩⟩, rest)
  | _ => (matcher cs).map fun (m, rest) => (⟨m, none⟩, rest)

/-- What follows the space in front of another element of a row. -/
def nextElement : List Char → Option (List Char)
  | ' ' :: c :: cs => if c == '/' || c == '=' then none else some (c :: cs)
  | _ => none

/-- A row and its value. -/
def readRow (elements : Reader (List Element)) (result : Reader AltResult) : Reader Alternative
  | '(' :: ')' :: cs => (result cs).map fun (result, rest) => (⟨[], result, .text⟩, rest)
  | cs =>
    (elements cs).bind fun (es, rest) =>
      (result rest).map fun (result, rest) => (⟨es, result, .text⟩, rest)

mutual

/-- A matcher. -/
def readMatcher : Nat → Reader Matcher
  | 0, _ => none
  | depth + 1, '!' :: cs => readChecked depth (readMatcher depth) true cs
  | depth + 1, '&' :: cs => readChecked depth (readMatcher depth) false cs
  | depth + 1, cs =>
    (readAtom (readRows depth) cs).bind fun (body, rest) =>
      readSuffix (readSeparator (readRows depth)) body rest

/-- Elements with a space between each two. -/
def readElements : Nat → Reader (List Element)
  | 0, _ => none
  | depth + 1, cs =>
    (readElement (readMatcher depth) cs).bind fun (e, rest) =>
      match nextElement rest with
      | some rest => (readElements depth rest).map fun (es, rest) => (e :: es, rest)
      | none => some ([e], rest)

/-- Alternatives and the bracket behind them. -/
def readRows : Nat → Reader (List Alternative)
  | 0, _ => none
  | depth + 1, cs =>
    (readRow (readElements depth) (readResult depth) cs).bind fun
      | (a, ')' :: rest) => some ([a], rest)
      | (a, ' ' :: '/' :: ' ' :: rest) =>
        (readRows depth rest).map fun (as, rest) => (a :: as, rest)
      | _ => none

end

end Resolved

end PegCompiler
