import PegCompiler.Json.Error
import PegCompiler.Json.Value
/-!
  Reading JSON from left to right. A reader takes what it needs from the front of
  the text; the first problem in the order of the text ends it. `value` reads any
  value, `skip` passes over one that nobody reads, and the shape readers of
  `Json.Shape` read values of an expected type.

  Correspondence (program ↔ here):
    `serde_json::from_str` ↔ `Reader`, `value`, `skip`, `whole`
-/

namespace PegCompiler.Json

/-- A reader: what it reads and the text behind it. -/
abbrev Reader := StateT (List Char) (Except ReadError)

namespace Reader

/-- Fails at the current place. -/
def fail {α : Type} (cause : Cause) : Reader α :=
  fun rest => .error { cause, rest }

/-- Fails at the character that comes next. -/
def failAhead {α : Type} (cause : Cause) : Reader α :=
  fun rest => .error { cause, rest, peeked := true }

/-- Fails; the construct around the current place says where it ended. -/
def failPending {α : Type} (cause : Cause) : Reader α :=
  fun rest => .error { cause, rest, pending := true }

/-- A fault at the current place. -/
def fault {α : Type} (f : Fault) : Reader α := fail (.fault f)

/-- A fault at the character that comes next. -/
def faultAhead {α : Type} (f : Fault) : Reader α := failAhead (.fault f)

end Reader

/-- The white space of JSON. -/
def isSpace (c : Char) : Bool :=
  c == ' ' || c == '\n' || c == '\t' || c == '\r'

/-- A decimal digit. -/
def isDigit (c : Char) : Bool :=
  '0' ≤ c && c ≤ '9'

/-- Passes over white space and shows the character behind it. -/
def peek : Reader (Option Char) := do
  modify (List.dropWhile isSpace)
  pure (← get).head?

/-- Takes one character. -/
def drop : Reader Unit := modify List.tail

/-- Takes the letters of a word. -/
def word : List Char → Reader Unit
  | [] => pure ()
  | c :: cs => do
    match ← get with
    | [] => Reader.faultAhead .endInValue
    | d :: _ =>
      drop
      if c == d then word cs else Reader.fault .expectedWord

/-- The value of a hexadecimal digit. -/
def hexValue (c : Char) : Option Nat :=
  if '0' ≤ c && c ≤ '9' then some (c.toNat - '0'.toNat)
  else if 'a' ≤ c && c ≤ 'f' then some (c.toNat - 'a'.toNat + 10)
  else if 'A' ≤ c && c ≤ 'F' then some (c.toNat - 'A'.toNat + 10)
  else none

/-- The value of four hexadecimal digits. -/
def hexFour (a b c d : Char) : Option Nat := do
  let a ← hexValue a
  let b ← hexValue b
  let c ← hexValue c
  let d ← hexValue d
  pure (((a * 16 + b) * 16 + c) * 16 + d)

/-- The character of a short escape. -/
def shortEscape (c : Char) : Option Char :=
  if c == '"' || c == '\\' || c == '/' then some c
  else if c == 'b' then some (Char.ofNat 8)
  else if c == 'f' then some (Char.ofNat 12)
  else if c == 'n' then some '\n'
  else if c == 'r' then some '\r'
  else if c == 't' then some '\t'
  else none

/-- Whether a code is the second half of a pair. -/
def isTrailing (n : Nat) : Bool :=
  0xDC00 ≤ n && n ≤ 0xDFFF

/-- Whether a code is the first half of a pair. -/
def isLeading (n : Nat) : Bool :=
  0xD800 ≤ n && n ≤ 0xDBFF

/-- The character of a pair of codes. -/
def pairChar (leading trailing : Nat) : Char :=
  Char.ofNat (0x10000 + (leading - 0xD800) * 0x400 + (trailing - 0xDC00))

/-- A fault at a place. -/
def faultAt {α : Type} (f : Fault) (rest : List Char) : Except ReadError α :=
  .error { cause := .fault f, rest }

/-- The characters of a string behind those in `done`, which are in reverse, up to
the quote that ends it. -/
def stringChars (done : List Char) (rest : List Char) : Except ReadError (String × List Char) :=
  match rest with
  | [] => faultAt .endInString []
  | '"' :: rest => .ok (String.ofList done.reverse, rest)
  | '\\' :: 'u' :: a :: b :: c :: d :: rest =>
    match hexFour a b c d with
    | none => faultAt .escape rest
    | some n =>
      if isTrailing n then faultAt .surrogate rest
      else if isLeading n then
        match rest with
        | '\\' :: 'u' :: e :: f :: g :: h :: rest =>
          match hexFour e f g h with
          | none => faultAt .escape rest
          | some m =>
            if isTrailing m then stringChars (pairChar n m :: done) rest
            else faultAt .surrogate rest
        | [] => faultAt .endInString []
        | _ :: rest => faultAt .hexEnd rest
      else stringChars (Char.ofNat n :: done) rest
  | ['\\'] => faultAt .endInString []
  | '\\' :: c :: rest =>
    match shortEscape c with
    | some c => stringChars (c :: done) rest
    | none => if c == 'u' then faultAt .endInString [] else faultAt .escape rest
  | c :: rest =>
    if c.toNat < 0x20 then faultAt .control rest else stringChars (c :: done) rest

/-- A string behind its opening quote. -/
def stringBody : Reader String :=
  fun rest => stringChars [] rest

/-- Takes the digits that come next. -/
def digits : Reader (List Char) := do
  let ds := (← get).takeWhile isDigit
  modify (List.dropWhile isDigit)
  pure ds

/-- Takes the digits that come next, of which there has to be one. -/
def someDigits : Reader (List Char) := do
  match (← get).head? with
  | none => Reader.faultAhead .endInValue
  | some c => if isDigit c then digits else do drop; Reader.fault .number

/-- The digits in front of the point: no zero stands before another digit. -/
def wholeDigits : Reader (List Char) := do
  match ← get with
  | '0' :: c :: _ => do
    drop
    if isDigit c then Reader.faultAhead .number else pure ['0']
  | _ => someDigits

/-- The digits behind a point, if there is one. -/
def fractionDigits : Reader (List Char) := do
  match ← get with
  | '.' :: _ => do drop; someDigits
  | _ => pure []

/-- The sign and the digits of an exponent, if there is one. -/
def exponentDigits : Reader (Option (Bool × List Char)) := do
  match ← get with
  | c :: rest =>
    if c == 'e' || c == 'E' then
      drop
      match rest with
      | '+' :: _ => drop; return some (false, ← someDigits)
      | '-' :: _ => drop; return some (true, ← someDigits)
      | _ => return some (false, ← someDigits)
    else pure none
  | [] => pure none

/-- A number. -/
def numberToken : Reader Number := do
  let negative := (← get).head? == some '-'
  if negative then drop
  let whole ← wholeDigits
  let fraction ← fractionDigits
  let exponent ← exponentDigits
  pure { negative, whole, fraction, exponent }

/-- Passes over a colon. -/
def colon : Reader Unit := do
  match ← peek with
  | some ':' => drop
  | some _ => Reader.faultAhead .expectedColon
  | none => Reader.faultAhead .endInObject

/-- Whether an array has one more item; passes over the comma in front of it. -/
def nextItem (first : Bool) : Reader Bool := do
  match ← peek with
  | some ']' => pure false
  | none => Reader.faultAhead .endInArray
  | some c =>
    if first then pure true
    else if c == ',' then
      drop
      match ← peek with
      | some ']' => Reader.faultAhead .trailingComma
      | some _ => pure true
      | none => Reader.faultAhead .endInValue
    else Reader.faultAhead .expectedItemEnd

/-- The quote of a key. -/
def keyQuote : Option Char → Reader Bool
  | some '"' => do drop; pure true
  | some _ => Reader.faultAhead .keyNotString
  | none => Reader.faultAhead .endInValue

/-- Whether an object has one more entry; passes over the comma and the quote in
front of its key. -/
def nextEntry (first : Bool) : Reader Bool := do
  match ← peek with
  | some '\x7d' => pure false
  | none => Reader.faultAhead .endInObject
  | some c =>
    if first then keyQuote (some c)
    else if c == ',' then
      drop
      match ← peek with
      | some '\x7d' => Reader.faultAhead .trailingComma
      | next => keyQuote next
    else Reader.faultAhead .expectedEntryEnd

/-- A text that is longer than the rest. What is read piece by piece is read in the room
of such a text, of which only the length counts: each piece takes one character of it and
has at least one. -/
def roomFor : Reader (List Char) := do
  return ' ' :: (← get)

/-! ## Values that nobody reads -/

/-- Passes over the characters of a string; a half of a pair may stand alone. -/
def skipChars : List Char → Except ReadError (Unit × List Char)
  | [] => faultAt .endInString []
  | '"' :: rest => .ok ((), rest)
  | '\\' :: 'u' :: a :: b :: c :: d :: rest =>
    if (hexFour a b c d).isSome then skipChars rest else faultAt .escape rest
  | ['\\'] => faultAt .endInString []
  | '\\' :: c :: rest =>
    if (shortEscape c).isSome then skipChars rest
    else if c == 'u' then faultAt .endInString [] else faultAt .escape rest
  | c :: rest => if c.toNat < 0x20 then faultAt .control rest else skipChars rest

mutual

/-- Passes over a value, which has no more characters than `room`. -/
def skipIn : List Char → Reader Unit
  | [] => Reader.faultAhead .endInValue
  | _ :: room => do
    match ← peek with
    | none => Reader.faultAhead .endInValue
    | some 'n' => word ['n', 'u', 'l', 'l']
    | some 't' => word ['t', 'r', 'u', 'e']
    | some 'f' => word ['f', 'a', 'l', 's', 'e']
    | some '"' => do drop; (fun rest => skipChars rest)
    | some '[' => do drop; skipItems room true
    | some '\x7b' => do drop; skipEntries room true
    | some c =>
      if c == '-' || isDigit c then discard numberToken else Reader.faultAhead .expectedValue

/-- Passes over the items of an array and its end. -/
def skipItems : List Char → Bool → Reader Unit
  | [], _ => Reader.faultAhead .endInArray
  | _ :: room, first => do
    if ← nextItem first then
      skipIn room
      skipItems room false
    else drop

/-- Passes over the entries of an object and its end. -/
def skipEntries : List Char → Bool → Reader Unit
  | [], _ => Reader.faultAhead .endInObject
  | _ :: room, first => do
    if ← nextEntry first then
      (fun rest => skipChars rest)
      colon
      skipIn room
      skipEntries room false
    else drop

end

/-- Passes over a value of any shape. -/
def skip : Reader Unit := do
  skipIn (← roomFor)

/-! ## Values of any shape -/

mutual

/-- A value, which has no more characters than `room`. -/
def valueIn : List Char → Reader Json
  | [] => Reader.faultAhead .endInValue
  | _ :: room => do
    match ← peek with
    | none => Reader.faultAhead .endInValue
    | some 'n' => do word ['n', 'u', 'l', 'l']; pure .null
    | some 't' => do word ['t', 'r', 'u', 'e']; pure (.bool true)
    | some 'f' => do word ['f', 'a', 'l', 's', 'e']; pure (.bool false)
    | some '"' => do drop; return .string (← stringBody)
    | some '[' => do drop; return .array (← valueItems room true)
    | some '\x7b' => do drop; return .object (← valueEntries room true)
    | some c =>
      if c == '-' || isDigit c then return .number (← numberToken)
      else Reader.faultAhead .expectedValue

/-- The items of an array, up to its end. -/
def valueItems : List Char → Bool → Reader (List Json)
  | [], _ => Reader.faultAhead .endInArray
  | _ :: room, first => do
    if ← nextItem first then
      let v ← valueIn room
      let rest ← valueItems room false
      pure (v :: rest)
    else do drop; pure []

/-- The entries of an object, up to its end. -/
def valueEntries : List Char → Bool → Reader (List (String × Json))
  | [], _ => Reader.faultAhead .endInObject
  | _ :: room, first => do
    if ← nextEntry first then
      let key ← stringBody
      colon
      let v ← valueIn room
      let rest ← valueEntries room false
      pure ((key, v) :: rest)
    else do drop; pure []

end

/-- A value of any shape. -/
def value : Reader Json := do
  valueIn (← roomFor)

/-- Reads a whole text; nothing but white space may be left. -/
def whole {α : Type} (reader : Reader α) (s : String) : Except ReadError α :=
  let read : Reader α := do
    let v ← reader
    match ← peek with
    | none => pure v
    | some _ => Reader.faultAhead .trailingText
  read.run' s.toList

/-- The value that a text stands for. -/
def parse (s : String) : Except ReadError Json :=
  whole value s

end PegCompiler.Json
