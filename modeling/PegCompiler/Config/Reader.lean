import PegCompiler.Config.Value
/-!
  Reading configuration files in the TOML notation: assignments, dotted and quoted
  keys, sections, the four kinds of strings, numbers, dates, arrays and inline
  tables. The whole file is read before any of its keys is looked at.

  Correspondence (program ↔ here):
    `toml::from_str`, up to values ↔ `file`
-/

namespace PegCompiler.Config

/-- A reader: what it reads and the text behind it. -/
abbrev Reader := StateT (List Char) (Except ReadError)

/-- A fault at a place. -/
def faultAt {α : Type} (rest : List Char) (message : String) : Reader α :=
  fun _ => .error ⟨.fault message, rest⟩

/-- A fault at the current place. -/
def faultHere {α : Type} (message : String) : Reader α :=
  fun rest => .error ⟨.fault message, rest⟩

/-! ## Tokens -/

/-- A token. -/
inductive Token where
  | space (s : List Char)
  | newline
  | comment
  | equals | period | comma | colon | plus
  | leftBrace | rightBrace | leftBracket | rightBracket
  /-- Letters, digits, hyphens and underscores. -/
  | bare (s : List Char)
  | string (s : String) (multiline : Bool)
  deriving DecidableEq, Repr

/-- A token in messages. -/
def Token.shown : Token → String
  | .space _ => "whitespace"
  | .newline => "a newline"
  | .comment => "a comment"
  | .equals => "an equals"
  | .period => "a period"
  | .comma => "a comma"
  | .colon => "a colon"
  | .plus => "a plus"
  | .leftBrace => "a left brace"
  | .rightBrace => "a right brace"
  | .leftBracket => "a left bracket"
  | .rightBracket => "a right bracket"
  | .bare _ => "an identifier"
  | .string _ true => "a multiline string"
  | .string _ false => "a string"

/-- The characters of bare keys and of numbers. -/
def isBare (c : Char) : Bool :=
  c.isAlphanum || c == '-' || c == '_'

/-- A space or a tab. -/
def isGap (c : Char) : Bool :=
  c == ' ' || c == '\t'

/-- The characters of comments. -/
def isCommentChar (c : Char) : Bool :=
  c == '\t' || 0x20 ≤ c.toNat

/-- The characters of strings that need no escape. -/
def isStringChar (c : Char) : Bool :=
  c == '\t' || (0x20 ≤ c.toNat && c.toNat != 0x7F)

/-- A character of the escapes that stand for one. -/
def shortEscape (c : Char) : Option Char :=
  if c == '"' || c == '\\' then some c
  else if c == 'b' then some (Char.ofNat 8)
  else if c == 'f' then some (Char.ofNat 12)
  else if c == 'n' then some '\n'
  else if c == 'r' then some '\r'
  else if c == 't' then some '\t'
  else none

/-- The value of a digit of a number system. -/
def digitValue (radix : Nat) (c : Char) : Option Nat :=
  let v :=
    if '0' ≤ c && c ≤ '9' then c.toNat - '0'.toNat
    else if 'a' ≤ c && c ≤ 'z' then c.toNat - 'a'.toNat + 10
    else if 'A' ≤ c && c ≤ 'Z' then c.toNat - 'A'.toNat + 10
    else 99
  if v < radix then some v else none

/-- The value of digits, all of which have to be digits. -/
def digitsValue (radix : Nat) (ds : List Char) : Option Nat :=
  ds.foldlM (fun n d => (digitValue radix d).map (radix * n + ·)) 0

/-- The character with a code in hexadecimal digits. -/
def codeChar (ds : List Char) : Option Char :=
  match digitsValue 16 ds with
  | some n => if n < 0xD800 || (0xDFFF < n && n ≤ 0x10FFFF) then some (Char.ofNat n) else none
  | none => none

/-- The text behind the white space that an escaped line end takes with it, or
`none` if no line end comes. -/
def afterLineEscape (rest : List Char) : Option (List Char) :=
  match rest.dropWhile isGap with
  | '\n' :: rest => some (rest.dropWhile (fun c => isGap c || c == '\n'))
  | [] => some []
  | _ => none

/-- The end of a string of several lines, of which three quotes and perhaps two
more of its text come next. -/
def closeMultiline (delim : Char) (done : List Char) (rest : List Char) :
    List Char × List Char :=
  let extra := ((rest.takeWhile (· == delim)).take 2).length
  (List.replicate extra delim ++ done, rest.drop extra)

/-- The characters of a string behind those in `done`, which are in reverse. -/
def stringChars (delim : Char) (multiline : Bool) : Nat → List Char → Reader String
  | 0, _ => faultHere "unterminated string"
  | fuel + 1, done => do
    match ← get with
    | [] => faultHere "unterminated string"
    | c :: rest =>
      if c == '\n' then
        if multiline then do
          set rest
          stringChars delim multiline fuel ('\n' :: done)
        else faultHere "newline in string found"
      else if c == delim then
        if !multiline then do
          set rest
          pure (String.ofList done.reverse)
        else match rest with
          | a :: b :: more =>
            if a == delim && b == delim then do
              let (done, more) := closeMultiline delim done more
              set more
              pure (String.ofList done.reverse)
            else do
              set rest
              stringChars delim multiline fuel (c :: done)
          | _ => do
            set rest
            stringChars delim multiline fuel (c :: done)
      else if c == '\\' && delim == '"' then
        match rest with
        | [] => faultAt [] "unterminated string"
        | e :: more =>
          match shortEscape e with
          | some d => do
            set more
            stringChars delim multiline fuel (d :: done)
          | none =>
            if e == 'u' || e == 'U' then
              let n := if e == 'u' then 4 else 8
              match codeChar (more.take n), (more.take n).length == n with
              | some d, true => do
                set (more.drop n)
                stringChars delim multiline fuel (d :: done)
              | _, _ => faultAt rest "invalid hex escape character in string"
            else if multiline && (isGap e || e == '\n') then
              match afterLineEscape rest with
              | some more => do
                set more
                stringChars delim multiline fuel done
              | none => faultAt rest "invalid escape character in string"
            else faultAt rest "invalid escape character in string"
      else if isStringChar c then do
        set rest
        stringChars delim multiline fuel (c :: done)
      else faultHere "invalid character in string"

/-- A string behind its first quote. A line end right behind three opening quotes
is not part of it. -/
def stringToken (delim : Char) (rest : List Char) : Reader Token := do
  match rest with
  | a :: b :: more =>
    if a == delim && b == delim then
      let more := match more with
        | '\n' :: more => more
        | more => more
      set more
      return .string (← stringChars delim true (more.length + 1) []) true
    else if a == delim then
      set (b :: more)
      return .string "" false
    else
      set rest
      return .string (← stringChars delim false (rest.length + 1) []) false
  | [a] =>
    if a == delim then
      set ([] : List Char)
      return .string "" false
    else
      set rest
      return .string (← stringChars delim false 2 []) false
  | [] => faultAt [] "unterminated string"

/-- The next token. -/
def next : Reader (Option Token) := do
  match ← get with
  | [] => pure none
  | c :: rest =>
    let single (t : Token) : Reader (Option Token) := do
      set rest
      pure (some t)
    match c with
    | '\n' => single .newline
    | '=' => single .equals
    | '.' => single .period
    | ',' => single .comma
    | ':' => single .colon
    | '+' => single .plus
    | '\x7b' => single .leftBrace
    | '\x7d' => single .rightBrace
    | '[' => single .leftBracket
    | ']' => single .rightBracket
    | '#' => do
      set (rest.dropWhile isCommentChar)
      pure (some .comment)
    | '\'' | '"' => return some (← stringToken c rest)
    | _ =>
      if isGap c then
        set (rest.dropWhile isGap)
        pure (some (.space (c :: rest.takeWhile isGap)))
      else if isBare c then
        set (rest.dropWhile isBare)
        pure (some (.bare (c :: rest.takeWhile isBare)))
      else faultHere ("unexpected character found: `" ++ String.ofList [c] ++ "`")

/-- The next token, which stays where it is. -/
def peek : Reader (Option Token) := do
  let here ← get
  let token ← next
  set here
  pure token

/-- Passes over a token if it comes next. -/
def eat (t : Token) : Reader Bool := do
  let here ← get
  if (← next) == some t then pure true
  else do
    set here
    pure false

/-- Passes over a token that has to come next. -/
def expect (t : Token) : Reader Unit := do
  let here ← get
  match ← next with
  | some found =>
    if found == t then pure ()
    else faultAt here ("expected " ++ t.shown ++ ", found " ++ found.shown)
  | none => faultAt here ("expected " ++ t.shown ++ ", found eof")

/-- Passes over spaces and tabs. -/
def eatGap : Reader Unit :=
  modify (List.dropWhile isGap)

/-- The end of a line or of the file. -/
def endLine : Reader Unit := do
  let here ← get
  match ← next with
  | none | some .newline => pure ()
  | some t => faultAt here ("expected newline, found " ++ t.shown)

/-- Passes over a comment and the end of its line, if one comes next. -/
def eatComment : Reader Bool := do
  let here ← get
  match ← peek with
  | some .comment => do
    set (here.tail.dropWhile isCommentChar)
    endLine
    pure true
  | _ => pure false

/-- Passes over what may stand between two items of an array. -/
def eatLines : Nat → Reader Unit
  | 0 => pure ()
  | fuel + 1 => do
    eatGap
    if ← eat .newline then eatLines fuel
    else if ← eatComment then eatLines fuel
    else pure ()

/-- One part of a key. -/
def keyPart : Reader String := do
  let here ← get
  match ← next with
  | some (.bare s) => pure (String.ofList s)
  | some (.string s false) => pure s
  | some (.string _ true) => faultAt here "multiline strings are not allowed for key"
  | some t => faultAt here ("expected a table key, found " ++ t.shown)
  | none => faultAt here "expected a table key, found eof"

/-- Further parts of a key, each behind a period. -/
def keyParts : Nat → Reader (List String)
  | 0 => pure []
  | fuel + 1 => do
    eatGap
    if ← eat .period then
      eatGap
      let part ← keyPart
      return part :: (← keyParts fuel)
    else pure []

/-- A key, with its parts. -/
def key : Reader (String × List String) := do
  let first ← keyPart
  return (first, ← keyParts ((← get).length + 1))

/-! ## Numbers and dates -/

/-- How far the digits of a number go: `none` for digits that no number has. A sign
may stand in front, single underscores between digits, and a zero in front of
another digit only where `zeros` allows it. -/
def integerPart (sign zeros : Bool) (radix : Nat) (s : List Char) :
    Option (List Char × List Char) :=
  let (signs, body) : List Char × List Char := match s with
    | c :: rest => if sign && (c == '+' || c == '-') then ([c], rest) else ([], s)
    | [] => ([], [])
  let rec scan (done : List Char) (zero underscore : Bool) :
      List Char → Option (List Char × List Char × Bool)
    | [] => some (done, [], underscore)
    | c :: rest =>
      if (digitValue radix c).isSome then
        if done.isEmpty then scan [c] (c == '0') false rest
        else if zero && !zeros then none
        else scan (c :: done) zero false rest
      else if c == '_' then
        if done.isEmpty then none
        else if underscore then some (done, c :: rest, underscore)
        else scan done zero true rest
      else some (done, c :: rest, underscore)
  match scan [] false false body with
  | none => none
  | some (done, suffix, underscore) =>
    if done.isEmpty || underscore then none else some (signs ++ done.reverse, suffix)

/-- The sign and the digits of a number. -/
def splitSign (s : List Char) : Bool × List Char :=
  match s with
  | '-' :: rest => (true, rest)
  | '+' :: rest => (false, rest)
  | s => (false, s)

/-- An integer of 64 bits. -/
def integerValue (here : List Char) (s : List Char) (radix : Nat) : Reader Value :=
  match integerPart (radix == 10) (radix != 10) radix s with
  | some (digits, []) =>
    let (negative, digits) := splitSign digits
    match digitsValue radix digits with
    | some n =>
      if negative && n ≤ Nat.pow 2 63 then pure (.integer (-n))
      else if !negative && n < Nat.pow 2 63 then pure (.integer n)
      else faultAt here "invalid number"
    | none => faultAt here "invalid number"
  | _ => faultAt here "invalid number"

/-- The value of a number with a fraction or an exponent. -/
def floatOf (here : List Char) (whole fraction exponent : List Char) : Reader Value :=
  let (negative, whole) := splitSign whole
  let (expNegative, exponent) := splitSign exponent
  let significand := (digitsValue 10 (whole ++ fraction)).getD 0
  let power : Int :=
    (if expNegative then -((digitsValue 10 exponent).getD 0 : Int)
      else (digitsValue 10 exponent).getD 0) - fraction.length
  let magnitude : Int := (Nat.toDigits 10 significand).length + power
  let value :=
    if magnitude < -400 then some ⟨0, -1074⟩
    else if significand != 0 && 400 < magnitude then none
    else if 0 ≤ power then Decimal.nearest (significand * Nat.pow 10 power.toNat) 1
    else Decimal.nearest significand (Nat.pow 10 (-power).toNat)
  match value with
  | some d => pure (.float negative d)
  | none => faultAt here "invalid number"

/-- The digits of an exponent, of which a sign may be a token of its own. -/
def exponentPart (here : List Char) (suffix : List Char) : Reader (List Char) := do
  let digits ← match suffix with
    | [_] => do
      discard (eat .plus)
      match ← next with
      | some (.bare s) => pure (integerPart false true 10 s)
      | _ => pure none
    | _ => pure (integerPart true true 10 suffix.tail)
  match digits with
  | some (digits, []) => pure digits
  | _ => faultAt here "invalid number"

/-- A number of double precision, perhaps with a fraction. -/
def floatValue (here : List Char) (s : List Char) (after : Option (List Char)) : Reader Value := do
  match integerPart true false 10 s with
  | none => faultAt here "invalid number"
  | some (whole, suffix) =>
    let (fraction, suffix) ← match after with
      | none => pure ([], suffix)
      | some after =>
        match suffix, integerPart false true 10 after with
        | [], some (fraction, rest) => pure (fraction, rest)
        | _, _ => faultAt here "invalid number"
    match suffix with
    | [] => floatOf here whole fraction []
    | c :: _ =>
      if c == 'e' || c == 'E' then floatOf here whole fraction (← exponentPart here suffix)
      else faultAt here "invalid number"

/-- A number. -/
def numberValue (here : List Char) (s : List Char) : Reader Value := do
  match s with
  | '0' :: 'x' :: digits => integerValue here digits 16
  | '0' :: 'o' :: digits => integerValue here digits 8
  | '0' :: 'b' :: digits => integerValue here digits 2
  | _ =>
    if s.contains 'e' || s.contains 'E' then floatValue here s none
    else if ← eat .period then
      match ← next with
      | some (.bare after) => floatValue here s (some after)
      | _ => faultAt here "invalid number"
    else match String.ofList s with
      | "inf" => pure (.special "inf")
      | "-inf" => pure (.special "-inf")
      | "nan" | "-nan" => pure (.special "NaN")
      | _ => integerValue here s 10

/-- A bare token that has to come next in a date. -/
def datePart (here : List Char) : Reader Unit := do
  match ← next with
  | some (.bare _) => pure ()
  | _ => faultAt here "invalid date"

/-- The rest of a date behind its first token. -/
def dateValue (here : List Char) (colonEaten : Bool) : Reader Value := do
  match ← get with
  | ' ' :: c :: rest => if isBare c then set (rest.dropWhile isBare)
  | _ => pure ()
  let time ← if colonEaten then pure true else eat .colon
  if time then
    datePart here
    expect .colon
    datePart here
    if ← eat .period then datePart here
    if ← eat .plus then datePart here
    if ← eat .colon then datePart here
  pure .date

/-- Whether a bare token starts a date: it has a letter between day and hour, or a
hyphen that is neither a sign nor that of an exponent. -/
def startsDate (s : List Char) : Bool :=
  let exponentMinus := (s.zip s.tail).any (fun p => (p.1 == 'e' || p.1 == 'E') && p.2 == '-')
  s.contains 'T' || s.contains 't' || (s.tail.contains '-' && !exponentMinus)

/-- A number or a date that starts by a bare token. -/
def numberOrDate (here : List Char) (s : List Char) : Reader Value := do
  if startsDate s then dateValue here false
  else if ← eat .colon then dateValue here true
  else numberValue here s

/-- The value of a bare token. -/
def bareValue (here : List Char) (s : List Char) : Reader Value :=
  match s with
  | [] => faultAt here "expected a value, found an identifier"
  | c :: _ =>
    let word := String.ofList s
    if word == "true" then pure (.boolean true)
    else if word == "false" then pure (.boolean false)
    else if word == "inf" || word == "nan" || c == '-' || c.isDigit then numberOrDate here s
    else faultAt here "invalid TOML value, did you mean to use a quoted string?"

/-! ## Tables -/

/-- Entries with one more under a key of several parts; the parts in front of the
last have to name tables made by keys with dots. -/
def insertDotted (value : Value) : List String → String → List (String × Value) →
    Option (List (String × Value))
  | [], last, entries => some (entries ++ [(last, value)])
  | next :: parts, first, entries =>
    match entries.find? (fun e => e.1 == first) with
    | some (_, .dotted inner) =>
      (insertDotted value parts next inner).map fun inner =>
        let rec replace : List (String × Value) → List (String × Value)
          | [] => []
          | e :: rest => if e.1 == first then (first, .dotted inner) :: rest else e :: replace rest
        replace entries
    | some _ => none
    | none =>
      (insertDotted value parts next []).map fun inner => entries ++ [(first, .dotted inner)]

/-- What a fault about dotted keys says. -/
def dottedFault : String := "dotted key attempted to extend non-table type"

mutual

/-- A value; `fuel` bounds the characters it may have. -/
def valueFuel : Nat → Reader Value
  | 0 => faultHere "unexpected eof encountered"
  | fuel + 1 => do
    let here ← get
    match ← next with
    | none => faultAt here "unexpected eof encountered"
    | some (.string s _) => pure (.string s)
    | some (.bare s) => bareValue here s
    | some .plus => do
      match ← next with
      | some (.bare s) => numberValue here s
      | _ => faultAt here "invalid number"
    | some .leftBracket => arrayItems fuel
    | some .leftBrace => do
      eatGap
      if ← eat .rightBrace then pure .table else tableEntries fuel []
    | some t => faultAt here ("expected a value, found " ++ t.shown)

/-- The items of an array, up to its end. -/
def arrayItems : Nat → Reader Value
  | 0 => faultHere "unexpected eof encountered"
  | fuel + 1 => do
    eatLines fuel
    if ← eat .rightBracket then pure .array
    else do
      discard (valueFuel fuel)
      eatLines fuel
      if ← eat .comma then arrayItems fuel
      else do
        eatLines fuel
        expect .rightBracket
        pure .array

/-- The entries of an inline table, up to its end. -/
def tableEntries : Nat → List (String × Value) → Reader Value
  | 0, _ => faultHere "unexpected eof encountered"
  | fuel + 1, entries => do
    let here ← get
    let (first, parts) ← key
    eatGap
    expect .equals
    eatGap
    let value ← valueFuel fuel
    match insertDotted value parts first entries with
    | none => faultAt here dottedFault
    | some entries =>
      eatGap
      if ← eat .rightBrace then pure .table
      else do
        expect .comma
        eatGap
        tableEntries fuel entries

end

/-- A value. -/
def value : Reader Value := do
  valueFuel ((← get).length + 1)

/-- The place of a value that is read from a text: a number with a point is placed at the
digits behind the point, anything else where it starts. -/
def valuePlace (v : Value) (here : List Char) : List Char :=
  match v with
  | .float .. =>
    let number := match here with
      | '+' :: rest => rest
      | _ => here
    match number.dropWhile isBare with
    | '.' :: digits => digits
    | _ => here
  | _ => here

/-- The head of a section up to the end of its line. -/
def sectionHead : Reader Section := do
  let here ← get
  expect .leftBracket
  let isItem ← eat .leftBracket
  eatGap
  let (first, parts) ← key
  expect .rightBracket
  if isItem then expect .rightBracket
  eatGap
  if !(← eatComment) then endLine
  pure ⟨first, isItem && parts.isEmpty, here⟩

/-- The lines of a file behind `entries` and `sections`, which are in reverse; the
last section has the assignments `inner`. -/
def lines : Nat → List (String × Value) → List Entry → List Section → Reader File
  | 0, _, entries, sections => pure ⟨entries.reverse, sections.reverse⟩
  | fuel + 1, inner, entries, sections => do
    eatGap
    match ← peek with
    | none => pure ⟨entries.reverse, sections.reverse⟩
    | some .newline => do
      discard next
      lines fuel inner entries sections
    | some .comment => do
      discard eatComment
      lines fuel inner entries sections
    | some .leftBracket => do
      let head ← sectionHead
      lines fuel [] entries (head :: sections)
    | some _ => do
      let here ← get
      let (first, parts) ← key
      eatGap
      expect .equals
      eatGap
      let start ← get
      let value ← value
      eatGap
      if !(← eatComment) then endLine
      match insertDotted value parts first inner with
      | none => faultAt here dottedFault
      | some added =>
        let isNew := parts.isEmpty || !(inner.any (fun e => e.1 == first))
        let shown : Value := if parts.isEmpty then value else .table
        let entries :=
          if sections.isEmpty && isNew then ⟨first, shown, valuePlace value start⟩ :: entries
          else entries
        lines fuel added entries sections

/-- A file. A byte order mark in front is passed over. -/
def file (text : String) : Except ReadError File :=
  let cs := match fileChars text with
    | c :: rest => if c.toNat == 0xFEFF then rest else c :: rest
    | [] => []
  (lines (cs.length + 1) [] [] []).run' cs

end PegCompiler.Config
