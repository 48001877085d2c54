/-!
  Text without terminal codes. A code starts with the escape character; how it goes
  on decides where it ends. Other control characters are dropped as well, except
  those that are white space.

  White space inside of a code is kept, and what comes right behind it counts as
  text up to the next control character, where the code goes on.

  Correspondence (program ↔ here):
    the codes that `env_logger` drops ↔ `withoutCodes`
-/

namespace PegCompiler.Text

/-- Where in a terminal code a text is. -/
inductive CodeState where
  /-- Outside of codes. -/
  | plain
  /-- Behind the escape character. -/
  | escape
  /-- Behind the escape character and signs that select a code of two parts. -/
  | selected
  /-- In a code that its first character from `@` on ends. -/
  | control
  /-- In a title for the terminal, which a bell ends. -/
  | title
  /-- At the parameters of a code for the device. -/
  | device
  /-- Behind the first parameter of a code for the device. -/
  | deviceParam
  /-- Behind the parameters of a code for the device. -/
  | deviceSelected
  /-- In a text for the device, which a byte of value `0x9C` ends. -/
  | string
  deriving DecidableEq, Repr

/-- The escape character. -/
def escapeChar : Char := '\x1b'

/-- Whether a control character is white space. -/
def isControlSpace (c : Char) : Bool :=
  c == '\t' || c == '\n' || c == '\x0c' || c == '\r'

/-- Whether a character stays outside of codes. -/
def isShown (c : Char) : Bool :=
  (0x20 ≤ c.toNat && c.toNat != 0x7F) || isControlSpace c

/-- Whether a code point lies between two others, ends included. -/
def within (low high : Nat) (c : Char) : Bool :=
  low ≤ c.toNat && c.toNat ≤ high

/-- Whether one of the bytes of a character ends a text for the device. -/
def endsString (c : Char) : Bool :=
  (String.utf8EncodeChar c).contains 0x9C

namespace CodeState

/-- The state behind one more character of a code. -/
def next (s : CodeState) (c : Char) : CodeState :=
  if c == escapeChar then .escape
  else if c.toNat == 0x18 || c.toNat == 0x1A then .plain
  else
    match s with
    | .plain => .plain
    | .escape =>
      if c == '[' then .control
      else if c == ']' then .title
      else if c == 'P' then .device
      else if c == 'X' || c == '^' || c == '_' then .string
      else if within 0x20 0x2F c then .selected
      else if within 0x30 0x7E c then .plain
      else .escape
    | .selected => if within 0x30 0x7E c then .plain else .selected
    | .control => if within 0x40 0x7E c then .plain else .control
    | .title => if c.toNat == 7 then .plain else .title
    | .device =>
      if within 0x20 0x2F c then .deviceSelected
      else if within 0x30 0x3F c then .deviceParam
      else if within 0x40 0x7E c then .string
      else .device
    | .deviceParam =>
      if within 0x20 0x2F c then .deviceSelected
      else if within 0x3C 0x7E c then .string
      else .deviceParam
    | .deviceSelected => if within 0x30 0x7E c then .string else .deviceSelected
    | .string => if endsString c then .plain else .string

/-- Whether a character that belongs to a code, or to none, stays. -/
def keeps (s : CodeState) (c : Char) : Bool :=
  match s with
  | .plain => isShown c
  | .escape | .selected | .control => isControlSpace c
  | _ => false

end CodeState

/-- A place in a text with codes: the code it is in, and whether what comes next counts
as text all the same. -/
structure CodePlace where
  state : CodeState := .plain
  showing : Bool := false
  deriving DecidableEq, Repr

namespace CodePlace

/-- Whether a character stays. -/
def keeps (p : CodePlace) (c : Char) : Bool :=
  if p.showing then isShown c else p.state.keeps c

/-- The place behind one more character; a shown character beyond ASCII ends any
code. -/
def next (p : CodePlace) (c : Char) : CodePlace :=
  if p.showing && isShown c then { p with state := if c.toNat < 128 then p.state else .plain }
  else ⟨p.state.next c, p.keeps c⟩

end CodePlace

/-- The characters outside of codes, from a place on. -/
def outsideCodes (p : CodePlace) : List Char → List Char
  | [] => []
  | c :: rest =>
    if p.keeps c then c :: outsideCodes (p.next c) rest else outsideCodes (p.next c) rest

/-- A text without terminal codes. -/
def withoutCodes (s : String) : String :=
  String.ofList (outsideCodes {} s.toList)

end PegCompiler.Text
