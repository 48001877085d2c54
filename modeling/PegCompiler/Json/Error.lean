import PegCompiler.Json.Number
import PegCompiler.Text.Quoted
/-!
  What can go wrong when a document is read. A fault is text that is not JSON, or
  JSON that no value of the expected shape starts with; all other causes name what
  is missing, repeated or of a wrong type.

  Correspondence (program ↔ here):
    `serde_json::Error`, `strip_position` ↔ `Cause`, `Cause.message`, `ReadError.place`
-/

namespace PegCompiler.Json

/-- Faults of the text. -/
inductive Fault where
  | endInValue | endInString | endInArray | endInObject
  | expectedValue | expectedWord | expectedColon | expectedItemEnd | expectedEntryEnd
  | keyNotString | trailingComma | trailingText
  | escape | surrogate | hexEnd | control | number | numberRange
  deriving DecidableEq, Repr

/-- The message of a fault. -/
def Fault.message : Fault → String
  | .endInValue => "EOF while parsing a value"
  | .endInString => "EOF while parsing a string"
  | .endInArray => "EOF while parsing a list"
  | .endInObject => "EOF while parsing an object"
  | .expectedValue => "expected value"
  | .expectedWord => "expected ident"
  | .expectedColon => "expected `:`"
  | .expectedItemEnd => "expected `,` or `]`"
  | .expectedEntryEnd => "expected `,` or `\x7d`"
  | .keyNotString => "key must be a string"
  | .trailingComma => "trailing comma"
  | .trailingText => "trailing characters"
  | .escape => "invalid escape"
  | .surrogate => "lone leading surrogate in hex escape"
  | .hexEnd => "unexpected end of hex escape"
  | .control => "control character (\\u0000-\\u001F) found while parsing a string"
  | .number => "invalid number"
  | .numberRange => "number out of range"

/-- A value of a wrong type. -/
inductive Found where
  | null
  | boolean (b : Bool)
  | integer (n : Int)
  | float (negative : Bool) (value : Decimal.Double)
  | string (s : String)
  | sequence
  | map
  | bareTag
  deriving DecidableEq, Repr

/-- A number of double precision in messages. -/
def floatText (style : Decimal.Notation) (negative : Bool) (value : Decimal.Double) : String :=
  (if negative then "-" else "") ++ (Decimal.shortest value).text style

/-- A value of a wrong type in messages. -/
def Found.shown : Found → String
  | .null => "null"
  | .boolean b => "boolean `" ++ (if b then "true" else "false") ++ "`"
  | .integer n => "integer `" ++ toString n ++ "`"
  | .float negative value =>
    "floating point `" ++ floatText Decimal.documentNotation negative value ++ "`"
  | .string s => "string " ++ Text.quoted s
  | .sequence => "sequence"
  | .map => "map"
  | .bareTag => "unit variant"

/-- A cause for not reading a document. -/
inductive Cause where
  | fault (fault : Fault)
  | tooDeep
  | missingField (name : String)
  | duplicateField (name : String)
  | unknownTag (tag : String) (known : List String)
  | wrongType (found : Found) (expected : String)
  | wrongValue (found : Found) (expected : String)
  | wrongLength (length : Nat) (expected : String)
  deriving DecidableEq, Repr

/-- Several names, any of which is expected. -/
def oneOf (names : List String) : String :=
  match names.map (fun n => "`" ++ n ++ "`") with
  | [a] => a
  | [a, b] => a ++ " or " ++ b
  | shown => "one of " ++ ", ".intercalate shown

/-- The message of a cause. -/
def Cause.message : Cause → String
  | .fault f => f.message
  | .tooDeep => "recursion limit exceeded"
  | .missingField name => "missing field `" ++ name ++ "`"
  | .duplicateField name => "duplicate field `" ++ name ++ "`"
  | .unknownTag tag known => "unknown variant `" ++ tag ++ "`, expected " ++ oneOf known
  | .wrongType found expected => "invalid type: " ++ found.shown ++ ", expected " ++ expected
  | .wrongValue found expected => "invalid value: " ++ found.shown ++ ", expected " ++ expected
  | .wrongLength length expected =>
    "invalid length " ++ toString length ++ ", expected " ++ expected

/-- Whether a cause is a fault of the text. -/
def Cause.isFault : Cause → Bool
  | .fault _ => true
  | _ => false

/-- Why and where reading ended. -/
structure ReadError where
  cause : Cause
  /-- The text from there on. -/
  rest : List Char
  /-- The place is behind the next byte of the text. -/
  peeked : Bool := false
  /-- The construct around the place has still to say where it ended. -/
  pending : Bool := false
  deriving DecidableEq, Repr

/-- A line and a column, both counted from 1; the column behind a line end is
0. -/
structure Place where
  line : Nat := 1
  column : Nat := 0
  deriving DecidableEq, Repr

/-- The place behind one more character; columns count bytes. -/
def Place.advance (p : Place) (c : Char) : Place :=
  if c == '\n' then ⟨p.line + 1, 0⟩ else ⟨p.line, p.column + c.utf8Size⟩

/-- The place of an error in the text that was read. -/
def ReadError.place (e : ReadError) (all : List Char) : Place :=
  let p := (all.take (all.length - e.rest.length)).foldl Place.advance {}
  match e.peeked, e.rest with
  | true, '\n' :: _ => ⟨p.line + 1, 0⟩
  | true, _ :: _ => ⟨p.line, p.column + 1⟩
  | _, _ => p

end PegCompiler.Json
