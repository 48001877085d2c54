import PegCompiler.Decimal.Shortest
import PegCompiler.Text.Lines
import PegCompiler.Text.Quoted
/-!
  Values of configuration files, and what can be wrong with a file.
-/

namespace PegCompiler.Config

/-- A value. Of what no option can take, only the kind is kept. -/
inductive Value where
  | string (s : String)
  | integer (n : Int)
  | float (negative : Bool) (value : Decimal.Double)
  /-- Infinities and what is no number, by their text. -/
  | special (text : String)
  | boolean (b : Bool)
  | date
  | array
  | table
  /-- A table made by keys with dots. -/
  | dotted (entries : List (String × Value))
  deriving Repr

/-- A value in messages. -/
def Value.shown : Value → String
  | .string s => "string " ++ Text.quoted s
  | .integer n => "integer `" ++ toString n ++ "`"
  | .float negative value =>
    "floating point `" ++ (if negative then "-" else "") ++
      (Decimal.shortest value).text Decimal.configNotation ++ "`"
  | .special text => "floating point `" ++ text ++ "`"
  | .boolean b => "boolean `" ++ (if b then "true" else "false") ++ "`"
  | .array => "sequence"
  | .date | .table | .dotted _ => "map"

/-- An assignment, with the text from the place of its value on. -/
structure Entry where
  key : String
  value : Value
  rest : List Char

/-- The head of a section, with the text from the head on. -/
structure Section where
  key : String
  /-- The section is an item of a list of tables. -/
  isItem : Bool
  rest : List Char

/-- A file: the assignments in front of its sections, and the sections. -/
structure File where
  entries : List Entry
  sections : List Section

/-- A cause for not reading a configuration. -/
inductive Cause where
  /-- The text is not a configuration file. -/
  | fault (message : String)
  | unknownKey (key : String)
  | duplicateKey (key : String)
  | wrongType (found : Value) (expected key : String)
  | wrongValue (found : Value) (expected key : String)
  deriving Repr

/-- Why and where reading ended. -/
structure ReadError where
  cause : Cause
  /-- The text from there on. -/
  rest : List Char
  deriving Repr

/-- The names of the options. -/
def knownKeys : List String := ["module_name", "runtime_module", "indent", "width"]

/-- The message of a cause. -/
def Cause.message : Cause → String
  | .fault message => message
  | .unknownKey key =>
    "unknown field `" ++ key ++ "`, expected one of " ++
      ", ".intercalate (knownKeys.map (fun k => "`" ++ k ++ "`"))
  | .duplicateKey key => "duplicate field `" ++ key ++ "`"
  | .wrongType found expected key =>
    "invalid type: " ++ found.shown ++ ", expected " ++ expected ++ " for key `" ++ key ++ "`"
  | .wrongValue found expected key =>
    "invalid value: " ++ found.shown ++ ", expected " ++ expected ++ " for key `" ++ key ++ "`"

/-- Whether a cause is a fault of the text. -/
def Cause.isFault : Cause → Bool
  | .fault _ => true
  | _ => false

/-- The line and the column of an error, both from 1 on; columns count bytes. -/
def ReadError.place (e : ReadError) (all : List Char) : Nat × Nat :=
  (all.take (all.length - e.rest.length)).foldl
    (fun (line, column) c => if c == '\n' then (line + 1, 1) else (line, column + c.utf8Size))
    (1, 1)

/-- The characters of a file: a line end of two characters counts as one. -/
def fileChars (text : String) : List Char :=
  Text.joinLineEnds text.toList

/-- The message of an error with its place. -/
def ReadError.message (e : ReadError) (all : String) : String :=
  let (line, column) := e.place (fileChars all)
  e.cause.message ++ " at line " ++ toString line ++ " column " ++ toString column

end PegCompiler.Config
