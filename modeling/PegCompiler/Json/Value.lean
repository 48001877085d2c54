import PegCompiler.Json.Number
/-!
  JSON values and their compact text. An object keeps its entries in their order
  and keeps repeated keys.

  Correspondence (program ↔ here):
    `serde_json::Value` and its `Display` ↔ `Json`, `render`
-/

namespace PegCompiler

/-- A JSON value. -/
inductive Json where
  | null
  | bool (b : Bool)
  | number (n : Json.Number)
  | string (s : String)
  | array (items : List Json)
  | object (entries : List (String × Json))
  deriving Repr, Inhabited

namespace Json

/-- A natural number. -/
def nat (n : Nat) : Json := .number (.ofNat n)

/-- A text, or null. -/
def optional (s : Option String) : Json :=
  match s with
  | some s => .string s
  | none => .null

/-- An object of one entry. -/
def tagged (tag : String) (payload : Json) : Json :=
  .object [(tag, payload)]

/-- A hexadecimal digit. -/
def hexDigit (n : Nat) : Char :=
  Nat.digitChar (n % 16)

/-- A character in a JSON string: quotes, backslashes and control characters are
escaped, everything else stands for itself. -/
def escapedChar (c : Char) : List Char :=
  if c == '"' then ['\\', '"']
  else if c == '\\' then ['\\', '\\']
  else if c == '\n' then ['\\', 'n']
  else if c == '\r' then ['\\', 'r']
  else if c == '\t' then ['\\', 't']
  else if c.toNat == 8 then ['\\', 'b']
  else if c.toNat == 12 then ['\\', 'f']
  else if c.toNat < 0x20 then
    ['\\', 'u', '0', '0', hexDigit (c.toNat / 16), hexDigit c.toNat]
  else [c]

/-- A JSON string. -/
def stringText (s : String) : List Char :=
  '"' :: (s.toList.flatMap escapedChar ++ ['"'])

mutual

/-- The text of a value, without any white space. -/
def text : Json → List Char
  | .null => ['n', 'u', 'l', 'l']
  | .bool true => ['t', 'r', 'u', 'e']
  | .bool false => ['f', 'a', 'l', 's', 'e']
  | .number n => n.text
  | .string s => stringText s
  | .array items => '[' :: (itemsText items ++ [']'])
  | .object entries => '\x7b' :: (entriesText entries ++ ['\x7d'])

/-- The items of an array. -/
def itemsText : List Json → List Char
  | [] => []
  | [v] => v.text
  | v :: rest => v.text ++ ',' :: itemsText rest

/-- The entries of an object. -/
def entriesText : List (String × Json) → List Char
  | [] => []
  | [(key, v)] => stringText key ++ ':' :: v.text
  | (key, v) :: rest => stringText key ++ ':' :: (v.text ++ ',' :: entriesText rest)

end

/-- The text of a value. -/
def render (v : Json) : String :=
  String.ofList v.text

end Json

end PegCompiler
