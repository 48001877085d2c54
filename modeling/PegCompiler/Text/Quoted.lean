import PegCompiler.Text.Printable
/-!
  Quoted text. Two notations show a text without its control characters:
  `quoted` puts it between double quotes, as messages and printed literals do,
  and `escaped` is the notation of character classes, where everything outside
  printable ASCII is shown by its code.
-/

namespace PegCompiler.Text

/-- A code point in hexadecimal digits between braces, after a backslash and a
`u`. -/
def codeEscape (c : Char) : List Char :=
  ['\\', 'u', '\x7b'] ++ Nat.toDigits 16 c.toNat ++ ['\x7d']

/-- A character inside double quotes: a single quote needs no escape, and what
cannot be shown is written by its code. -/
def quotedChar (c : Char) : List Char :=
  if c == '"' then ['\\', '"']
  else if c == '\\' then ['\\', '\\']
  else if c == '\n' then ['\\', 'n']
  else if c == '\r' then ['\\', 'r']
  else if c == '\t' then ['\\', 't']
  else if c.toNat == 0 then ['\\', '0']
  else if 0x20 ≤ c.toNat && c.toNat ≤ 0x7E then [c]
  else if isUnprintable c then codeEscape c
  else [c]

/-- A text between double quotes. -/
def quoted (s : String) : String :=
  String.ofList (['"'] ++ s.toList.flatMap quotedChar ++ ['"'])

/-- A character of a class: quotes are escaped, and what is not printable ASCII
is written by its code. -/
def escapedChar (c : Char) : List Char :=
  if c == '\t' then ['\\', 't']
  else if c == '\r' then ['\\', 'r']
  else if c == '\n' then ['\\', 'n']
  else if c == '\'' then ['\\', '\'']
  else if c == '"' then ['\\', '"']
  else if c == '\\' then ['\\', '\\']
  else if 0x20 ≤ c.toNat && c.toNat ≤ 0x7E then [c]
  else codeEscape c

/-- The characters of a text in the notation of classes. -/
def escaped (s : String) : String :=
  String.ofList (s.toList.flatMap escapedChar)

end PegCompiler.Text
