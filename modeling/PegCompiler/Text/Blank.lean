/-!
  White space. A character is blank when it has the White_Space property; the
  rest of the library trims and tests text by this one class.
-/

namespace PegCompiler.Text

/-- The characters with the White_Space property. -/
def isBlank (c : Char) : Bool :=
  let n := c.toNat
  (9 ≤ n && n ≤ 13) || n == 0x20 || n == 0x85 || n == 0xA0 || n == 0x1680 ||
    (0x2000 ≤ n && n ≤ 0x200A) || n == 0x2028 || n == 0x2029 || n == 0x202F ||
    n == 0x205F || n == 0x3000

/-- The characters without the blank ones at their end. -/
def trimEnd (cs : List Char) : List Char :=
  (cs.reverse.dropWhile isBlank).reverse

/-- The characters without the blank ones at either end. -/
def trim (cs : List Char) : List Char :=
  trimEnd (cs.dropWhile isBlank)

/-- A text without the blank characters at either end. -/
def trimmed (s : String) : String :=
  String.ofList (trim s.toList)

/-- Whether a text has only blank characters. -/
def isBlankText (s : String) : Bool :=
  s.toList.all isBlank

end PegCompiler.Text
