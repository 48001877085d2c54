import PegCompiler.Text.Lines
/-!
  The common indentation of a block of code. Blank lines do not count, and only
  spaces and tabs indent: other white space belongs to the code.

  Correspondence (program ↔ here):
    `dedent` ↔ `dedent`
-/

namespace PegCompiler.Text

/-- Spaces and tabs, one column each. -/
def isIndent (c : Char) : Bool :=
  c == ' ' || c == '\t'

/-- How many spaces and tabs a line starts with. -/
def indentOf (line : List Char) : Nat :=
  (line.takeWhile isIndent).length

/-- The lines without the empty ones at either end. -/
def trimEmpty (ls : List (List Char)) : List (List Char) :=
  ((ls.dropWhile List.isEmpty).reverse.dropWhile List.isEmpty).reverse

/-- The indentation shared by all lines that are not empty, 0 if there is
none. -/
def commonIndent (ls : List (List Char)) : Nat :=
  (((ls.filter (fun line => !line.isEmpty)).map indentOf).min?).getD 0

/-- The lines of a block of code: blank lines at either end, blanks at line
ends and the common indentation are removed. -/
def dedent (code : List Char) : List (List Char) :=
  let ls := trimEmpty ((lines code).map trimEnd)
  ls.map (List.drop (commonIndent ls))

/-- The lines of a block of code as texts. -/
def dedentLines (code : String) : List String :=
  (dedent code.toList).map String.ofList

end PegCompiler.Text
