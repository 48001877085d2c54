import PegCompiler.Text.Blank
/-!
  Lines of a text. A line ends at a line feed, and one carriage return right
  before it belongs to the line end; a text that ends in a line feed has no
  further line after it.

  Correspondence (program ↔ here):
    the line ends of `read_to_string` ↔ `joinLineEnds`
    `tidy`                            ↔ `tidy`
-/

namespace PegCompiler.Text

/-- The lines of the rest of a text, and whether that rest starts with a line
feed. -/
structure LineSplit where
  atFeed : Bool
  lines : List (List Char)

/-- The split with one more character in front. -/
def LineSplit.cons (c : Char) (s : LineSplit) : LineSplit :=
  if c == '\n' then ⟨true, [] :: s.lines⟩
  else if c == '\r' && s.atFeed then ⟨false, s.lines⟩
  else match s.lines with
    | [] => ⟨false, [[c]]⟩
    | line :: rest => ⟨false, (c :: line) :: rest⟩

/-- The lines of a text, without their ends. -/
def lines (cs : List Char) : List (List Char) :=
  (cs.foldr LineSplit.cons ⟨false, []⟩).lines

/-- The lines of a text as texts. -/
def linesOf (s : String) : List String :=
  (lines s.toList).map String.ofList

/-- A text with each line end of two characters made one. -/
def joinLineEnds : List Char → List Char
  | [] => []
  | '\r' :: '\n' :: rest => '\n' :: joinLineEnds rest
  | c :: rest => c :: joinLineEnds rest

/-- The text with the blank characters at the end of each line removed and
every line ended by a line feed. -/
def tidy (s : String) : String :=
  (lines s.toList).foldl (fun out line => out ++ String.ofList (trimEnd line) ++ "\n") ""

end PegCompiler.Text
