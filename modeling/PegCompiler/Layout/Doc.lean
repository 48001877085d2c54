import PegCompiler.Text.Cluster
/-!
  Documents: text with places where a line may end. A group is laid out on one
  line if it fits and broken otherwise; an alternative shows one document in a
  flat group and another in a broken one. Text itself is never split.

  `Doc.ahead` and `Doc.flatWidth` are the two measures that decide whether a
  group fits; `Layout.Render` uses nothing else of a document to decide.

  Correspondence (program ↔ here):
    `pretty::Doc`, `Anno`                         ↔ `Doc`, `Style`
    `text`, `hardline`, `append`, `nest`, `group` ↔ the constructors of `Doc`
    `flat_alt`, `annotate`                        ↔ `Doc.choice`, `Doc.styled`
    `concat`, `intersperse`                       ↔ `Doc.concat`, `Doc.join`
    `parens`, `brackets`, `braces`                ↔ `Doc.parens`, `Doc.brackets`, `Doc.braces`
    `ContinuationExt::continuation`, `continued`  ↔ `Doc.continuation`, `Doc.continued`
    `ThemeExt`                                    ↔ `Doc.mark`, `Doc.keyword`
-/

namespace PegCompiler.Layout

/-- The roles that text can be colored by. -/
inductive Style where
  | keyword | type | comment | literal | rule
  deriving DecidableEq, Repr

/-- A document. -/
inductive Doc where
  | nil
  | text (s : String)
  /-- The end of a line. -/
  | line
  | append (left right : Doc)
  /-- A document whose lines are indented further, or less if negative. -/
  | nest (by_ : Int) (body : Doc)
  | group (body : Doc)
  /-- `broken` in a broken group, `flat` in one that fits on its line. -/
  | choice (broken flat : Doc)
  | styled (style : Style) (body : Doc)
  deriving DecidableEq, Repr

instance : Append Doc := ⟨Doc.append⟩

instance : Coe String Doc := ⟨Doc.text⟩

namespace Doc

/-- A space. -/
def space : Doc := .text " "

/-- Documents one after another. -/
def concat : List Doc → Doc
  | [] => .nil
  | [d] => d
  | d :: ds => d ++ concat ds

/-- Documents with a separator between each two. -/
def join (sep : Doc) : List Doc → Doc
  | [] => .nil
  | [d] => d
  | d :: ds => d ++ (sep ++ join sep ds)

/-- A document in round brackets. -/
def parens (d : Doc) : Doc := .text "(" ++ (d ++ .text ")")

/-- A document in square brackets. -/
def brackets (d : Doc) : Doc := .text "[" ++ (d ++ .text "]")

/-- A document in curly brackets. -/
def braces (d : Doc) : Doc := .text "\x7b" ++ (d ++ .text "\x7d")

/-- Colored text. -/
def mark (style : Style) (s : String) : Doc := .styled style (.text s)

/-- A keyword. -/
def keyword (s : String) : Doc := mark .keyword s

/-- A place where a statement may go on in the next line: a space if its group
fits, else an ampersand and the end of the line. -/
def continuation : Doc := .choice (.text " &" ++ .line) space

/-- Items with a separator and a possible continuation between each two; all of
them break or none does. -/
def continued (sep : String) (ds : List Doc) : Doc :=
  .group (join (.text sep ++ continuation) ds)

end Doc

/-- The text found before a possible line end: its width if there is any text,
and whether the line end was found. -/
structure Ahead where
  width : Option Nat
  ended : Bool
  deriving DecidableEq, Repr

/-- The width of two stretches of text in a row. -/
def addWidth : Option Nat → Option Nat → Option Nat
  | none, w => w
  | w, none => w
  | some a, some b => some (a + b)

/-- What is found in two documents in a row. -/
def Ahead.and (a : Ahead) (b : Unit → Ahead) : Ahead :=
  if a.ended then a else
    let rest := b ()
    ⟨addWidth a.width rest.width, rest.ended⟩

/-- The text that stands before the first place where a broken document can end
a line. -/
def Doc.ahead : Doc → Ahead
  | .nil => ⟨none, false⟩
  | .text s => ⟨some (Text.width s), false⟩
  | .line => ⟨none, true⟩
  | .append a b => a.ahead.and (fun _ => b.ahead)
  | .nest _ d => d.ahead
  | .group d => d.ahead
  | .choice broken _ => broken.ahead
  | .styled _ d => d.ahead

/-- The width of a document on one line, or `none` if it ends a line in any
case. -/
def Doc.flatWidth : Doc → Option (Option Nat)
  | .nil => some none
  | .text s => some (some (Text.width s))
  | .line => none
  | .append a b =>
    match a.flatWidth with
    | none => none
    | some w => b.flatWidth.map (addWidth w)
  | .nest _ d => d.flatWidth
  | .group d => d.flatWidth
  | .choice _ flat => flat.flatWidth
  | .styled _ d => d.flatWidth

end PegCompiler.Layout
