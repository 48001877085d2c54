import PegCompiler.Layout.Doc
/-!
  Laying out a document. `Doc.layout` turns a document into events: text, line ends
  with the indentation after them, and the begin and the end of styled parts. Only
  the column and the text ahead decide whether a group is flat; a style never does.

  This stands for the layout algorithm of the external pretty printing library. What
  is asked of it is documented there and stated apart from it as `Doc.LaidOut`.

  Correspondence (program ↔ here):
    `DocBuilder::render_raw`, up to its renderer ↔ `Doc.layout`, `Doc.pieces`
    `PrintCfg`                                   ↔ `Page`
-/

namespace PegCompiler.Layout

/-- An event of a layout. -/
inductive Piece where
  | text (s : String)
  /-- A line end and the indentation of the next line. -/
  | newline (indent : Nat)
  /-- A part with a style begins. -/
  | push (style : Style)
  /-- The part with a style that began last ends. -/
  | pop
  deriving DecidableEq, Repr

/-- An indentation moved by an offset, never left of the margin. -/
def shift (indent : Nat) (by_ : Int) : Nat :=
  (indent + by_).toNat

/-- Where a document is laid out. -/
structure Place where
  indent : Nat
  flat : Bool
  /-- What follows the document up to the next possible line end; only groups ask. -/
  after : Unit → Ahead

/-- Whether a group fits behind a column, with the text that follows it. -/
def fits (width column : Nat) (after : Ahead) (d : Doc) : Bool :=
  match d.flatWidth with
  | none => false
  | some w =>
    match addWidth w after.width with
    | none => true
    | some n => column + n ≤ width

/-- The events of a document laid out from a column on, and the column behind it. -/
def Doc.layout (width : Nat) : Doc → Place → Nat → List Piece × Nat
  | .nil, _, column => ([], column)
  | .text s, _, column => ([.text s], column + Text.width s)
  | .line, place, _ => ([.newline place.indent], place.indent)
  | .append a b, place, column =>
    let left := a.layout width { place with after := fun _ => b.ahead.and place.after } column
    let right := b.layout width place left.2
    (left.1 ++ right.1, right.2)
  | .nest by_ d, place, column =>
    d.layout width { place with indent := shift place.indent by_ } column
  | .group d, place, column =>
    d.layout width { place with flat := place.flat || fits width column (place.after ()) d } column
  | .choice broken flat, place, column =>
    if place.flat then flat.layout width place column else broken.layout width place column
  | .styled style d, place, column =>
    let body := d.layout width place column
    (.push style :: (body.1 ++ [.pop]), body.2)

/-- The events of a whole document. -/
def Doc.pieces (width : Nat) (d : Doc) : List Piece :=
  (d.layout width ⟨0, false, fun _ => ⟨none, false⟩⟩ 0).1

/-- The widths of the page and of one level of indentation. -/
structure Page where
  width : Nat := 132
  indent : Int := 4
  deriving DecidableEq, Repr

end PegCompiler.Layout
