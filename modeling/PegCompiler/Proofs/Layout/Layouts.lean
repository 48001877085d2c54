import PegCompiler.Layout.Output
/-
  The layouts that a document can have. `Doc.LaidOut` says of the events of a layout what is
  documented of the pretty printing library: text stands as it is and in its order, a line
  end is followed by the indentation around it, a group is flat or broken as a whole and
  with it the groups in a flat one, of alternatives the one for flat groups stands in these,
  and styles begin and end around their parts. Which groups are flat is left open.

  So what is shown of all layouts (`Doc.Arrangement`) does not depend on how the library decides
  that a group fits. The layouts of the program are among them (`Doc.fitted`).
-/

namespace PegCompiler.Layout

/-- The layouts of a document from an indentation, in a group that is flat or broken. -/
def Doc.LaidOut : Doc → Nat → Bool → List Piece → Prop
  | .nil, _, _, ps => ps = []
  | .text s, _, _, ps => ps = [.text s]
  | .line, indent, _, ps => ps = [.newline indent]
  | .append a b, indent, flat, ps =>
    ∃ front back, ps = front ++ back ∧ a.LaidOut indent flat front ∧ b.LaidOut indent flat back
  | .nest by_ d, indent, flat, ps => d.LaidOut (shift indent by_) flat ps
  | .group d, indent, flat, ps => ∃ inner, (flat = true → inner = true) ∧ d.LaidOut indent inner ps
  | .choice broken flat, indent, isFlat, ps =>
    if isFlat then flat.LaidOut indent isFlat ps else broken.LaidOut indent isFlat ps
  | .styled style d, indent, flat, ps =>
    ∃ body, ps = .push style :: (body ++ [.pop]) ∧ d.LaidOut indent flat body

/-- Of alternatives the one that belongs to the group stands there. -/
theorem Doc.LaidOut.of_choice {broken flat : Doc} {indent : Nat} {isFlat : Bool} {ps : List Piece}
    (h : (Doc.choice broken flat).LaidOut indent isFlat ps) :
    isFlat = true ∧ flat.LaidOut indent true ps ∨
      isFlat = false ∧ broken.LaidOut indent false ps := by
  cases isFlat with
  | true => exact .inl ⟨rfl, h⟩
  | false => exact .inr ⟨rfl, h⟩

/-- A layout of a document. -/
structure Doc.Arrangement (d : Doc) (indent : Nat) (flat : Bool) where
  pieces : List Piece
  laidOut : d.LaidOut indent flat pieces

/-- Wherever the program lays a document out, its events are a layout. -/
theorem laidOut_layout (width : Nat) (d : Doc) : ∀ (place : Place) (column : Nat),
    d.LaidOut place.indent place.flat (d.layout width place column).1 := by
  induction d with
  | nil => exact fun _ _ => rfl
  | text s => exact fun _ _ => rfl
  | line => exact fun _ _ => rfl
  | append a b iha ihb =>
    exact fun place _ =>
      ⟨_, _, rfl, iha { place with after := fun _ => b.ahead.and place.after } _, ihb place _⟩
  | nest by_ d ih => exact fun place => ih { place with indent := shift place.indent by_ }
  | group d ih =>
    intro place column
    refine ⟨place.flat || fits width column (place.after ()) d, fun hflat => ?_, ih { place with
      flat := place.flat || fits width column (place.after ()) d } column⟩
    rw [hflat, Bool.true_or]
  | choice broken flat ihbroken ihflat =>
    intro place column
    rw [Doc.LaidOut, Doc.layout]
    split
    · exact ihflat place column
    · exact ihbroken place column
  | styled style d ih => exact fun place column => ⟨_, rfl, ih place column⟩

/-- The layout of the program for pages of a width. -/
def Doc.fitted (width : Nat) (d : Doc) : d.Arrangement 0 false :=
  ⟨d.pieces width, laidOut_layout width d ⟨0, false, fun _ => ⟨none, false⟩⟩ 0⟩

/-! ## Plain text -/

/-- Events as plain text. -/
def plainText (ps : List Piece) : String :=
  (render ps (IoWrite.mk "")).upstream

/-- A layout as plain text. -/
def Doc.Arrangement.plain {d : Doc} {indent : Nat} {flat : Bool} (layout : d.Arrangement indent flat) :
    String :=
  plainText layout.pieces

theorem plain_fitted (d : Doc) (width : Nat) : (d.fitted width).plain = d.plain width := rfl

/-- The characters of an event. -/
def Piece.chars : Piece → List Char
  | .text s => s.toList
  | .newline indent => (newlineText indent).toList
  | .push _ | .pop => []

theorem toList_upstream (ps : List Piece) : ∀ out : String,
    (render ps (IoWrite.mk out)).upstream.toList = out.toList ++ ps.flatMap Piece.chars := by
  induction ps with
  | nil => exact fun out => (List.append_nil _).symm
  | cons p ps ih =>
    intro out
    rw [List.flatMap_cons, ← List.append_assoc]
    cases p with
    | text s => exact (ih (out ++ s)).trans (by rw [String.toList_append]; rfl)
    | newline indent =>
      exact (ih (out ++ newlineText indent)).trans (by rw [String.toList_append]; rfl)
    | push style => exact (ih out).trans (by rw [Piece.chars, List.append_nil])
    | pop => exact (ih out).trans (by rw [Piece.chars, List.append_nil])

/-- The plain text of events has their characters. -/
theorem toList_plainText (ps : List Piece) : (plainText ps).toList = ps.flatMap Piece.chars :=
  toList_upstream ps ""

theorem toList_plain (d : Doc) (width : Nat) :
    (d.plain width).toList = (d.pieces width).flatMap Piece.chars :=
  toList_plainText (d.pieces width)

end PegCompiler.Layout
