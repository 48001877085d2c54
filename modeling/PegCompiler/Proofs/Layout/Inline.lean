import PegCompiler.Proofs.Layout.Chars
/-
  Documents on one line. A document without line ends, groups and choices is printed as its
  texts one after another, on pages of any width (`Inline.plain`).
-/

namespace PegCompiler.Layout

/-- A document is made of texts, one after another. -/
inductive Doc.Inline : Doc → Prop
  | nil : Inline .nil
  | text (s : String) : Inline (.text s)
  | append {a b : Doc} (h : Inline a) (h' : Inline b) : Inline (.append a b)
  | styled {d : Doc} (style : Style) (h : Inline d) : Inline (.styled style d)

/-- The characters of a document on one line. -/
def Doc.chars : Doc → List Char
  | .nil | .line => []
  | .text s => s.toList
  | .append a b => a.chars ++ b.chars
  | .nest _ d | .group d | .choice _ d | .styled _ d => d.chars

namespace Doc

@[simp] theorem chars_text (s : String) : (Doc.text s).chars = s.toList := rfl

@[simp] theorem chars_append (a b : Doc) : (a ++ b).chars = a.chars ++ b.chars := rfl

@[simp] theorem chars_mark (style : Style) (s : String) : (Doc.mark style s).chars = s.toList := rfl

@[simp] theorem chars_space : Doc.space.chars = [' '] := rfl

@[simp] theorem chars_parens (d : Doc) : d.parens.chars = '(' :: (d.chars ++ [')']) := rfl

@[simp] theorem chars_braces (d : Doc) : d.braces.chars = '\x7b' :: (d.chars ++ ['\x7d']) := rfl

theorem chars_join_cons (sep d e : Doc) (ds : List Doc) :
    (join sep (d :: e :: ds)).chars = d.chars ++ (sep.chars ++ (join sep (e :: ds)).chars) := rfl

theorem chars_join_single (sep d : Doc) : (join sep [d]).chars = d.chars := rfl

namespace Inline

theorem mark (style : Style) (s : String) : (Doc.mark style s).Inline :=
  .styled style (.text s)

theorem space : Doc.space.Inline :=
  .text " "

theorem parens {d : Doc} (h : d.Inline) : d.parens.Inline :=
  .append (.text "(") (.append h (.text ")"))

theorem braces {d : Doc} (h : d.Inline) : d.braces.Inline :=
  .append (.text _) (.append h (.text _))

theorem join {sep : Doc} (hsep : sep.Inline) {ds : List Doc} (h : ∀ d ∈ ds, d.Inline) :
    (Doc.join sep ds).Inline :=
  Doc.join_of .nil .append hsep h

/-- Every layout shows the texts. -/
theorem laidOut {d : Doc} (h : d.Inline) : ∀ {indent : Nat} {flat : Bool} {ps : List Piece},
    d.LaidOut indent flat ps → ps.flatMap Piece.chars = d.chars := by
  induction h with
  | nil =>
    rintro _ _ _ rfl
    rfl
  | text s =>
    rintro _ _ _ rfl
    exact List.append_nil _
  | append _ _ iha ihb =>
    rintro _ _ _ ⟨_, _, rfl, ha, hb⟩
    rw [List.flatMap_append, iha ha, ihb hb]
    rfl
  | styled style _ ih =>
    rintro _ _ _ ⟨body, rfl, hbody⟩
    rw [List.flatMap_cons, List.flatMap_append, ih hbody]
    exact List.append_nil _

/-- A document on one line is printed as its characters. -/
theorem plain {d : Doc} (h : d.Inline) (width : Nat) : (d.plain width).toList = d.chars := by
  rw [toList_plain]
  exact h.laidOut (d.fitted width).laidOut

end Inline

end Doc

end PegCompiler.Layout
