import Mathlib.Data.List.Forall2
import PegCompiler.Proofs.Layout.Chars
import PegCompiler.Proofs.Text.Split
/-
  What documents can be printed as. `Doc.Prints` leaves open which groups are broken and keeps
  all else: where a line ends and how far the next one is indented. Every layout is one of
  the texts (`prints_laidOut`), so what holds of all of them does not depend on the width of
  a page or on what stands around a document.

  Documents that end a line in front of each of their parts are printed as rows
  (`prints_behind`, `eq_stacked`).
-/

namespace PegCompiler.Layout

open Text (stacked stacked_cons)

/-- Spaces that indent. -/
def spaces (n : Nat) : List Char :=
  List.replicate n ' '

/-- The texts that a document can be printed as, from an indentation, in a group that is flat
or broken. -/
def Doc.Prints : Doc → Nat → Bool → List Char → Prop
  | .nil, _, _, cs => cs = []
  | .text s, _, _, cs => cs = s.toList
  | .line, indent, _, cs => cs = '\n' :: spaces indent
  | .append a b, indent, flat, cs =>
    ∃ xs ys, cs = xs ++ ys ∧ a.Prints indent flat xs ∧ b.Prints indent flat ys
  | .nest by_ d, indent, flat, cs => d.Prints (shift indent by_) flat cs
  | .group d, indent, _, cs => ∃ flat, d.Prints indent flat cs
  | .choice broken flat, indent, isFlat, cs =>
    if isFlat then flat.Prints indent isFlat cs else broken.Prints indent isFlat cs
  | .styled _ d, indent, flat, cs => d.Prints indent flat cs

/-- A layout is one of the texts of a document. -/
theorem prints_laidOut (d : Doc) : ∀ {indent : Nat} {flat : Bool} {ps : List Piece},
    d.LaidOut indent flat ps → d.Prints indent flat (ps.flatMap Piece.chars) := by
  induction d with
  | nil =>
    rintro _ _ _ rfl
    rfl
  | text s =>
    rintro _ _ _ rfl
    exact List.append_nil s.toList
  | line =>
    rintro indent _ _ rfl
    show List.flatMap _ [Piece.newline indent] = '\n' :: spaces indent
    simp [Piece.chars, newlineText, spaces]
  | append a b iha ihb =>
    rintro _ _ _ ⟨_, _, rfl, ha, hb⟩
    exact ⟨_, _, List.flatMap_append, iha ha, ihb hb⟩
  | nest by_ d ih => exact fun h => ih h
  | group d ih =>
    rintro _ _ _ ⟨inner, -, h⟩
    exact ⟨inner, ih h⟩
  | choice broken flat ihbroken ihflat =>
    intro _ _ _ h
    rcases h.of_choice with ⟨rfl, h⟩ | ⟨rfl, h⟩
    · exact ihflat h
    · exact ihbroken h
  | styled style d ih =>
    rintro _ _ _ ⟨body, rfl, hbody⟩
    rw [List.flatMap_cons, List.flatMap_append, List.flatMap_singleton, Piece.chars, Piece.chars,
      List.nil_append, List.append_nil]
    exact ih hbody

theorem prints_plain {d : Doc} {indent : Nat} {flat : Bool} (layout : d.Arrangement indent flat) :
    d.Prints indent flat layout.plain.toList := by
  rw [Doc.Arrangement.plain, toList_plainText]
  exact prints_laidOut d layout.laidOut

section
variable {indent : Nat} {flat : Bool} {cs : List Char}

/-! ## Documents of several parts -/

theorem prints_concat : ∀ {ds : List Doc} {cs : List Char},
    (Doc.concat ds).Prints indent flat cs → ∃ parts : List (List Char), cs = parts.flatten ∧
      List.Forall₂ (fun d part => d.Prints indent flat part) ds parts
  | [], _, h => ⟨[], h, .nil⟩
  | [_], cs, h => ⟨[cs], by simp, .cons h .nil⟩
  | _ :: _ :: _, _, ⟨xs, _, hcs, hd, hds⟩ => by
    obtain ⟨parts, rfl, hparts⟩ := prints_concat hds
    exact ⟨xs :: parts, hcs, .cons hd hparts⟩

/-- Documents behind a separator and with one between each two. -/
theorem prints_behind {sep : Doc} : ∀ {d : Doc} {ds : List Doc} {cs : List Char},
    (sep ++ Doc.join sep (d :: ds)).Prints indent flat cs → ∃ parts : List (List Char),
      cs = parts.flatten ∧
        List.Forall₂ (fun d part => (sep ++ d).Prints indent flat part) (d :: ds) parts
  | _, [], cs, h => ⟨[cs], by simp, .cons h .nil⟩
  | _, _ :: _, _, ⟨xs, _, hcs, hsep, ys, _, hys, hd, hds⟩ => by
    obtain ⟨parts, rfl, hparts⟩ := prints_behind hds
    refine ⟨(xs ++ ys) :: parts, ?_, .cons ⟨xs, ys, rfl, hsep, hd⟩ hparts⟩
    rw [hcs, hys, List.flatten_cons, List.append_assoc]

/-- Those at the end of documents behind a separator. -/
theorem prints_back {sep : Doc} (back : List Doc) : ∀ {ds : List Doc} {cs : List Char},
    (sep ++ Doc.join sep (ds ++ back)).Prints indent flat cs →
      ∃ (front : List Char) (parts : List (List Char)), cs = front ++ parts.flatten ∧
        List.Forall₂ (fun d part => (sep ++ d).Prints indent flat part) back parts := by
  intro ds cs h
  cases back with
  | nil => exact ⟨cs, [], by simp, .nil⟩
  | cons d back =>
    induction ds generalizing cs with
    | nil =>
      obtain ⟨parts, hcs, hparts⟩ := prints_behind h
      exact ⟨[], parts, hcs, hparts⟩
    | cons e ds ih =>
      have hjoin : Doc.join sep (e :: ds ++ d :: back) =
          e ++ (sep ++ Doc.join sep (ds ++ d :: back)) := by
        cases ds <;> rfl
      rw [hjoin] at h
      obtain ⟨xs, _, rfl, -, ys, zs, rfl, -, hzs⟩ := h
      obtain ⟨front, parts, rfl, hparts⟩ := ih hzs
      exact ⟨xs ++ (ys ++ front), parts, by simp only [List.append_assoc], hparts⟩

/-! ## Documents that are printed in one way -/

/-- What is printed as one text only. -/
def Doc.PrintsOnly (d : Doc) (indent : Nat) (flat : Bool) (row : List Char) : Prop :=
  ∀ cs, d.Prints indent flat cs → cs = row

namespace Doc.PrintsOnly

theorem text (s : String) : (Doc.text s).PrintsOnly indent flat s.toList :=
  fun _ h => h

theorem mark (style : Style) (s : String) : (Doc.mark style s).PrintsOnly indent flat s.toList :=
  fun _ h => h

theorem append {a b : Doc} {xs ys : List Char} (h : a.PrintsOnly indent flat xs)
    (h' : b.PrintsOnly indent flat ys) : (a ++ b).PrintsOnly indent flat (xs ++ ys) := by
  rintro _ ⟨_, _, rfl, ha, hb⟩
  rw [h _ ha, h' _ hb]

theorem join {sep : Doc} {between : List Char} (hsep : sep.PrintsOnly indent flat between) :
    ∀ texts : List String, (Doc.join sep (texts.map .text)).PrintsOnly indent flat
      (List.intercalate between (texts.map String.toList))
  | [] => fun _ h => h
  | [s] => by
    rw [List.map_singleton, List.map_singleton, List.intercalate_singleton]
    exact text s
  | s :: t :: texts => by
    have ih := join hsep (t :: texts)
    rw [List.map_cons (f := String.toList), List.map_cons (f := String.toList),
      List.intercalate_cons_cons, List.append_assoc]
    exact (text s).append (hsep.append ih)

end Doc.PrintsOnly

/-- Documents that end a line in front of each of them are rows. -/
theorem eq_stacked {α : Type} {doc : α → Doc} {row : α → List Char} {as : List α}
    (hrow : ∀ a ∈ as, (doc a).PrintsOnly indent flat (row a)) {parts : List (List Char)}
    (h : List.Forall₂ (fun a part => (.line ++ doc a).Prints indent flat part) as parts) :
    parts.flatten = stacked (as.map fun a => spaces indent ++ row a) := by
  induction h with
  | nil => rfl
  | cons hpart _ ih =>
    obtain ⟨_, _, rfl, hline, hdoc⟩ := hpart
    obtain ⟨hfirst, hrest⟩ := List.forall_mem_cons.mp hrow
    rw [List.flatten_cons, List.map_cons, stacked_cons, ih hrest, hfirst _ hdoc,
      show _ = '\n' :: spaces indent from hline]
    simp only [List.cons_append, List.append_assoc]

/-- What stands between two items of a list: it goes on in the same line or in the next. -/
def listBreak (indent : Nat) (sep : String) (broken : Bool) : List Char :=
  if broken then sep.toList ++ " &\n".toList ++ spaces indent else sep.toList ++ [' ']

/-- All items of a list are in one line, or each is in a line of its own. -/
theorem prints_continued {sep : String} {texts : List String}
    (h : (Doc.continued sep (texts.map .text)).Prints indent flat cs) :
    ∃ broken, cs = List.intercalate (listBreak indent sep broken) (texts.map String.toList) := by
  obtain ⟨flat, h⟩ := h
  -- in a flat group the separator goes on in the line, in a broken one it ends it
  have hsep : (Doc.text sep ++ Doc.continuation).PrintsOnly indent flat
      (listBreak indent sep !flat) := by
    cases flat with
    | true => exact .append (.text sep) fun _ h => h
    | false =>
      rintro _ ⟨_, _, rfl, rfl, _, _, rfl, rfl, rfl⟩
      simp [listBreak]
  exact ⟨!flat, Doc.PrintsOnly.join hsep texts cs h⟩

end

end PegCompiler.Layout
