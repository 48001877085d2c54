import PegCompiler.Proofs.Layout.Chars
import PegCompiler.Text.Terminal
/-
  What a terminal shows of colored text. The terminal reads one character after another
  and knows nothing of documents: a code of the form `ESC [ digits m` changes its
  attributes, and any other character is shown with the attributes in force (`readFrom`).

  What is proved, of events in any order first and then of layouts:

    1. `Tracks.send`, `Tracks.render`: the stack of the renderer has the looks of the styled
       parts that are open, innermost first, and the terminal has the color of the innermost
       one in force, or none. Each event keeps this up, so it holds behind any number;
    2. `nested_laidOut`, `Nested.opened`: the parts of a layout are nested, so that behind a
       part those are open that were open in front of it;
    3. `shows_laidOut`: each character of a layout is in the color of the innermost part of
       the document that it stands in, which is said on documents (`Doc.Shows`);
    4. `render_alike`, `ignored_plain`, `streamed`: writers that drop colors are left with the
       plain text, whatever the renderer above them tells them of colors.

  The terminal always comes back to the color around a part since every change of color
  begins with a reset: the attributes in front of a code do not count.
-/

namespace PegCompiler.Layout

open Text (escapeChar)

/-! ## Terminals -/

/-- How a terminal shows characters. -/
structure Attributes where
  bold : Bool := false
  /-- One of eight colors, or none. -/
  foreground : Option Nat := none
  deriving DecidableEq, Repr

/-- The attributes behind a code with a number. -/
def Attributes.select (a : Attributes) (n : Nat) : Attributes :=
  if n = 0 then {}
  else if n = 1 then { a with bold := true }
  else if 30 ≤ n ∧ n ≤ 37 then { a with foreground := some (n - 30) }
  else a

/-- Where in a code a terminal is. -/
inductive CodePart where
  | outside
  /-- Behind the escape character. -/
  | escape
  /-- Behind the bracket and digits of a number. -/
  | number (n : Nat)
  deriving DecidableEq, Repr

/-- The characters that a terminal shows, each with its attributes, and the attributes at the
end; nothing for codes of other forms. -/
def readFrom (a : Attributes) :
    CodePart → List Char → Option (List (Char × Attributes) × Attributes)
  | .outside, [] => some ([], a)
  | .outside, c :: rest =>
    if c = escapeChar then readFrom a .escape rest
    else (readFrom a .outside rest).map fun (cells, last) => ((c, a) :: cells, last)
  | .escape, '[' :: rest => readFrom a (.number 0) rest
  | .number n, 'm' :: rest => readFrom (a.select n) .outside rest
  | .number n, c :: rest =>
    if c.isDigit then readFrom a (.number (10 * n + (c.toNat - '0'.toNat))) rest else none
  | _, _ => none

/-- What a terminal shows of a text, and the attributes that it is left with. -/
def terminal (s : String) : Option (List (Char × Attributes) × Attributes) :=
  readFrom {} .outside s.toList

/-- The attributes of a color. -/
def attributes : Option Style → Attributes
  | none => {}
  | some .keyword => ⟨true, some 5⟩
  | some .type => ⟨false, some 1⟩
  | some .comment => ⟨false, some 6⟩
  | some .literal => ⟨false, some 2⟩
  | some .rule => ⟨false, some 4⟩

/-! ## Documents -/

/-- Characters of one color. -/
def paint (color : Option Style) (s : String) : List (Char × Option Style) :=
  s.toList.map fun c => (c, color)

/-- A document shows characters, each in the color of the innermost part with a style that it
stands in; `color` is that around the document. Lines end at any indentation, and of
alternatives either is shown. -/
inductive Doc.Shows : Option Style → Doc → List (Char × Option Style) → Prop
  | nil (color : Option Style) : Shows color .nil []
  | text (color : Option Style) (s : String) : Shows color (.text s) (paint color s)
  | line (color : Option Style) (indent : Nat) :
      Shows color .line (paint color (newlineText indent))
  | append {color : Option Style} {a b : Doc} {cells more : List (Char × Option Style)}
      (h : Shows color a cells) (h' : Shows color b more) :
      Shows color (.append a b) (cells ++ more)
  | nest {color : Option Style} {d : Doc} {cells : List (Char × Option Style)} (by_ : Int)
      (h : Shows color d cells) : Shows color (.nest by_ d) cells
  | group {color : Option Style} {d : Doc} {cells : List (Char × Option Style)}
      (h : Shows color d cells) : Shows color (.group d) cells
  | broken {color : Option Style} {d : Doc} {cells : List (Char × Option Style)} (flat : Doc)
      (h : Shows color d cells) : Shows color (.choice d flat) cells
  | flat {color : Option Style} {d : Doc} {cells : List (Char × Option Style)} (broken : Doc)
      (h : Shows color d cells) : Shows color (.choice broken d) cells
  | styled {color : Option Style} {d : Doc} {cells : List (Char × Option Style)} (style : Style)
      (h : Shows (some style) d cells) : Shows color (.styled style d) cells

/-! ## Parts with a style -/

/-- The styles of the parts that are open behind an event, innermost first. -/
def Piece.opened (styles : List Style) : Piece → List Style
  | .text _ | .newline _ => styles
  | .push style => style :: styles
  | .pop => styles.tail

/-- The styles of the parts that are open behind events. -/
def opened (styles : List Style) (ps : List Piece) : List Style :=
  ps.foldl Piece.opened styles

/-- The characters of an event, in a color. -/
def Piece.cells (color : Option Style) : Piece → List (Char × Option Style)
  | .text s => paint color s
  | .newline indent => paint color (newlineText indent)
  | .push _ | .pop => []

/-- The characters of events, each in the color of the innermost part that is open. -/
def cellsFrom : List Style → List Piece → List (Char × Option Style)
  | _, [] => []
  | styles, p :: rest => p.cells styles.head? ++ cellsFrom (p.opened styles) rest

/-- Parts begin and end in matching order. -/
inductive Nested : List Piece → Prop
  | nil : Nested []
  | text (s : String) {rest : List Piece} (h : Nested rest) : Nested (.text s :: rest)
  | newline (indent : Nat) {rest : List Piece} (h : Nested rest) : Nested (.newline indent :: rest)
  | part (style : Style) {body rest : List Piece} (h : Nested body) (h' : Nested rest) :
      Nested (.push style :: (body ++ .pop :: rest))

theorem opened_append (styles : List Style) (ps qs : List Piece) :
    opened styles (ps ++ qs) = opened (opened styles ps) qs :=
  List.foldl_append

theorem cellsFrom_append (qs : List Piece) : ∀ (styles : List Style) (ps : List Piece),
    cellsFrom styles (ps ++ qs) = cellsFrom styles ps ++ cellsFrom (opened styles ps) qs
  | _, [] => rfl
  | styles, p :: ps => by
    rw [List.cons_append, cellsFrom, cellsFrom, cellsFrom_append qs (p.opened styles) ps,
      List.append_assoc]
    rfl

theorem map_fst_paint (color : Option Style) (s : String) :
    (paint color s).map Prod.fst = s.toList := by
  rw [paint, List.map_map]
  exact List.map_id' _

/-- The characters do not depend on the color. -/
theorem map_fst_cellsFrom : ∀ (styles : List Style) (ps : List Piece),
    (cellsFrom styles ps).map Prod.fst = ps.flatMap Piece.chars
  | _, [] => rfl
  | styles, p :: ps => by
    have hcells : (p.cells styles.head?).map Prod.fst = p.chars := by
      cases p with
      | text s => exact map_fst_paint _ s
      | newline indent => exact map_fst_paint _ (newlineText indent)
      | push style => rfl
      | pop => rfl
    rw [cellsFrom, List.map_append, List.flatMap_cons, hcells, map_fst_cellsFrom]

namespace Nested

theorem append {ps qs : List Piece} (h : Nested ps) (h' : Nested qs) : Nested (ps ++ qs) := by
  induction h with
  | nil => exact h'
  | text s _ ih => exact .text s ih
  | newline indent _ ih => exact .newline indent ih
  | @part style body rest hbody _ _ ih =>
    rw [List.cons_append, List.append_assoc, List.cons_append]
    exact .part style hbody ih

/-- Behind nested parts those are open that were open in front of them. -/
theorem opened {ps : List Piece} (h : Nested ps) :
    ∀ styles : List Style, opened styles ps = styles := by
  induction h with
  | nil => exact fun _ => rfl
  | text s _ ih => exact ih
  | newline indent _ ih => exact ih
  | @part style body rest _ _ ihbody ih =>
    intro styles
    show Layout.opened (style :: styles) (body ++ .pop :: rest) = styles
    rw [opened_append, ihbody]
    exact ih styles

end Nested

/-! ## Reading codes -/

/-- Cells as a terminal shows them. -/
def shownCells (cells : List (Char × Option Style)) : List (Char × Attributes) :=
  cells.map fun (c, color) => (c, attributes color)

/-- Text without escape characters is shown. -/
theorem readFrom_shown {color : Option Style} {s : String} (h : Uses (· ≠ escapeChar) s)
    (rest : List Char) : readFrom (attributes color) .outside (s.toList ++ rest) =
      (readFrom (attributes color) .outside rest).map fun (more, last) =>
        (shownCells (paint color s) ++ more, last) := by
  unfold paint
  have hchars : ∀ cs : List Char, (∀ c ∈ cs, c ≠ escapeChar) →
      readFrom (attributes color) .outside (cs ++ rest) =
        (readFrom (attributes color) .outside rest).map fun (more, last) =>
          (shownCells (cs.map fun c => (c, color)) ++ more, last) := by
    intro cs
    induction cs with
    | nil => exact fun _ => Option.map_id'.symm
    | cons c cs ih =>
      intro hcs
      obtain ⟨hc, hcs⟩ := List.forall_mem_cons.mp hcs
      rw [List.cons_append, readFrom, if_neg hc, ih hcs, Option.map_map]
      rfl
  exact hchars _ h

/-- The codes that a color is set with; without one, all is taken back. -/
def colorCode (color : Option Style) : String :=
  (color.map fun style => style.spec.code).getD resetCode

/-- Every code begins with a reset, so the attributes in front do not count. -/
theorem readFrom_colorCode (a : Attributes) (color : Option Style) (rest : List Char) :
    readFrom a .outside ((colorCode color).toList ++ rest) =
      readFrom (attributes color) .outside rest := by
  match color with
  | none => rfl
  | some .keyword => rfl
  | some .type => rfl
  | some .comment => rfl
  | some .literal => rfl
  | some .rule => rfl

/-! ## The renderer -/

theorem uses_newline (indent : Nat) : Uses (· ≠ escapeChar) (newlineText indent) := by
  have hend : Uses (· ≠ escapeChar) "\n" := List.forall_mem_singleton.mpr (by decide)
  refine hend.append (Uses.ofList fun c hc => ?_)
  rw [(List.mem_replicate.mp hc).2]
  decide

/-- The texts of events have no escape character. -/
def Piece.Readable : Piece → Prop
  | .text s => Uses (· ≠ escapeChar) s
  | _ => True

/-- The renderer inside of parts with these styles: its stack has their looks, and a terminal
has shown these characters of what was written so far and has the color of the innermost
part in force. -/
structure Tracks (styles : List Style) (cells : List (Char × Option Style))
    (r : RenderTermcolor Ansi) : Prop where
  specs : r.specs = styles.map Style.spec
  reads : ∀ rest, readFrom {} .outside (r.upstream.out.toList ++ rest) =
    (readFrom (attributes styles.head?) .outside rest).map fun (more, last) =>
      (shownCells cells ++ more, last)

/-- Events as colored text. -/
def coloredText (ps : List Piece) : String :=
  (render ps ({ upstream := {} } : RenderTermcolor Ansi)).upstream.out

namespace Tracks

variable {styles styles' : List Style} {cells : List (Char × Option Style)}
  {r : RenderTermcolor Ansi}

/-- Nothing is open and nothing is shown at the start. -/
theorem start : Tracks [] [] { upstream := {} } where
  specs := rfl
  reads _ := Option.map_id'.symm

/-- Text is written in the color in force. -/
theorem writeText (h : Tracks styles cells r) {s : String} (hs : Uses (· ≠ escapeChar) s) :
    Tracks styles (cells ++ paint styles.head? s) (Renderer.writeText r s) where
  specs := h.specs
  reads rest := by
    show readFrom {} .outside ((r.upstream.out ++ s).toList ++ rest) = _
    rw [String.toList_append, List.append_assoc, h.reads, readFrom_shown hs, Option.map_map]
    simp [shownCells, Function.comp_def]

/-- The color of the parts that are now open is set. -/
theorem setColor (h : Tracks styles cells r) (styles' : List Style) :
    Tracks styles' cells
      ⟨styles'.map Style.spec, ⟨r.upstream.out ++ colorCode styles'.head?⟩⟩ where
  specs := rfl
  reads rest := by
    show readFrom {} .outside ((r.upstream.out ++ colorCode styles'.head?).toList ++ rest) = _
    rw [String.toList_append, List.append_assoc, h.reads, readFrom_colorCode]

/-- **One event.** -/
theorem send (h : Tracks styles cells r) {p : Piece} (hp : p.Readable) :
    Tracks (p.opened styles) (cells ++ p.cells styles.head?) (p.send r) := by
  cases p with
  | text s => exact h.writeText hp
  | newline indent => exact h.writeText (uses_newline indent)
  | push style =>
    have hset := h.setColor (style :: styles)
    rw [Piece.cells, List.append_nil, Piece.opened]
    rw [List.map_cons, ← h.specs] at hset
    exact hset
  | pop =>
    have hset := h.setColor styles.tail
    have htail : r.specs.tail = styles.tail.map Style.spec := by rw [h.specs, List.map_tail]
    rw [Piece.cells, List.append_nil, Piece.opened]
    show Tracks styles.tail cells r.popAnnotation
    rw [RenderTermcolor.popAnnotation, htail]
    cases hstyles : styles.tail with
    | nil => rw [hstyles] at hset; exact hset
    | cons style rest => rw [hstyles] at hset; exact hset

/-- **Any number of events.** -/
theorem render {ps : List Piece} (hps : ∀ p ∈ ps, p.Readable) (h : Tracks styles cells r) :
    Tracks (opened styles ps) (cells ++ cellsFrom styles ps) (render ps r) := by
  induction ps generalizing styles cells r with
  | nil =>
    rw [cellsFrom, List.append_nil]
    exact h
  | cons p ps ih =>
    obtain ⟨hp, hps⟩ := List.forall_mem_cons.mp hps
    rw [cellsFrom, ← List.append_assoc]
    exact ih hps (h.send hp)

/-- What the terminal has shown so far, and the attributes in force. -/
theorem terminal_eq (h : Tracks styles cells r) :
    terminal r.upstream.out = some (shownCells cells, attributes styles.head?) := by
  have hread := h.reads []
  rw [List.append_nil, readFrom] at hread
  rw [terminal, hread]
  simp

end Tracks

/-- A terminal shows the characters of events, each in the color of the innermost part that
is open, and is left with the color of the part that is open behind them. -/
theorem terminal_coloredText {ps : List Piece} (h : ∀ p ∈ ps, p.Readable) :
    terminal (coloredText ps) =
      some (shownCells (cellsFrom [] ps), attributes (opened [] ps).head?) :=
  (Tracks.start.render h).terminal_eq

/-! ## Layouts -/

/-- The parts of a layout are nested. -/
theorem nested_laidOut (d : Doc) : ∀ {indent : Nat} {flat : Bool} {ps : List Piece},
    d.LaidOut indent flat ps → Nested ps := by
  induction d with
  | nil =>
    rintro _ _ _ rfl
    exact .nil
  | text s =>
    rintro _ _ _ rfl
    exact .text s .nil
  | line =>
    rintro indent _ _ rfl
    exact .newline indent .nil
  | append a b iha ihb =>
    rintro _ _ _ ⟨_, _, rfl, ha, hb⟩
    exact (iha ha).append (ihb hb)
  | nest by_ d ih => exact fun h => ih h
  | group d ih =>
    rintro _ _ _ ⟨_, -, h⟩
    exact ih h
  | choice broken flat ihbroken ihflat =>
    intro _ _ _ h
    rcases h.of_choice with ⟨-, h⟩ | ⟨-, h⟩
    · exact ihflat h
    · exact ihbroken h
  | styled style d ih =>
    rintro _ _ _ ⟨_, rfl, hbody⟩
    exact .part style (ih hbody) .nil

/-- The texts of a layout are those of the document. -/
theorem readable_laidOut {d : Doc} (hd : d.Written (· ≠ escapeChar)) {indent : Nat} {flat : Bool}
    {ps : List Piece} (h : d.LaidOut indent flat ps) : ∀ p ∈ ps, p.Readable := by
  intro p hp
  cases p with
  | text s => exact uses_laidOut hd h s hp
  | _ => trivial

/-- Inside of parts with styles, a layout shows each character in the color of the innermost
part that it stands in. -/
theorem shows_laidOut (d : Doc) : ∀ {indent : Nat} {flat : Bool} {ps : List Piece},
    d.LaidOut indent flat ps → ∀ styles : List Style, d.Shows styles.head? (cellsFrom styles ps) := by
  induction d with
  | nil =>
    rintro _ _ _ rfl styles
    exact .nil _
  | text s =>
    rintro _ _ _ rfl styles
    rw [cellsFrom, cellsFrom, List.append_nil]
    exact .text _ s
  | line =>
    rintro indent _ _ rfl styles
    rw [cellsFrom, cellsFrom, List.append_nil]
    exact .line _ indent
  | append a b iha ihb =>
    rintro _ _ _ ⟨_, _, rfl, ha, hb⟩ styles
    rw [cellsFrom_append, (nested_laidOut a ha).opened]
    exact (iha ha styles).append (ihb hb styles)
  | nest by_ d ih => exact fun h styles => (ih h styles).nest by_
  | group d ih =>
    rintro _ _ _ ⟨_, -, h⟩ styles
    exact (ih h styles).group
  | choice broken flat ihbroken ihflat =>
    intro _ _ _ h styles
    rcases h.of_choice with ⟨-, h⟩ | ⟨-, h⟩
    · exact (ihflat h styles).flat broken
    · exact (ihbroken h styles).broken flat
  | styled style d ih =>
    rintro _ _ _ ⟨body, rfl, hbody⟩ styles
    have hcells : cellsFrom styles (.push style :: (body ++ [.pop])) =
        cellsFrom (style :: styles) body := by
      show [] ++ cellsFrom (style :: styles) (body ++ [.pop]) = _
      rw [List.nil_append, cellsFrom_append]
      exact List.append_nil _
    rw [hcells]
    exact (ih hbody (style :: styles)).styled style

/-! ## Writers without colors -/

section
variable {W V : Type} [ColorWriter W] [ColorWriter V]

/-- What a renderer tells writers that do alike leaves them alike. -/
theorem render_alike (alike : W → V → Prop)
    (hwrite : ∀ {w v}, alike w v → ∀ s, alike (Writer.write w s) (Writer.write v s))
    (hset : ∀ {w v}, alike w v → ∀ spec,
      alike (ColorWriter.setColor w spec) (ColorWriter.setColor v spec))
    (hreset : ∀ {w v}, alike w v → alike (ColorWriter.reset w) (ColorWriter.reset v))
    (ps : List Piece) : ∀ (specs : List ColorSpec) {w : W} {v : V}, alike w v →
      alike (render ps (RenderTermcolor.mk specs w)).upstream
        (render ps (RenderTermcolor.mk specs v)).upstream := by
  induction ps with
  | nil => exact fun _ _ _ h => h
  | cons p ps ih =>
    intro specs w v h
    cases p with
    | text s => exact ih specs (hwrite h s)
    | newline indent => exact ih specs (hwrite h (newlineText indent))
    | push style => exact ih (style.spec :: specs) (hset h style.spec)
    | pop =>
      match specs with
      | [] | [_] => exact ih [] (hreset h)
      | _ :: previous :: rest => exact ih (previous :: rest) (hset h previous)

end

/-- A stream that drops colors is left with the plain text. -/
theorem noColor_plain (ps : List Piece) : ∀ (specs : List ColorSpec) (out : String),
    (render ps (RenderTermcolor.mk specs (NoColor.mk out))).upstream.out =
      (render ps (IoWrite.mk out)).upstream := by
  induction ps with
  | nil => exact fun _ _ => rfl
  | cons p ps ih =>
    intro specs out
    cases p with
    | text s => exact ih specs (out ++ s)
    | newline indent => exact ih specs (out ++ newlineText indent)
    | push style => exact ih (style.spec :: specs) out
    | pop =>
      match specs with
      | [] | [_] => exact ih [] out
      | _ :: previous :: rest => exact ih (previous :: rest) out

/-- A file is left with the plain text. -/
theorem ignored_plain (ps : List Piece) :
    (render ps (RenderTermcolor.mk [] (IgnoreColors.mk ""))).upstream.inner = plainText ps := by
  have halike : (render ps (RenderTermcolor.mk [] (IgnoreColors.mk ""))).upstream.inner =
      (render ps (RenderTermcolor.mk [] (NoColor.mk ""))).upstream.out :=
    render_alike (fun (w : IgnoreColors String) (v : NoColor) => w.inner = v.out)
      (fun h s => congrArg (· ++ s) h) (fun h _ => h) (fun h => h) ps [] rfl
  exact halike.trans (noColor_plain ps [] "")

/-- The standard output is left with the colored text or with the plain one. -/
theorem streamed (ps : List Piece) (colored : Bool) :
    (render ps (RenderTermcolor.mk [] (StandardStream.new colored))).upstream.out =
      if colored then coloredText ps else plainText ps := by
  cases colored with
  | true =>
    have halike : (render ps (RenderTermcolor.mk [] (StandardStream.ansi {}))).upstream =
        .ansi (render ps (RenderTermcolor.mk [] ({} : Ansi))).upstream :=
      render_alike (fun (w : StandardStream) (v : Ansi) => w = .ansi v) (fun h _ => by rw [h]; rfl)
        (fun h _ => by rw [h]; rfl) (fun h => by rw [h]; rfl) ps [] rfl
    exact congrArg StandardStream.out halike
  | false =>
    have halike : (render ps (RenderTermcolor.mk [] (StandardStream.noColor {}))).upstream =
        .noColor (render ps (RenderTermcolor.mk [] ({} : NoColor))).upstream :=
      render_alike (fun (w : StandardStream) (v : NoColor) => w = .noColor v)
        (fun h _ => by rw [h]; rfl) (fun h _ => by rw [h]; rfl) (fun h => by rw [h]; rfl) ps [] rfl
    exact (congrArg StandardStream.out halike).trans (noColor_plain ps [] "")

/-! ## Documents with colors -/

/-- The characters that a terminal shows of a text. -/
def uncolored (s : String) : Option String :=
  (terminal s).map fun shown => String.ofList (shown.1.map Prod.fst)

/-- The attributes that a terminal is left with by events. -/
def inForce (ps : List Piece) : Option Attributes :=
  (terminal (coloredText ps)).map Prod.snd

/-- The colored output of a document with these events is the plain output with colors. -/
structure ColorsOnly (d : Doc) (ps : List Piece) : Prop where
  /-- Without its codes it is the plain output, line ends included. -/
  uncolored : uncolored (coloredText ps) = some (plainText ps)
  /-- A terminal shows each character in the color of the innermost part with a style that it
  stands in, and is left without a color. -/
  shows : ∃ cells, d.Shows none cells ∧ cells.map Prod.fst = (plainText ps).toList ∧
    terminal (coloredText ps) = some (shownCells cells, {})
  /-- Parts begin and end in matching order. -/
  nested : Nested ps
  /-- Behind any number of events the stack has the looks of the parts that are open, and the
  terminal has the color of the innermost one in force, or none. -/
  stack : ∀ front, front <+: ps →
    (render front ({ upstream := {} } : RenderTermcolor Ansi)).specs =
        (opened [] front).map Style.spec ∧
      inForce front = some (attributes (opened [] front).head?)
  /-- Behind a part the color is in force that was so in front of it. -/
  restored : ∀ front style body, front ++ .push style :: (body ++ [.pop]) <+: ps → Nested body →
    inForce (front ++ .push style :: (body ++ [.pop])) = inForce front
  /-- A writer that drops colors is left with the plain output. -/
  ignored : (render ps (RenderTermcolor.mk [] (IgnoreColors.mk ""))).upstream.inner = plainText ps
  /-- The standard output has the one or the other. -/
  streamed : ∀ colored,
    (render ps (RenderTermcolor.mk [] (StandardStream.new colored))).upstream.out =
      if colored then coloredText ps else plainText ps

theorem colorsOnly {d : Doc} (hd : d.Written (· ≠ escapeChar)) (layout : d.Arrangement 0 false) :
    ColorsOnly d layout.pieces := by
  have hreadable := readable_laidOut hd layout.laidOut
  have hnested := nested_laidOut d layout.laidOut
  have hterminal := terminal_coloredText hreadable
  rw [hnested.opened] at hterminal
  have hplain : (cellsFrom [] layout.pieces).map Prod.fst = (plainText layout.pieces).toList :=
    (map_fst_cellsFrom [] _).trans (toList_plainText _).symm
  have htracks : ∀ front, front <+: layout.pieces → Tracks (opened [] front)
      ([] ++ cellsFrom [] front) (render front { upstream := {} }) := fun front hfront =>
    Tracks.start.render fun p hp => hreadable p (hfront.subset hp)
  have hforce : ∀ front, front <+: layout.pieces →
      inForce front = some (attributes (opened [] front).head?) := by
    intro front hfront
    rw [inForce, coloredText, (htracks front hfront).terminal_eq]
    rfl
  refine ⟨?_, ⟨_, shows_laidOut d layout.laidOut [], hplain, hterminal⟩, hnested,
    fun front hfront => ⟨(htracks front hfront).specs, hforce front hfront⟩, ?_,
    ignored_plain _, streamed _⟩
  · have hchars : (shownCells (cellsFrom [] layout.pieces)).map Prod.fst =
        (cellsFrom [] layout.pieces).map Prod.fst := by
      rw [shownCells, List.map_map]
      rfl
    rw [uncolored, hterminal, Option.map_some, hchars, hplain, String.ofList_toList]
  · intro front style body hpart hbody
    rw [hforce _ hpart, hforce front ((List.prefix_append _ _).trans hpart), opened_append]
    have hnested : Nested (.push style :: (body ++ [.pop])) := .part style hbody .nil
    rw [hnested.opened]

end PegCompiler.Layout
