import PegCompiler.Layout.Render
/-!
  Where laid out documents go. A renderer is told the events of a layout one after
  another and writes to a writer below it. The plain renderer takes no notice of
  styles; the one with colors keeps a stack of the colors of the parts that it is in,
  so that behind a part the color around it comes back.

  Correspondence (program ↔ here):
    `Anno::color`, `Anno::spec`              ↔ `Style.color`, `Style.spec`
    `io::Write`, `WriteColor`                ↔ `Writer`, `ColorWriter`
    `pretty::Render`, `RenderAnnotated`      ↔ `Renderer`
    `DocBuilder::render`, `render_raw`       ↔ `render` over `Doc.pieces`
    `RenderTermcolor`                        ↔ `RenderTermcolor`, its stack top first
    `StandardStream`, `IgnoreColors`         ↔ `StandardStream`, `IgnoreColors`
    `Print::print_io`, `print_colored`       ↔ `Doc.printIo`, `Doc.printColored`
    `Print::print_to_string`                 ↔ `Doc.plain`
  Writers are in memory, so that writing cannot fail.
-/

namespace PegCompiler.Layout

/-! ## Colors -/

/-- The colors of the theme. -/
inductive Color where
  | red | green | blue | magenta | cyan
  deriving DecidableEq, Repr

/-- How text is to look from now on. -/
structure ColorSpec where
  foreground : Option Color := none
  bold : Bool := false
  /-- Whether all that was set before is taken back first. -/
  reset : Bool := true
  deriving DecidableEq, Repr

namespace Style

/-- The color of a style. -/
def color : Style → Color
  | .keyword => .magenta
  | .type => .red
  | .comment => .cyan
  | .literal => .green
  | .rule => .blue

/-- The look of a style; keywords are bold. -/
def spec (style : Style) : ColorSpec where
  foreground := some style.color
  bold := style == .keyword

end Style

/-! ## Writers -/

/-- What text can be written to. -/
class Writer (W : Type) where
  write : W → String → W

/-- A writer that can be told how the text that comes next is to look. -/
class ColorWriter (W : Type) extends Writer W where
  setColor : W → ColorSpec → W
  reset : W → W

open Writer (write)
open ColorWriter (setColor)

/-- Text in memory. -/
instance : Writer String := ⟨fun out s => out ++ s⟩

/-- The terminal code of a color. -/
def Color.code : Color → String
  | .red => "\x1b[31m"
  | .green => "\x1b[32m"
  | .blue => "\x1b[34m"
  | .magenta => "\x1b[35m"
  | .cyan => "\x1b[36m"

/-- The terminal code that takes everything back. -/
def resetCode : String := "\x1b[0m"

/-- The terminal codes of a look. -/
def ColorSpec.code (spec : ColorSpec) : String :=
  (if spec.reset then resetCode else "") ++
    ((if spec.bold then "\x1b[1m" else "") ++ (spec.foreground.map Color.code).getD "")

/-- A stream with terminal codes in it. -/
structure Ansi where
  out : String := ""
  deriving DecidableEq, Repr

instance : ColorWriter Ansi where
  write w s := ⟨w.out ++ s⟩
  setColor w spec := ⟨w.out ++ spec.code⟩
  reset w := ⟨w.out ++ resetCode⟩

/-- A stream that drops colors. -/
structure NoColor where
  out : String := ""
  deriving DecidableEq, Repr

instance : ColorWriter NoColor where
  write w s := ⟨w.out ++ s⟩
  setColor w _ := w
  reset w := w

/-- The standard output, with colors or without. -/
inductive StandardStream where
  | ansi (stream : Ansi)
  | noColor (stream : NoColor)
  deriving DecidableEq, Repr

namespace StandardStream

/-- An empty stream. -/
def new (colored : Bool) : StandardStream :=
  if colored then .ansi {} else .noColor {}

/-- What was written. -/
def out : StandardStream → String
  | .ansi stream => stream.out
  | .noColor stream => stream.out

instance : ColorWriter StandardStream where
  write
    | .ansi stream, s => .ansi (write stream s)
    | .noColor stream, s => .noColor (write stream s)
  setColor
    | .ansi stream, spec => .ansi (setColor stream spec)
    | .noColor stream, spec => .noColor (setColor stream spec)
  reset
    | .ansi stream => .ansi (ColorWriter.reset stream)
    | .noColor stream => .noColor (ColorWriter.reset stream)

end StandardStream

/-- A writer without colors, such as a file, below what writes with colors. -/
structure IgnoreColors (W : Type) where
  inner : W

instance {W : Type} [Writer W] : ColorWriter (IgnoreColors W) where
  write w s := ⟨write w.inner s⟩
  setColor w _ := w
  reset w := w

/-! ## Renderers -/

/-- What is told the events of a layout. -/
class Renderer (R : Type) where
  writeText : R → String → R
  pushAnnotation : R → Style → R
  popAnnotation : R → R

/-- A line end and an indentation. -/
def newlineText (indent : Nat) : String :=
  "\n" ++ String.ofList (List.replicate indent ' ')

/-- A renderer is told an event. -/
def Piece.send {R : Type} [Renderer R] (r : R) : Piece → R
  | .text s => Renderer.writeText r s
  | .newline indent => Renderer.writeText r (newlineText indent)
  | .push style => Renderer.pushAnnotation r style
  | .pop => Renderer.popAnnotation r

/-- A renderer is told events one after another. -/
def render {R : Type} [Renderer R] (ps : List Piece) (r : R) : R :=
  ps.foldl Piece.send r

/-- Renders without colors. -/
structure IoWrite (W : Type) where
  upstream : W

instance {W : Type} [Writer W] : Renderer (IoWrite W) where
  writeText r s := ⟨write r.upstream s⟩
  pushAnnotation r _ := r
  popAnnotation r := r

/-- Renders with colors. -/
structure RenderTermcolor (W : Type) where
  /-- The looks of the parts with a style that have begun and not ended, innermost first. -/
  specs : List ColorSpec := []
  upstream : W

namespace RenderTermcolor

variable {W : Type} [ColorWriter W]

/-- A part with a style begins: its color is set. -/
def pushAnnotation (r : RenderTermcolor W) (style : Style) : RenderTermcolor W :=
  ⟨style.spec :: r.specs, setColor r.upstream style.spec⟩

/-- A part with a style ends: the color around it is set again, or none. -/
def popAnnotation (r : RenderTermcolor W) : RenderTermcolor W :=
  match r.specs.tail with
  | previous :: rest => ⟨previous :: rest, setColor r.upstream previous⟩
  | [] => ⟨[], ColorWriter.reset r.upstream⟩

instance : Renderer (RenderTermcolor W) where
  writeText r s := { r with upstream := write r.upstream s }
  pushAnnotation := pushAnnotation
  popAnnotation := popAnnotation

end RenderTermcolor

/-! ## Documents -/

namespace Doc

/-- Prints a document without colors. -/
def printIo {W : Type} [Writer W] (width : Nat) (d : Doc) (out : W) : W :=
  (render (d.pieces width) (IoWrite.mk out)).upstream

/-- Prints a document with colors, as far as the writer has them. -/
def printColored {W : Type} [ColorWriter W] (width : Nat) (d : Doc) (out : W) : W :=
  (render (d.pieces width) ({ upstream := out } : RenderTermcolor W)).upstream

/-- A document as plain text. -/
def plain (width : Nat) (d : Doc) : String :=
  d.printIo width ""

/-- A document as text with terminal codes. -/
def colored (width : Nat) (d : Doc) : String :=
  (d.printColored width ({} : Ansi)).out

end Doc

/-- A document as the standard output has it, with colors or without. -/
def Doc.show (colored : Bool) (width : Nat) (d : Doc) : String :=
  (d.printColored width (StandardStream.new colored)).out

end PegCompiler.Layout
