import PegCompiler.Proofs.Layout.Colors
import PegCompiler.Proofs.Resolved.Texts
import PegCompiler.Proofs.Target.Texts
/-
  Everything that can be printed: parts of resolved grammars and of Fortran modules. Each
  has a document and the texts that it is printed with, and the document is written with
  the characters of the texts. So what holds of documents whose texts have no escape
  character holds of all of them, however they are laid out and with any indentation.
-/

namespace PegCompiler.Layout

open Text (escapeChar)

/-- What can be printed. -/
inductive Printable where
  | matcher (m : Resolved.Matcher)
  | choice (c : Resolved.Choice)
  | alternative (a : Resolved.Alternative)
  | element (e : Resolved.Element)
  | altResult (r : Resolved.AltResult)
  | actionCall (call : Resolved.ActionCall)
  | rule (r : Resolved.Rule)
  | action (a : Resolved.Action)
  | parser (p : Resolved.Parser)
  /-- An expression in surroundings of a precedence. -/
  | expr (e : Target.Expr) (surrounding : Nat)
  | stmt (s : Target.Stmt)
  | decl (d : Target.Decl)
  | function (f : Target.Function)
  | module (m : Target.Module)

namespace Printable

/-- The document of what is printed. -/
def doc (page : Page) : Printable → Doc
  | .matcher m => m.doc
  | .choice c => c.doc
  | .alternative a => a.doc
  | .element e => e.doc
  | .altResult r => r.doc
  | .actionCall call => call.doc
  | .rule r => r.doc page
  | .action a => a.doc page
  | .parser p => p.doc page
  | .expr e surrounding => e.doc page surrounding
  | .stmt s => s.doc page
  | .decl d => d.doc page
  | .function f => f.doc page
  | .module m => m.doc page

/-- The texts of what is printed. -/
def texts : Printable → List String
  | .matcher m => m.texts
  | .choice c => c.texts
  | .alternative a => a.texts
  | .element e => e.texts
  | .altResult r => r.texts
  | .actionCall call => call.texts
  | .rule r => r.texts
  | .action a => a.texts
  | .parser p => p.texts
  | .expr e _ => e.texts
  | .stmt s => s.texts
  | .decl d => d.texts
  | .function f => f.texts
  | .module m => m.texts

theorem written {P : Char → Prop} (hP : Common P) {node : Printable}
    (h : ∀ s ∈ node.texts, Uses P s) (page : Page) : (node.doc page).Written P := by
  cases node with
  | matcher m => exact Resolved.written_matcher hP m h
  | choice c => exact Resolved.written_choice hP c h
  | alternative a => exact Resolved.written_alternative hP a h
  | element e => exact Resolved.written_element hP e h
  | altResult r => exact Resolved.written_altResult hP h
  | actionCall call => exact Resolved.written_actionCall hP h
  | rule r => exact Resolved.written_rule hP h
  | action a => exact Resolved.written_action hP h
  | parser p => exact Resolved.written_parserDoc hP h
  | expr e surrounding => exact Target.written_expr hP e h surrounding
  | stmt s => exact Target.written_stmt hP s h
  | decl d => exact Target.written_decl hP h
  | function f => exact Target.written_function hP h
  | module m => exact Target.written_module hP h

end Printable

/-- **Colored output is the plain output with colors.** However a document is laid out, the
terminal shows the plain output, line ends included, each character in the color of the
innermost part with a style that it stands in; the stack of colors has those of the parts
that are open, so that behind a part the color around it is in force again, and at the end
the terminal is left without a color; and a file is left with the plain output. This is so
for all documents whose texts have no escape character, with parts inside of others, and
for those of everything that can be printed. -/
theorem colored_plain :
    (∀ d : Doc, d.Written (· ≠ escapeChar) →
      ∀ layout : d.Arrangement 0 false, ColorsOnly d layout.pieces) ∧
    ∀ (node : Printable) (page : Page), (∀ s ∈ node.texts, escapeChar ∉ s.toList) →
      ∀ layout : (node.doc page).Arrangement 0 false, ColorsOnly (node.doc page) layout.pieces := by
  refine ⟨fun d hd layout => colorsOnly hd layout, fun node page h layout => ?_⟩
  have hcommon : Common (· ≠ escapeChar) := by
    rintro c hrange rfl
    exact absurd hrange (by decide)
  have huses : ∀ s ∈ node.texts, Uses (· ≠ escapeChar) s := by
    rintro s hs c hc rfl
    exact h s hs hc
  exact colorsOnly (Printable.written hcommon huses page) layout

/-- A rule with a keyword, an id, a function, a type and a literal in it. -/
def startLine : Printable :=
  .rule ⟨"S", "peg_s", true, .declared "integer",
    ⟨[⟨[⟨.literal "a", none⟩, ⟨.call ⟨"A", "peg_a", .text⟩, some ⟨"x", .text, .value⟩⟩],
      .action ⟨"action_s_0", ["x"]⟩, .declared "integer"⟩], some "res"⟩⟩

/-- A keyword with a literal in it, in which a line can end, and a type in that. -/
def nestedStyles : Doc :=
  .styled .keyword (.text "a" ++ (.styled .literal (.nest 1 (.group (.text "b" ++
    (Doc.continuation ++ .mark .type "c"))) ++ .text "d") ++ .text "e"))

theorem startLine_colored :
    ((∀ s ∈ startLine.texts, escapeChar ∉ s.toList) ∧
      ColorsOnly (startLine.doc {}) ((startLine.doc {}).pieces 132)) ∧
    nestedStyles.Written (· ≠ escapeChar) ∧ ColorsOnly nestedStyles (nestedStyles.pieces 4) ∧
      uncolored (nestedStyles.colored 4) = some "ab &\n cde" ∧
      terminal (nestedStyles.colored 4) = some ([('a', ⟨true, some 5⟩), ('b', ⟨false, some 2⟩),
        (' ', ⟨false, some 2⟩), ('&', ⟨false, some 2⟩), ('\n', ⟨false, some 2⟩),
        (' ', ⟨false, some 2⟩), ('c', ⟨false, some 1⟩), ('d', ⟨false, some 2⟩),
        ('e', ⟨true, some 5⟩)], {}) := by
  have h : ∀ s ∈ startLine.texts, escapeChar ∉ s.toList := by decide
  have hnested : nestedStyles.Written (· ≠ escapeChar) := by
    have htext {s : String} (hs : escapeChar ∉ s.toList) : (Doc.text s).Written (· ≠ escapeChar) :=
      .text fun c hc he => hs (he ▸ hc)
    exact .styled _ (.append (htext (by decide)) (.append (.styled _ (.append (.nest 1 (.group
      (.append (htext (by decide)) (.append (.choice (.append (htext (by decide)) .line)
        (htext (by decide))) (.styled _ (htext (by decide))))))) (htext (by decide))))
          (htext (by decide))))
  have hplain : nestedStyles.plain 4 = "ab &\n cde" := by decide +kernel
  have hcolors : ColorsOnly nestedStyles (nestedStyles.pieces 4) :=
    colored_plain.1 nestedStyles hnested (nestedStyles.fitted 4)
  refine ⟨⟨h, colored_plain.2 startLine {} h ((startLine.doc {}).fitted 132)⟩, hnested, hcolors,
    ?_, by decide +kernel⟩
  rw [← hplain]
  exact hcolors.uncolored

end PegCompiler.Layout
