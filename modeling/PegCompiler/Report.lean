/-!
  Reports of errors for a reader at a terminal: the message behind a cross, its
  cause behind an arrow, advice behind `help:`, and then the reports of related
  errors.

  Correspondence (program ↔ here):
    `miette::Report`                                ↔ `Report`
    `render_reports_io`, `render_reports_to_string` ↔ `renderAll`
-/

namespace PegCompiler

/-- What there is to say about an error. -/
structure Report where
  message : String
  cause : Option String := none
  help : Option String := none
  /-- Reports of the errors that make up this one. -/
  related : List Report := []

/-- How reports look. -/
inductive Theme where
  | plain
  | colored
  /-- Signs that any terminal has. -/
  | ascii
  deriving DecidableEq, Repr

namespace Theme

/-- The sign in front of a message. -/
def cross : Theme → String
  | .ascii => "x"
  | _ => "×"

/-- The sign in front of further lines of a message. -/
def bar : Theme → String
  | .ascii => "|"
  | _ => "│"

/-- The sign in front of a cause. -/
def arrow : Theme → String
  | .ascii => "`->"
  | _ => "╰─▶"

/-- A text in a color of the terminal, if the theme has colors. -/
def paint (theme : Theme) (code : String) (s : String) : String :=
  match theme with
  | .colored => "\x1b[" ++ code ++ "m" ++ s ++ "\x1b[0m"
  | _ => s

/-- A text in the color of errors. -/
def red (theme : Theme) : String → String := theme.paint "31"

/-- A text in the color of advice. -/
def cyan (theme : Theme) : String → String := theme.paint "36"

end Theme

namespace Report

/-- A line without the spaces at its end. -/
def trimSpaces (line : String) : String :=
  String.ofList (line.toList.reverse.dropWhile (fun c => c == ' ')).reverse

/-- The lines of a text, the first behind one sign and the others behind another. -/
def hanging (first further : String) (text : String) : String :=
  match text.splitOn "\n" with
  | [] => ""
  | line :: rest =>
    String.join ((first ++ trimSpaces line ++ "\n") ::
      rest.map (fun line => further ++ trimSpaces line ++ "\n"))

/-- A report without the related ones. -/
def own (theme : Theme) (message : String) (cause help : Option String) : String :=
  hanging ("  " ++ theme.red theme.cross ++ " ") ("  " ++ theme.red theme.bar ++ " ") message ++
    (match cause with
      | some cause => hanging (theme.red ("  " ++ theme.arrow ++ " ")) (theme.red "      ") cause
      | none => "") ++
    (match help with
      | some help => hanging (theme.cyan "  help: ") "        " help
      | none => "")

mutual

/-- A report as text. -/
def render (theme : Theme) : Report → String
  | ⟨message, cause, help, related⟩ => own theme message cause help ++ renderRelated theme related

/-- Related reports, each under a head of its own. -/
def renderRelated (theme : Theme) : List Report → String
  | [] => ""
  | r :: rest => "\nError: \n" ++ r.render theme ++ renderRelated theme rest

end

/-- Several reports with an empty line between each two. -/
def renderAll (theme : Theme) (reports : List Report) : String :=
  "\n".intercalate (reports.map (render theme))

end Report

end PegCompiler
