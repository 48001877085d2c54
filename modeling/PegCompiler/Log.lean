import PegCompiler.Text.Terminal
/-!
  The log: what the program tells about its work, by level and by the part of
  the program that tells it.

  Correspondence (program ↔ here):
    `log::Level`, the records of `log` ↔ `Level`, `Entry`
    the format of `env_logger`         ↔ `Entry.line`, `lines`
-/

namespace PegCompiler.Log

/-- How important an entry is. -/
inductive Level where
  | error | warn | info | debug | trace
  deriving DecidableEq, Repr

namespace Level

/-- The place of a level, the most important one first. -/
def rank : Level → Nat
  | .error => 1
  | .warn => 2
  | .info => 3
  | .debug => 4
  | .trace => 5

/-- The name of a level. -/
def name : Level → String
  | .error => "ERROR"
  | .warn => "WARN"
  | .info => "INFO"
  | .debug => "DEBUG"
  | .trace => "TRACE"

/-- The terminal code of a level. -/
def code : Level → String
  | .error => "\x1b[1m\x1b[31m"
  | .warn => "\x1b[33m"
  | .info => "\x1b[32m"
  | .debug => "\x1b[34m"
  | .trace => "\x1b[36m"

/-- All levels. -/
def all : List Level := [.error, .warn, .info, .debug, .trace]

end Level

/-- One entry of the log. -/
structure Entry where
  level : Level
  /-- The part of the program that tells it. -/
  target : String
  message : String
  deriving DecidableEq, Repr

/-- A name with spaces behind it, up to the length of the longest one. -/
def padded (name : String) : String :=
  name ++ String.ofList (List.replicate (5 - name.length) ' ')

/-- A message whose further lines are indented. -/
def indented (message : String) : String :=
  "\n    ".intercalate (message.splitOn "\n")

/-- An entry as a line with terminal codes. -/
def Entry.coloredLine (e : Entry) : String :=
  let paint (code s : String) : String := code ++ s ++ "\x1b[0m"
  let gray := paint "\x1b[90m"
  gray "[" ++ paint e.level.code (padded e.level.name) ++ " " ++ e.target ++ gray "]" ++ " " ++
    indented e.message ++ "\n"

/-- An entry as a line, which without color has no terminal codes even where the message
has some. -/
def Entry.line (colored : Bool) (e : Entry) : String :=
  if colored then e.coloredLine else Text.withoutCodes e.coloredLine

/-- The lines of the entries that are important enough; without a limit nothing is
told. -/
def lines (colored : Bool) (limit : Option Level) (entries : List Entry) : String :=
  match limit with
  | none => ""
  | some limit =>
    String.join ((entries.filter (fun e => e.level.rank ≤ limit.rank)).map (Entry.line colored))

end PegCompiler.Log
