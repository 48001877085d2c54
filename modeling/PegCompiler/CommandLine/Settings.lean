import PegCompiler.Log
import PegCompiler.Report
/-!
  Settings from the environment: whether output is colored, and how much of the
  log is shown. Values that mean nothing count as missing.

  Correspondence (program ↔ here):
    `GlobalSettings`, `GlobalSettings::from_env`     ↔ `Settings`, `Settings.ofEnvironment`
    `ColorChoice::from_str`, `LevelFilter::from_str` ↔ `ColorChoice.ofName`, `levelOfName`
    `GlobalSettings::write_style`                    ↔ the argument `colored` of `Log.lines`
-/

namespace PegCompiler.CommandLine

/-- When output is colored. -/
inductive ColorChoice where
  | always
  | never
  /-- Only where a terminal shows colors. -/
  | auto
  deriving DecidableEq, Repr

/-- The choice that a word stands for in any case. -/
def ColorChoice.ofName (name : String) : ColorChoice :=
  match name.toLower with
  | "always" | "always-ansi" => .always
  | "never" => .never
  | _ => .auto

/-- The look of reports; without a terminal, `auto` uses plain signs. -/
def ColorChoice.theme : ColorChoice → Theme
  | .always => .colored
  | .never => .plain
  | .auto => .ascii

/-- A letter of a level in upper case, including the two letters beyond ASCII whose
upper case is in it. -/
def upperChars (c : Char) : List Char :=
  if c == 'ı' then ['I'] else if c == 'ﬀ' then ['F', 'F'] else [c.toUpper]

/-- The level that a word stands for in any case; `off` is none. -/
def levelOfName (name : String) : Option (Option Log.Level) :=
  let name := String.ofList (name.toList.flatMap upperChars)
  if name == "OFF" then some none
  else (Log.Level.all.find? (fun l => l.name == name)).map some

/-- The settings. -/
structure Settings where
  color : ColorChoice := .auto
  /-- The least important level that is shown. -/
  log : Option Log.Level := some .warn
  deriving DecidableEq, Repr

/-- The settings that variables of the environment make. -/
def Settings.ofEnvironment (color log : Option String) : Settings :=
  { color := (color.map ColorChoice.ofName).getD .auto
    log := (log.bind levelOfName).getD (some .warn) }

end PegCompiler.CommandLine
