import PegCompiler.CommandLine.Arguments
/-!
  What the command line says about itself: its version, help on the program and
  on each command, and what is wrong with arguments.

  Correspondence (program ↔ here):
    the help and version of `Cli`    ↔ `helpText`, `versionText`
    the usage errors of `Cli::parse` ↔ `UsageError.message`, `UsageError.text`
-/

namespace PegCompiler.CommandLine

/-- The name and the version of the program. -/
def versionText : String := "fortpeg 0.1.0\n"

/-- What a command does. -/
def Verb.about : Verb → String
  | .compile => "Translate a grammar document into a Fortran module"
  | .ir => "Print the resolved matcher IR of a grammar document"
  | .check => "Check that a grammar document can be translated"

/-- The value and the meaning of an option. -/
def Opt.about (verb : Verb) : Opt → String × String
  | .config => ("<FILE>", "Code generation options (TOML)")
  | .output => ("<FILE>", match verb with
    | .ir => "Write the IR to FILE instead of stdout"
    | _ => "Write the generated module to FILE instead of stdout")
  | .moduleName => ("<NAME>", "Name of the generated module")
  | .runtimeModule => ("<NAME>", "Name of the runtime module providing the match primitives")
  | .indent => ("<INDENT>", "Spaces of indentation per nesting level")

/-- A name with spaces behind it up to a width. -/
def column (width : Nat) (name : String) : String :=
  name ++ String.ofList (List.replicate (width - name.length) ' ')

/-- Lines of two columns. -/
def table (rows : List (String × String)) : String :=
  let width := (rows.map (fun r => r.1.length)).foldl max 0
  String.join (rows.map fun r => "  " ++ column width r.1 ++ "  " ++ r.2 ++ "\n")

/-- An option in front of its meaning. -/
def Opt.head (verb : Verb) (o : Opt) : String :=
  (match o.letter with
    | some c => String.ofList ['-', c] ++ ", "
    | none => "    ") ++ o.shown ++ " " ++ (o.about verb).1

/-- The help on a command. -/
def commandHelp (verb : Verb) : String :=
  verb.about ++ "\n\nUsage: fortpeg " ++ verb.name ++ " [OPTIONS] <FILE>\n\nArguments:\n" ++
    table [("<FILE>", "The grammar document (JSON)")] ++ "\nOptions:\n" ++
    table (verb.options.map (fun o => (o.head verb, (o.about verb).2)) ++
      [("-h, --help", "Print help")])

/-- What the help command does. -/
def helpAbout : String := "Print this message or the help of the given subcommand(s)"

/-- The help on a topic. -/
def helpText : Topic → String
  | .program =>
    "Translate PEG grammars into recursive-descent parsers written in Fortran\n\n" ++
      "Usage: fortpeg <COMMAND>\n\nCommands:\n" ++
      table (Verb.all.map (fun v => (v.name, v.about)) ++ [("help", helpAbout)]) ++
      "\nOptions:\n" ++ table [("-h, --help", "Print help"), ("-V, --version", "Print version")]
  | .help =>
    helpAbout ++ "\n\nUsage: fortpeg help [COMMAND]...\n\nArguments:\n" ++
      table [("[COMMAND]...", "Print help for the subcommand(s)")]
  | .command verb => commandHelp verb

/-- The message of an error in the arguments. -/
def UsageError.message : UsageError → String
  | .missingCommand => "a command is required"
  | .unknownCommand name => "unrecognized subcommand '" ++ name ++ "'"
  | .unexpectedArgument argument => "unexpected argument '" ++ argument ++ "' found"
  | .missingValue option => "a value is required for '" ++ option ++ "' but none was supplied"
  | .unexpectedValue option => "unexpected value for '" ++ option ++ "' found"
  | .repeatedOption option => "the argument '" ++ option ++ "' cannot be used multiple times"
  | .emptyPath option => "a value is required for '" ++ option ++ "' but none was supplied"
  | .invalidNumber option value => "invalid value '" ++ value ++ "' for '" ++ option ++ "'"
  | .missingFile => "the following required arguments were not provided: <FILE>"

/-- What the program says about wrong arguments. -/
def UsageError.text : UsageError → String
  | .missingCommand => helpText .program
  | e => "error: " ++ e.message ++ "\n\nFor more information, try '--help'.\n"

end PegCompiler.CommandLine
