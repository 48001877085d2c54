/-!
  The arguments of the command line. An option takes its value from the same
  argument, behind an equals sign or right behind its letter, or from the next
  one, which then must not look like an option itself. Everything behind `--` is
  a file. Arguments are read from left to right, and the first problem or request
  for help ends the reading.

  Correspondence (program ↔ here):
    `Command`, `Input`, `Args` ↔ `Verb`, `Given`
    `Cli::parse`               ↔ `Request.parse`
  The rest is what the parser library of the program does with arguments and these
  declarations.
-/

namespace PegCompiler.CommandLine

/-- What is wrong with the arguments. -/
inductive UsageError where
  | missingCommand
  | unknownCommand (name : String)
  | unexpectedArgument (argument : String)
  | missingValue (option : String)
  | unexpectedValue (option : String)
  | repeatedOption (option : String)
  | emptyPath (option : String)
  | invalidNumber (option value : String)
  | missingFile
  deriving DecidableEq, Repr

/-- An option with a value. -/
inductive Opt where
  | config | output | moduleName | runtimeModule | indent
  deriving DecidableEq, Repr

namespace Opt

/-- The name of an option behind two dashes. -/
def name : Opt → String
  | .config => "config"
  | .output => "output"
  | .moduleName => "module"
  | .runtimeModule => "runtime"
  | .indent => "indent"

/-- The letter of an option behind one dash. -/
def letter : Opt → Option Char
  | .output => some 'o'
  | _ => none

/-- An option as its user writes it. -/
def shown (o : Opt) : String := "--" ++ o.name

end Opt

/-- A command. -/
inductive Verb where
  | compile | ir | check
  deriving DecidableEq, Repr

namespace Verb

/-- The name of a command. -/
def name : Verb → String
  | .compile => "compile"
  | .ir => "ir"
  | .check => "check"

/-- The options of a command. -/
def options : Verb → List Opt
  | .compile => [.config, .output, .moduleName, .runtimeModule, .indent]
  | .ir => [.config, .output]
  | .check => [.config]

/-- All commands. -/
def all : List Verb := [.compile, .ir, .check]

/-- The command of a name. -/
def ofName? (name : String) : Option Verb :=
  all.find? (fun v => v.name == name)

end Verb

/-- What a command is to be done with. -/
structure Given where
  file : Option String := none
  config : Option String := none
  output : Option String := none
  moduleName : Option String := none
  runtimeModule : Option String := none
  indent : Option UInt64 := none
  deriving DecidableEq, Repr

/-- What help is wanted on. -/
inductive Topic where
  | program
  | help
  | command (verb : Verb)
  deriving DecidableEq, Repr

/-- What the arguments ask for. -/
inductive Request where
  | version
  | help (topic : Topic)
  | run (verb : Verb) (file : String) (given : Given)
  deriving DecidableEq, Repr

/-- Why the reading of arguments ends early. -/
inductive Stop where
  | error (e : UsageError)
  | answer (r : Request)
  deriving DecidableEq, Repr

/-- Ends the reading with an error. -/
def refuse {α : Type} (e : UsageError) : Except Stop α := .error (.error e)

/-- A number of 64 bits in decimal digits, perhaps behind a plus. -/
def number? (s : String) : Option UInt64 :=
  let digits := match s.toList with
    | '+' :: rest => rest
    | cs => cs
  let n := digits.foldl (fun n d => 10 * n + (d.toNat - '0'.toNat)) 0
  if !digits.isEmpty && digits.all Char.isDigit && n < UInt64.size then some (UInt64.ofNat n)
  else none

/-- A path, which must not be empty. -/
def pathValue (option value : String) : Except Stop String :=
  if value == "" then refuse (.emptyPath option) else .ok value

/-- What was given, with a value of an option. -/
def Given.add (g : Given) (o : Opt) (value : String) : Except Stop Given :=
  let fresh {α : Type} (old : Option α) (new : Except Stop Given) : Except Stop Given :=
    if old.isSome then refuse (.repeatedOption o.shown) else new
  match o with
  | .config => fresh g.config ((pathValue o.shown value).map fun v => { g with config := some v })
  | .output => fresh g.output ((pathValue o.shown value).map fun v => { g with output := some v })
  | .moduleName => fresh g.moduleName (.ok { g with moduleName := some value })
  | .runtimeModule => fresh g.runtimeModule (.ok { g with runtimeModule := some value })
  | .indent => fresh g.indent (match number? value with
    | some n => .ok { g with indent := some n }
    | none => refuse (.invalidNumber o.shown value))

/-- What was given, with a file. -/
def Given.addFile (g : Given) (value : String) : Except Stop Given :=
  if g.file.isSome then refuse (.unexpectedArgument value)
  else (pathValue "FILE" value).map fun v => { g with file := some v }

/-- An argument by its form. -/
inductive Shape where
  | value (s : String)
  /-- Two dashes alone. -/
  | rest
  /-- A name behind two dashes, and what stands behind an equals sign. -/
  | long (name : String) (value : Option String)
  /-- A letter behind one dash, and what stands right behind it. -/
  | short (letter : Char) (tail : List Char)
  deriving DecidableEq, Repr

/-- The form of an argument; a dash alone is a value. -/
def Shape.of (argument : String) : Shape :=
  match argument.toList with
  | '-' :: '-' :: [] => .rest
  | '-' :: '-' :: cs =>
    let name := cs.takeWhile (fun c => c != '=')
    .long (String.ofList name) (match cs.dropWhile (fun c => c != '=') with
      | [] => none
      | _ :: behind => some (String.ofList behind))
  | '-' :: c :: tail => .short c tail
  | _ => .value argument

/-- How far the arguments of a command have been read. -/
structure Progress where
  given : Given := {}
  /-- The option that the next argument is the value of. -/
  pending : Option Opt := none
  /-- Whether all further arguments are files. -/
  onlyFiles : Bool := false
  deriving DecidableEq, Repr

namespace Progress

/-- A value of an option read. -/
def withValue (p : Progress) (o : Opt) (value : String) : Except Stop Progress :=
  (p.given.add o value).map fun given => { p with given, pending := none }

/-- A file read. -/
def withFile (p : Progress) (value : String) : Except Stop Progress :=
  (p.given.addFile value).map fun given => { p with given }

/-- An option read that the command may not have, and its value if that stands in the
same argument. -/
def withOption (p : Progress) (argument : String) (o : Option Opt) (value : Option String) :
    Except Stop Progress :=
  match o, value with
  | none, _ => refuse (.unexpectedArgument argument)
  | some o, some value => p.withValue o value
  | some o, none => .ok { p with pending := some o }

/-- The value of an option right behind its letter, perhaps behind an equals sign. -/
def attached : List Char → Option String
  | [] => none
  | '=' :: value => some (String.ofList value)
  | value => some (String.ofList value)

/-- One more argument read. -/
def next (verb : Verb) (p : Progress) (argument : String) : Except Stop Progress :=
  if p.onlyFiles then p.withFile argument
  else
    match p.pending, Shape.of argument with
    | some o, .value s => p.withValue o s
    | some o, _ => refuse (.missingValue o.shown)
    | none, .value s => p.withFile s
    | none, .rest => .ok { p with onlyFiles := true }
    | none, .long "help" none | none, .short 'h' _ => .error (.answer (.help (.command verb)))
    | none, .long "help" (some _) => refuse (.unexpectedValue "--help")
    | none, .long name value =>
      p.withOption argument (verb.options.find? (fun o => o.name == name)) value
    | none, .short letter tail =>
      p.withOption argument (verb.options.find? (fun o => o.letter == some letter)) (attached tail)

end Progress

/-- What the arguments of a command give. -/
def arguments (verb : Verb) (args : List String) : Except Stop Given := do
  let p ← args.foldlM (Progress.next verb) {}
  match p.pending with
  | some o => refuse (.missingValue o.shown)
  | none => pure p.given

/-- A request for a command. -/
def command (verb : Verb) (args : List String) : Except Stop Request := do
  let g ← arguments verb args
  match g.file with
  | some file => pure (.run verb file g)
  | none => refuse .missingFile

/-- A request for help, from what stands behind the word. -/
def helpRequest : List String → Except Stop Request
  | [] => .ok (.help .program)
  | [name] =>
    if name == "help" then .ok (.help .help)
    else match Verb.ofName? name with
      | some verb => .ok (.help (.command verb))
      | none => refuse (.unknownCommand name)
  | _ :: name :: _ => refuse (.unknownCommand name)

/-- The request of all arguments. -/
def request : List String → Except Stop Request
  | [] => refuse .missingCommand
  | argument :: rest =>
    match Shape.of argument with
    | .value name =>
      if name == "help" then helpRequest rest
      else match Verb.ofName? name with
        | some verb => command verb rest
        | none => refuse (.unknownCommand name)
    | .long "help" none | .short 'h' _ => .ok (.help .program)
    | .long "version" none | .short 'V' _ => .ok .version
    | _ => refuse (.unexpectedArgument argument)

/-- What arguments ask for, or what is wrong with them. -/
def Request.parse (args : List String) : Except UsageError Request :=
  match request args with
  | .ok r => .ok r
  | .error (.answer r) => .ok r
  | .error (.error e) => .error e

end PegCompiler.CommandLine
