import PegCompiler.Resolved.Syntax
import PegCompiler.Target.Stmt
/-!
  The local variables of one generated function. Every construct that needs
  locals draws a fresh number, so nested constructs share neither a variable nor
  a label.

  Correspondence (program ↔ here):
    `Scope`, `fresh`, `integer`, `logical`      ↔ `Scope`, `fresh`, `integer`, `logical`
    `scratch`, `declare`, `decls`, `value_decl` ↔ `scratch`, `declare`, `decls`, `declOf`
    `BackendError::CodegenError`                ↔ `Failure`
-/

namespace PegCompiler.Lowering

open Resolved (ValueType)
open Target (Decl)

/-- The locals of a function, each list in order of creation. -/
structure Scope where
  /-- The last number drawn. -/
  counter : Nat := 0
  integers : List String := []
  logicals : List String := []
  others : List (String × ValueType) := []
  deriving DecidableEq, Repr

/-- A name made of a word and a number. -/
def numbered (word : String) (k : Nat) : String :=
  word ++ "_" ++ toString k

namespace Scope

/-- The next number. -/
def fresh (s : Scope) : Nat × Scope :=
  (s.counter + 1, { s with counter := s.counter + 1 })

/-- A new integer variable. -/
def integer (s : Scope) (word : String) (k : Nat) : String × Scope :=
  (numbered word k, { s with integers := s.integers ++ [numbered word k] })

/-- A new logical variable. -/
def logical (s : Scope) (word : String) (k : Nat) : String × Scope :=
  (numbered word k, { s with logicals := s.logicals ++ [numbered word k] })

/-- A variable for values that nobody reads; all values of one type share it. -/
def scratch (s : Scope) (type : ValueType) : String × Scope :=
  match s.others.find? (fun v => "scratch_".isPrefixOf v.1 && v.2.sameAs type) with
  | some v => (v.1, s)
  | none =>
    let (k, s) := s.fresh
    (numbered "scratch" k, { s with others := s.others ++ [(numbered "scratch" k, type)] })

/-- The scope with a variable of a given name, unless there is one already. -/
def declare (s : Scope) (name : String) (type : ValueType) : Scope :=
  if s.others.any (fun v => v.1 == name) then s
  else { s with others := s.others ++ [(name, type)] }

/-- A declaration of variables, if there are any. -/
def declOf (type : String) (names : List String) : List Decl :=
  if names.isEmpty then [] else [⟨type, [], names⟩]

/-- The declarations of all locals. -/
def decls (s : Scope) : List Decl :=
  declOf "integer" s.integers ++ declOf "logical" s.logicals ++
    s.others.map (fun v => ⟨v.2.spec, [], [v.1]⟩)

end Scope

/-- Why a parser has no code. -/
inductive Failure where
  | moduleName (name : String)
  | equalModules (name : String)
  | functionName (name : String)
  | repeatedFunction (name : String)
  | unresolvedCall (rule : String)
  | emptyClass
  deriving DecidableEq, Repr

/-- The message of a failure. -/
def Failure.message (f : Failure) : String :=
  "Code generation error: " ++ match f with
    | .moduleName name => "`" ++ name ++ "` is not a valid Fortran module name"
    | .equalModules name =>
      "The generated module and the runtime module are both named `" ++ name ++ "`"
    | .functionName name =>
      "The generated name `" ++ name ++ "` is not a valid Fortran identifier"
    | .repeatedFunction name =>
      "The generated name `" ++ name ++ "` is used for more than one function"
    | .unresolvedCall rule => "Call of the unresolved rule `" ++ rule ++ "`"
    | .emptyClass => "Empty character class"

/-- Lowering: it may fail, and the locals made until then stay. -/
abbrev Lower := ExceptT Failure (StateM Scope)

end PegCompiler.Lowering
