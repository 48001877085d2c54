import PegCompiler.Text.Blank
import PegCompiler.Grammar.ActionTypes
/-!
  The types of values that rules, actions and captures produce. A declaration is
  taken without the blanks around it, a blank one stands for text, and two
  declared types are the same when they differ in ASCII case only.

  Correspondence (program ↔ here):
    `ValueType::declared`, `type_spec`, `Display` ↔ `ofDeclaration`, `spec`, `shown`
    `is_text`, `same_as`, `result_type`           ↔ `isText`, `sameAs`, `actionResult`
-/

namespace PegCompiler.Resolved

/-- Whether two names are equal for a language that ignores the case of ASCII
letters. -/
def sameName (a b : String) : Bool :=
  a.toLower == b.toLower

/-- The type of a value. -/
inductive ValueType where
  /-- A piece of the input, of any length. -/
  | text
  | declared (name : String)
  deriving DecidableEq, Repr

namespace ValueType

/-- The type that a declaration stands for. -/
def ofDeclaration (declaration : String) : ValueType :=
  if Text.isBlankText declaration then .text else .declared (Text.trimmed declaration)

/-- The type in a Fortran declaration. -/
def spec : ValueType → String
  | .text => "character(len=:), allocatable"
  | .declared name => name

/-- The type in messages. -/
def shown : ValueType → String
  | .text => "text"
  | .declared name => name

/-- Whether a value is a piece of the input. -/
def isText : ValueType → Bool
  | .text => true
  | .declared _ => false

/-- Whether two types are one type of the target language. -/
def sameAs : ValueType → ValueType → Bool
  | .text, .text => true
  | .declared a, .declared b => sameName a b
  | _, _ => false

end ValueType

/-- The type of the value of an alternative's action: the declared one, or text
if none is declared. -/
def actionResult (types : ActionTypes) (rule : String) (alternative : Nat) : ValueType :=
  match types.declared rule alternative with
  | some declaration => .ofDeclaration declaration
  | none => .text

end PegCompiler.Resolved
