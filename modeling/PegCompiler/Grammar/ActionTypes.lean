/-!
  The declared return types of semantic actions, by rule and alternative. The
  table is a list in ascending order of its keys, rules by their code points and
  then alternatives by number, so equal tables are equal lists.

  Correspondence (program ↔ here):
    `ActionTypeEntry`, `ActionTypes`         ↔ `ActionType`, `ActionTypes`
    `ActionTypes::insert`, `declared`, `len` ↔ `insert`, `declared`, `size`
    `ActionTypes::from`                      ↔ `ofList`
-/

namespace PegCompiler

/-- The return type declared for the action of one alternative. -/
structure ActionType where
  rule : String
  alternative : UInt64
  returnType : String
  deriving DecidableEq, Repr

namespace ActionType

/-- Whether an entry is for an alternative of a rule. -/
def isFor (e : ActionType) (rule : String) (alternative : UInt64) : Bool :=
  e.rule == rule && e.alternative == alternative

/-- Whether an entry comes before a key. -/
def before (e : ActionType) (rule : String) (alternative : UInt64) : Bool :=
  e.rule < rule || (e.rule == rule && e.alternative < alternative)

/-- An ordered list with an entry put in its place, where it replaces an entry
for the same alternative. -/
def insertInto (e : ActionType) : List ActionType → List ActionType
  | [] => [e]
  | f :: rest =>
    if f.isFor e.rule e.alternative then e :: rest
    else if f.before e.rule e.alternative then f :: insertInto e rest
    else e :: f :: rest

end ActionType

/-- A table of declared return types. -/
structure ActionTypes where
  entries : List ActionType := []
  deriving DecidableEq, Repr

namespace ActionTypes

/-- The table with one more declaration, which takes the place of an earlier
one for the same alternative. -/
def insert (t : ActionTypes) (e : ActionType) : ActionTypes :=
  ⟨e.insertInto t.entries⟩

/-- The table of a list of declarations, of which a later one wins. -/
def ofList (es : List ActionType) : ActionTypes :=
  es.foldl insert ⟨[]⟩

/-- The declared return type of an alternative's action. -/
def declared (t : ActionTypes) (rule : String) (alternative : Nat) : Option String :=
  (t.entries.find? (fun e => e.rule == rule && e.alternative.toNat == alternative)).map
    (fun e => e.returnType)

/-- The number of declarations. -/
def size (t : ActionTypes) : Nat :=
  t.entries.length

end ActionTypes

end PegCompiler
