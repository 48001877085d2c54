import PegCompiler.Resolved.ValueType
/-!
  Names of what is generated. A Fortran identifier has at most 63 characters,
  ignores case, starts with a letter and goes on with letters, digits and
  underscores. Every generated name starts with a word of its own kind, and the
  names of a rule are made from its base: the rule's id in lower case, with a
  number behind it where an earlier rule has taken that name.

  Correspondence (program ↔ here):
    `Ident`, `RuleNames::new`, `RuleNames::base` ↔ `BaseName`, `RuleNames.ofIds`, `RuleNames.base`
    `disambiguate_ident`                         ↔ `BaseName.among`
    `rename_to_valid_identifier`                 ↔ `sanitize`
    `is_valid_identifier`                        ↔ `isIdentifier`
    `rule_function_name`                         ↔ `ruleFunction`
    `action_id`, `predicate_id`                  ↔ `actionFunction`, `predicateFunction`
    `capture_var`, `group_var`                   ↔ `captureVar`, `groupVar`
-/

namespace PegCompiler.Resolved

/-- The variable that holds the result of a generated function. -/
def resultVar : String := "res"

/-- Whether a text is an identifier of the target language. -/
def isIdentifier (name : String) : Bool :=
  match name.toList with
  | [] => false
  | c :: cs => c.isAlpha && cs.length < 63 && cs.all (fun d => d.isAlphanum || d == '_')

/-- A rule id as lower-case letters, digits and underscores, at most 40 of them
and never none. -/
def sanitize (id : String) : String :=
  match (id.toList.take 40).map (fun c => if c.isAlphanum then c.toLower else '_') with
  | [] => "rule"
  | cs => String.ofList cs

/-- The base of a rule's names. -/
structure BaseName where
  name : String
  /-- Tells the rule apart from earlier ones of the same name. -/
  number : Option Nat := none
  deriving DecidableEq, Repr

/-- A base as it stands in names. -/
def BaseName.shown (b : BaseName) : String :=
  match b.number with
  | none => b.name
  | some n => b.name ++ "_" ++ toString n

/-- The base of a name among taken ones: the name itself if it is free, else the
name with the smallest number from 1 on that makes it so. One number more than
there are taken names suffices. -/
def BaseName.among (taken : List String) (name : String) : BaseName :=
  if taken.contains name then
    ⟨name, (List.range' 1 (taken.length + 1)).find?
      (fun n => !taken.contains (BaseName.mk name (some n)).shown)⟩
  else ⟨name, none⟩

/-- The bases of rules, in the order in which they were given. -/
structure RuleNames where
  bases : List (String × BaseName) := []
  deriving DecidableEq, Repr

namespace RuleNames

/-- The base of a rule. -/
def base (names : RuleNames) (id : String) : Option BaseName :=
  names.bases.lookup id

/-- The names with a base for one more rule; a rule that has one keeps it. -/
def add (names : RuleNames) (id : String) : RuleNames :=
  if (names.base id).isSome then names
  else ⟨names.bases ++
    [(id, .among (names.bases.map (fun entry => entry.2.shown)) (sanitize id))]⟩

/-- The bases of a list of rules. -/
def ofIds (ids : List String) : RuleNames :=
  ids.foldl add {}

end RuleNames

/-- The function of a rule. -/
def ruleFunction (base : BaseName) : String :=
  "peg_" ++ base.shown

/-- The function of the action of an alternative. -/
def actionFunction (base : BaseName) (alternative : Nat) : String :=
  "action_" ++ base.shown ++ "_" ++ toString alternative

/-- The function of a predicate, by its place among the predicates of its
rule. -/
def predicateFunction (base : BaseName) (index : Nat) : String :=
  "pred_" ++ base.shown ++ "_" ++ toString index

/-- The variable that holds what an element captures. -/
def captureVar (alternative position : Nat) : String :=
  "capture_" ++ toString alternative ++ "_" ++ toString position

/-- The variable that holds the value of a group; a group is found by the
alternative and the position of every group around it and of its own. -/
def groupVar (path : List (Nat × Nat)) : String :=
  path.foldl (fun s p => s ++ "_" ++ toString p.1 ++ "_" ++ toString p.2) "group"

end PegCompiler.Resolved
