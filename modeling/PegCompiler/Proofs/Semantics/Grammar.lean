import PegCompiler.Proofs.Semantics.Host
import PegCompiler.Resolved.ValueType
/-!
  Matching with a grammar as its author writes it: no variables, no extracted
  functions, only labels, references and plucked items of a row with their
  values.

  A plain reference or group has the value of its rule or its alternative, any
  other item the text it consumed. A row's value is that of its action for the
  labeled values, else its plucked value or values put together, else its labeled
  ones, else the text it consumed. A predicate gets, for each parameter, the value
  of a label or else of the latest plain reference to a rule, both earlier in its
  own row.
-/

namespace PegCompiler.Grammar

open Semantics (Host Outcome slice stopText stopChar stopEnd consumed checked repetition nothing)

/-- What a grammar is matched with: the target language, the input, and what
calls of rules come to. -/
structure Reading (V : Type) where
  host : Host V
  input : List Char
  call : (rule : String) → (pos : Nat) → Option (Outcome V)

/-- The values that the elements of a row have had so far, each list in the order
of the elements. -/
structure RowValues (V : Type) where
  labels : List (String × V) := []
  /-- The values of plain references, by rule. -/
  references : List (String × V) := []
  plucked : List V := []

/-- Whether an item of a class contains a character. -/
def ClassItem.contains (c : Char) : ClassItem → Bool
  | .char d => c == d
  | .range bottom top => bottom ≤ c && c ≤ top

/-- The rule that an item refers to, if it is a plain reference. -/
def Quantified.reference? : Quantified → Option String
  | ⟨.ruleRef target, .one⟩ => some target
  | _ => none

/-- The value of a bound in code at a place; blanks around the code mean nothing. -/
def boundValue {V : Type} (H : Host V) (pos : Nat) (code : String) : Int :=
  H.bound (Text.trimmed code) (pos + 1)

namespace RowValues

variable {V : Type}

/-- The values behind an item. -/
def add (row : RowValues V) (plucked : Bool) (label : Option String) (body : Quantified)
    (value : V) : RowValues V where
  labels := row.labels ++ (label.map (fun l => (l, value))).toList
  references := row.references ++ (body.reference?.map (fun r => (r, value))).toList
  plucked := row.plucked ++ (if plucked then [value] else [])

/-- The value that a source of a predicate names. -/
def source (row : RowValues V) (name : String) : Option V :=
  ((row.labels.find? (fun entry => Resolved.sameName entry.1 name)).map (fun entry => entry.2)).or
    (row.references.reverse.lookup name)

/-- Several values put together; one is taken as it is. -/
def joined (H : Host V) : List V → V
  | [value] => value
  | values => H.ofText (values.flatMap H.toText)

/-- The value of a row that matched between two places; the type is that of its
action. -/
def result (row : RowValues V) (H : Host V) (input : List Char) (type : Resolved.ValueType)
    (start stop : Nat) (action : Option String) : V :=
  match action, row.plucked, row.labels with
  | some code, _, labels => H.run type.spec code labels
  | none, [], [] => H.ofText (slice input start stop)
  | none, [], labels => joined H (labels.map (fun entry => entry.2))
  | none, plucked, _ => joined H plucked

end RowValues

section
variable {V : Type} (R : Reading V)

/-- Matches between two bounds, with something in between each two matches. -/
def Reading.repeated (min : Int) (max : Option Int) (between : Nat → Option (Option Nat))
    (body : Nat → Option (Outcome V)) (pos : Nat) : Option (Outcome V) :=
  repetition R.host R.input min max between body pos

/-- Whether a predicate holds behind the values of its row. -/
def Predicate.holds (row : RowValues V) (p : Predicate) : Option Bool := do
  let args ← p.params.mapM (fun q => (row.source q.source).map (fun value => (q.name, value)))
  some (R.host.holds (R.host.run "logical" p.code args))

mutual

/-- Matches the first alternative that does; `types` are those of their actions, and
alternatives are counted from `index`. -/
def readAlternatives (types : Nat → Resolved.ValueType) :
    (index : Nat) → List Alternative → Nat → Option (Outcome V)
  | _, [], _ => some .failed
  | index, a :: rest, pos => do
    match ← a.read (types index) pos with
    | .failed => readAlternatives types (index + 1) rest pos
    | .matched stop value => some (.matched stop value)

/-- Matches a row and gives its value. -/
def Alternative.read (type : Resolved.ValueType) : Alternative → Nat → Option (Outcome V)
  | ⟨elements, action⟩, pos => do
    match ← readElements {} elements pos with
    | none => some .failed
    | some (stop, row) => some (.matched stop (row.result R.host R.input type pos stop action))

/-- Matches elements one after another and keeps their values. -/
def readElements (row : RowValues V) : List Element → Nat → Option (Option (Nat × RowValues V))
  | [], pos => some (some (pos, row))
  | e :: rest, pos => do
    match ← e.read row pos with
    | none => some none
    | some (stop, row) => readElements row rest stop

/-- Matches an element behind the values of its row. -/
def Element.read (row : RowValues V) : Element → Nat → Option (Option (Nat × RowValues V))
  | .item plucked label body, pos =>
    (body.read pos).map fun
      | .failed => none
      | .matched stop value => some (stop, row.add plucked label body value)
  | .check negated (.predicate p), pos =>
    (p.holds R row).map fun holds => if holds != negated then some (pos, row) else none
  | .check negated (.lookahead body), pos =>
    (body.read pos).map fun outcome =>
      if outcome.stop?.isSome != negated then some (pos, row) else none

/-- Matches an expression as often as its quantifier says. -/
def Quantified.read : Quantified → Nat → Option (Outcome V)
  | ⟨expr, .one⟩, pos => expr.read pos
  | ⟨expr, .optional⟩, pos => R.repeated 0 (some 1) nothing expr.read pos
  | ⟨expr, .zeroOrMore⟩, pos => R.repeated 0 none nothing expr.read pos
  | ⟨expr, .oneOrMore⟩, pos => R.repeated 1 none nothing expr.read pos
  | ⟨expr, .exact count⟩, pos =>
    R.repeated count.toNat (some count.toNat) nothing expr.read pos
  | ⟨expr, .range min max⟩, pos =>
    R.repeated ((min.map UInt32.toNat).getD 0) (max.map (fun n => (n.toNat : Int))) nothing
      expr.read pos
  | ⟨expr, .separated count separator⟩, pos =>
    R.repeated count.toNat (some count.toNat) (fun p => (separator.read p).map Outcome.stop?)
      expr.read pos
  | ⟨expr, .computed min max⟩, pos =>
    R.repeated ((min.map (boundValue R.host pos)).getD 0) (max.map (boundValue R.host pos))
      nothing expr.read pos

/-- Matches an expression. -/
def Expr.read : Expr → Nat → Option (Outcome V)
  | .literal value, pos => some (consumed R.host R.input pos (stopText R.input value.toList pos))
  | .class items, pos =>
    some (consumed R.host R.input pos
      (stopChar R.input (fun c => items.any (ClassItem.contains c)) pos))
  | .ruleRef target, pos => R.call target pos
  | .anyChar, pos => some (consumed R.host R.input pos (stopChar R.input (fun _ => true) pos))
  | .endOfInput, pos => some (consumed R.host R.input pos (stopEnd R.input pos))
  | .group alternatives, pos => readAlternatives (fun _ => .text) 0 alternatives pos

end

/-- The outcome of a whole rule, for that of its alternatives. -/
def Rule.finish (rule : Rule) : Outcome V → Outcome V
  | .failed => .failed
  | .matched stop value =>
    if rule.start && (stopEnd R.input stop).isNone then .failed else .matched stop value

end

section
variable {V : Type} (g : Grammar) (types : ActionTypes) (H : Host V) (input : List Char)

/-- Calls a rule at a place, with calls nested as deep as `depth`. -/
def call : (depth : Nat) → (rule : String) → (pos : Nat) → Option (Outcome V)
  | 0, _, _ => none
  | depth + 1, id, pos => do
    let R : Reading V := ⟨H, input, call depth⟩
    let rule ← g.rule id
    (readAlternatives R (Resolved.actionResult types id) 0 rule.alternatives pos).map
      (rule.finish R)

/-- A rule matches at a place, up to `stop`, with a value. -/
def Matches (rule : String) (pos stop : Nat) (value : V) : Prop :=
  ∃ depth, g.call types H input depth rule pos = some (.matched stop value)

/-- A rule fails at a place. -/
def Fails (rule : String) (pos : Nat) : Prop :=
  ∃ depth, g.call types H input depth rule pos = some .failed

end

end PegCompiler.Grammar
