import PegCompiler.Proofs.Lists
import PegCompiler.Proofs.Semantics.Grammar
import PegCompiler.Resolution.Context
/-!
  What makes a grammar usable, said of the grammar alone: no context is carried
  along, nothing is extracted and nothing is looked up in what was resolved before.

    1. `Rule.nodes` lists the nodes of a rule at every depth, in the order of the
       text (a repeated body before its separator), each with its place and with
       the elements of its row in front of it.
    2. `Node.Sound` says for each kind of node when it is in order.
    3. `Unblemished` grammars have nothing wrong but, possibly, references to rules
       that they do not define; `undefined` lists these references.
    4. `WellFormed` grammars have nothing wrong at all.
-/

namespace PegCompiler

namespace Grammar

open Resolved (ValueType isIdentifier resultVar sameName)

/-! ## What a row captures -/

/-- The alternatives of a plain group. -/
def Quantified.group? : Quantified → Option (List Alternative)
  | ⟨.group alternatives, .one⟩ => some alternatives
  | _ => none

/-- The label of an element. -/
def Element.label? : Element → Option String
  | .item _ label _ => label
  | .check _ _ => none

/-- The rule that an element refers to plainly. -/
def Element.reference? : Element → Option String
  | .item _ _ body => body.reference?
  | .check _ _ => none

section
variable (typeOf : String → ValueType)

/-- The type of an item's value, for the types of rules: that of its rule if it is a
plain reference, and text otherwise. -/
def Quantified.valueType (body : Quantified) : ValueType :=
  match body.reference? with
  | some target => typeOf target
  | none => .text

/-- The type of the value of a labeled element. -/
def Element.labeled? : Element → Option ValueType
  | .item _ label body => label.map fun _ => body.valueType typeOf
  | .check _ _ => none

/-- The type of the value of a plucked element. -/
def Element.plucked? : Element → Option ValueType
  | .item plucked _ body => if plucked then some (body.valueType typeOf) else none
  | .check _ _ => none

/-- The types of the values that a row without an action is made of: those of its
plucked elements, or else of its labeled ones. -/
def valueTypes (elements : List Element) : List ValueType :=
  if (elements.filterMap (Element.plucked? typeOf)).isEmpty then
    elements.filterMap (Element.labeled? typeOf)
  else elements.filterMap (Element.plucked? typeOf)

/-- The type of a value that is made of values of some types: that of the only one, or
else text. -/
def joinedType : List ValueType → ValueType
  | [type] => type
  | _ => .text

/-- The type of an alternative of a rule: that of its action, or else of the values of
its row. -/
def Alternative.valueType (types : ActionTypes) (rule : String) (index : Nat)
    (a : Alternative) : ValueType :=
  match a.action with
  | some _ => Resolved.actionResult types rule index
  | none => joinedType (valueTypes typeOf a.elements)

end

/-! ## Nodes and their places -/

/-- Where a node stands. -/
structure Place where
  rule : String
  /-- The alternative of the rule around the node, not one of a group. -/
  alternative : Nat
  /-- Whether the node stands in a group. -/
  nested : Bool := false
  /-- Whether matched values are kept. -/
  capturing : Bool := true
  separator : Bool := false
  deriving DecidableEq, Repr

/-- In a group at a place. -/
def Place.inGroup (place : Place) : Place := { place with nested := true }

/-- In a lookahead at a place. -/
def Place.inLookahead (place : Place) : Place := { place with capturing := false }

/-- In a separator at a place. -/
def Place.inSeparator (place : Place) : Place :=
  { place with capturing := false, separator := true }

/-- A node of a grammar; `earlier` are the elements in front of it in its row. -/
inductive Node where
  | choice (alternatives : List Alternative)
  | row (elements : List Element) (action : Option String)
  | label (earlier : List Element) (label : String)
  /-- A plain group that is plucked or has a label. -/
  | namedGroup (alternatives : List Alternative)
  | class (items : List ClassItem)
  | quantifier (quantifier : Quantifier)
  | predicate (earlier : List Element) (p : Predicate)
  | reference (target : String)

/-- Whether a node is a predicate. -/
def Node.isPredicate : Node → Bool
  | .predicate _ _ => true
  | _ => false

mutual

/-- The nodes of a row. -/
def Alternative.nodes (place : Place) : Alternative → List (Place × Node)
  | ⟨elements, action⟩ => elementsNodes place [] elements ++ [(place, .row elements action)]

/-- The nodes of elements behind others. -/
def elementsNodes (place : Place) (earlier : List Element) : List Element → List (Place × Node)
  | [] => []
  | e :: rest => e.nodes place earlier ++ elementsNodes place (earlier ++ [e]) rest

/-- The nodes of an element behind others. -/
def Element.nodes (place : Place) (earlier : List Element) : Element → List (Place × Node)
  | .item plucked label body =>
    (label.map fun l => (place, Node.label earlier l)).toList ++ body.nodes place ++
      (if plucked || label.isSome then
        (body.group?.map fun alternatives => (place, Node.namedGroup alternatives)).toList else [])
  | .check _ (.predicate p) => [(place, .predicate earlier p)]
  | .check _ (.lookahead body) => body.nodes place.inLookahead

/-- The nodes of a quantified expression. -/
def Quantified.nodes (place : Place) : Quantified → List (Place × Node)
  | ⟨expr, quantifier⟩ => expr.nodes place ++ quantifier.nodes place

/-- The nodes of a quantifier. -/
def Quantifier.nodes (place : Place) : Quantifier → List (Place × Node)
  | .separated count separator =>
    (place, .quantifier (.separated count separator)) :: separator.nodes place.inSeparator
  | quantifier => [(place, .quantifier quantifier)]

/-- The nodes of an expression. -/
def Expr.nodes (place : Place) : Expr → List (Place × Node)
  | .class items => [(place, .class items)]
  | .ruleRef target => [(place, .reference target)]
  | .group alternatives =>
    (place, .choice alternatives) :: alternativesNodes place.inGroup alternatives
  | _ => []

/-- The nodes of the alternatives of a group. -/
def alternativesNodes (place : Place) : List Alternative → List (Place × Node)
  | [] => []
  | a :: rest => a.nodes place ++ alternativesNodes place rest

end

/-- The place of an alternative of a rule. -/
def Rule.place (rule : Rule) (index : Nat) : Place where
  rule := rule.id
  alternative := index

/-- The nodes of a rule. -/
def Rule.nodes (rule : Rule) : List (Place × Node) :=
  (rule.place 0, .choice rule.alternatives) ::
    rule.alternatives.zipIdx.flatMap fun (a, index) => a.nodes (rule.place index)

/-- The number of predicates of a rule, at any depth. -/
def Rule.predicateTotal (rule : Rule) : Nat :=
  rule.nodes.countP fun n => n.2.isPredicate

/-- The reference that a node is, if its target is not defined. -/
def undefinedAt (defined : String → Bool) : Place × Node → Option Resolution.Unresolved
  | (place, .reference target) =>
    if defined target then none else some ⟨place.rule, place.alternative, target⟩
  | _ => none

/-! ## Conditions on nodes -/

/-- A class item tests ASCII characters, and a range has one. -/
def ClassItem.Sound : ClassItem → Prop
  | .char c => c.toNat < 128
  | .range bottom top => bottom.toNat < 128 ∧ top.toNat < 128 ∧ bottom ≤ top

/-- Counts are positive, a range has a bound and a number between its bounds other than
zero, and bounds in code are not blank. -/
def Quantifier.Sound : Quantifier → Prop
  | .one | .optional | .zeroOrMore | .oneOrMore => True
  | .exact count | .separated count _ => 0 < count
  | .range min max =>
    (min.isSome ∨ max.isSome) ∧ max ≠ some 0 ∧ ∀ lo hi, min = some lo → max = some hi → lo ≤ hi
  | .computed min max =>
    ∀ code, min = some code ∨ max = some code → Text.isBlankText code = false

/-- A predicate returns a logical value and has parameters of different names, none of
which is that of the result. -/
structure Predicate.Sound (p : Predicate) : Prop where
  returns : Text.trimmed p.returnType = "" ∨
    sameName (Text.trimmed p.returnType) "logical" = true
  params : ∀ q ∈ p.params, isIdentifier q.name = true ∧ sameName q.name resultVar = false
  distinct : p.params.Pairwise fun q r => sameName q.name r.name = false

/-- A source of a predicate is a label, or a rule that is plainly referred to, in front
of the predicate. -/
def Provides (earlier : List Element) (source : String) : Prop :=
  (∃ l ∈ earlier.filterMap Element.label?, sameName l source = true) ∨
    source ∈ earlier.filterMap Element.reference?

/-- A node is in order at its place, for the types of rules. Where no values are kept, in
lookaheads and separators, no label is taken, nothing is put together and predicates
have nothing to take values from. -/
def Node.Sound (typeOf : String → ValueType) (place : Place) : Node → Prop
  | .choice alternatives => alternatives ≠ []
  | .row elements none =>
    place.capturing = true → 2 ≤ (valueTypes typeOf elements).length →
      ∀ type ∈ valueTypes typeOf elements, type = .text
  | .row _ (some _) => place.nested = false
  | .label earlier l =>
    isIdentifier l = true ∧ sameName l resultVar = false ∧
      (place.capturing = true → ∀ other ∈ earlier.filterMap Element.label?,
        sameName other l = false)
  | .namedGroup alternatives =>
    place.capturing = true → ∀ a ∈ alternatives, joinedType (valueTypes typeOf a.elements) = .text
  | .class items => items ≠ [] ∧ ∀ item ∈ items, item.Sound
  | .quantifier q => q.Sound
  | .predicate earlier p =>
    place.separator = false ∧ p.Sound ∧
      ∀ q ∈ p.params, place.capturing = true ∧ Provides earlier q.source
  | .reference _ => True

end Grammar

namespace Grammar

open Resolution (Unresolved ruleResult)
open Resolved (ValueType)

/-- The nodes of a grammar, rule after rule. -/
def nodes (g : Grammar) : List (Place × Node) :=
  g.rules.flatMap Rule.nodes

/-- The type of a rule's value; an undefined rule counts as one that gives text. -/
def ruleType (g : Grammar) (types : ActionTypes) (target : String) : ValueType :=
  match g.rule target with
  | some rule => ruleResult rule types
  | none => .text

/-- Whether a grammar has a rule. -/
def defines (g : Grammar) (target : String) : Bool :=
  (g.rule target).isSome

/-- All references to rules that the grammar does not define, in its order. -/
def undefined (g : Grammar) : List Unresolved :=
  g.nodes.filterMap (undefinedAt g.defines)

/-- A grammar has nothing wrong but references to undefined rules. Where an alternative
of a rule has one, at any depth, its type is not known and need not agree with that of
the rule. -/
structure Unblemished (g : Grammar) (types : ActionTypes) : Prop where
  ids : (g.rules.map (fun r => r.id)).Nodup
  start : ∃ rule, OnlyOne g.rules (fun r => r.start) rule
  nodes : ∀ n ∈ g.nodes, n.2.Sound (g.ruleType types) n.1
  types : ∀ rule ∈ g.rules, ∀ (index : Nat) (a : Alternative), rule.alternatives[index]? = some a →
    (∃ n ∈ a.nodes (rule.place index), (undefinedAt g.defines n).isSome) ∨
      (a.valueType (g.ruleType types) types rule.id index).sameAs (ruleResult rule types) = true

/-- A grammar has nothing wrong: ids are distinct and one rule is the start rule, every
node at any depth is in order, every alternative of a rule has the type of the rule, and
every reference is to a rule of the grammar. -/
structure WellFormed (g : Grammar) (types : ActionTypes) : Prop where
  ids : (g.rules.map (fun r => r.id)).Nodup
  start : ∃ rule, OnlyOne g.rules (fun r => r.start) rule
  nodes : ∀ n ∈ g.nodes, n.2.Sound (g.ruleType types) n.1
  types : ∀ rule ∈ g.rules, ∀ (index : Nat) (a : Alternative), rule.alternatives[index]? = some a →
    (a.valueType (g.ruleType types) types rule.id index).sameAs (ruleResult rule types) = true
  defined : ∀ place target, (place, Node.reference target) ∈ g.nodes → g.defines target = true

end Grammar

end PegCompiler
