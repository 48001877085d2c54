import PegCompiler.Grammar.ActionTypes
import PegCompiler.Grammar.Syntax
import PegCompiler.Json.Shape
/-!
  Grammar documents: a grammar with the declared types of its actions, as JSON.
  `Document.render` writes every field, `Document.parse` accepts fields in any
  order, fields with a default left out, and fields nobody knows.

  Correspondence (program ↔ here):
    `CstDocument`                               ↔ `Document`
    its derived `Serialize`                     ↔ `Document.toJson`, `Document.render`
    its derived `Deserialize`, `parse_document` ↔ `Document.parse`
-/

namespace PegCompiler

/-- A grammar and the types of its actions. -/
structure Document where
  grammar : Grammar
  actionTypes : ActionTypes
  deriving Repr

namespace Grammar

open Json (tagged optional nat)

/-! ## Writing -/

/-- A number, or null. -/
def optionalCount (n : Option UInt32) : Json :=
  match n with
  | some n => nat n.toNat
  | none => .null

/-- A single character. -/
def charJson (c : Char) : Json := .string (String.ofList [c])

/-- An item of a class. -/
def ClassItem.toJson : ClassItem → Json
  | .char c => tagged "char" (charJson c)
  | .range bottom top =>
    tagged "range" (.object [("bottom", charJson bottom), ("top", charJson top)])

/-- A parameter of a predicate. -/
def PredicateParam.toJson (p : PredicateParam) : Json :=
  .object [("name", .string p.name), ("source", .string p.source)]

/-- A predicate. -/
def Predicate.toJson (p : Predicate) : Json :=
  .object [("params", .array (p.params.map PredicateParam.toJson)),
    ("return_type", .string p.returnType), ("code", .string p.code)]

mutual

/-- A row of elements. -/
def Alternative.toJson : Alternative → Json
  | ⟨elements, action⟩ =>
    .object [("elements", .array (elementsJson elements)),
      ("action", match action with
        | some code => .object [("code", .string code)]
        | none => .null)]

/-- The elements of a row. -/
def elementsJson : List Element → List Json
  | [] => []
  | e :: rest => e.toJson :: elementsJson rest

/-- An element. -/
def Element.toJson : Element → Json
  | .item plucked label body =>
    let labeled := Json.object [("label", optional label), ("annotated", body.toJson)]
    if plucked then tagged "pluck" (.object [("labeled", labeled)]) else tagged "labeled" labeled
  | .check negated condition =>
    tagged (if negated then "neg_assertion" else "assertion")
      (.object [("target", condition.toJson)])

/-- The condition of a check. -/
def Condition.toJson : Condition → Json
  | .predicate p => tagged "predicate" p.toJson
  | .lookahead body => tagged "element" body.toJson

/-- An expression and its quantifier. -/
def Quantified.toJson : Quantified → Json
  | ⟨expr, quantifier⟩ => .object [("expr", expr.toJson), ("qty", quantifier.toJson)]

/-- A quantifier. -/
def Quantifier.toJson : Quantifier → Json
  | .one => .string "one"
  | .optional => .string "optional"
  | .zeroOrMore => .string "zero_or_more"
  | .oneOrMore => .string "one_or_more"
  | .exact count => tagged "exact" (nat count.toNat)
  | .range min max =>
    tagged "range" (.object [("min", optionalCount min), ("max", optionalCount max)])
  | .separated count separator =>
    tagged "separated" (.object [("count", nat count.toNat), ("separator", separator.toJson)])
  | .computed min max =>
    tagged "dynamic" (.object [("min", optional min), ("max", optional max)])

/-- An expression. -/
def Expr.toJson : Expr → Json
  | .literal value => tagged "literal" (.object [("value", .string value)])
  | .class items =>
    tagged "class" (.object [("items", .array (items.map ClassItem.toJson))])
  | .ruleRef target => tagged "rule_ref" (.object [("target", .string target)])
  | .anyChar => .string "any"
  | .endOfInput => .string "end"
  | .group alternatives =>
    tagged "group" (.object [("alternatives", .array (alternativesJson alternatives))])

/-- The alternatives of a choice. -/
def alternativesJson : List Alternative → List Json
  | [] => []
  | a :: rest => a.toJson :: alternativesJson rest

end

/-- A choice. -/
def choiceJson (alternatives : List Alternative) : Json :=
  .object [("alternatives", .array (alternativesJson alternatives))]

/-- A rule. -/
def Rule.toJson (r : Rule) : Json :=
  .object [("id", .string r.id), ("start", .bool r.start), ("body", choiceJson r.alternatives)]

/-- A grammar. -/
def toJson (g : Grammar) : Json :=
  .object [("rules", .array (g.rules.map Rule.toJson)), ("prologue", optional g.prologue),
    ("epilogue", optional g.epilogue)]

end Grammar

/-- A declared type. -/
def ActionType.toJson (e : ActionType) : Json :=
  .object [("rule", .string e.rule), ("alternative", Json.nat e.alternative.toNat),
    ("return_type", .string e.returnType)]

/-- A table of declared types. -/
def ActionTypes.toJson (t : ActionTypes) : Json :=
  .array (t.entries.map ActionType.toJson)

/-- A document. -/
def Document.toJson (d : Document) : Json :=
  .object [("grammar", d.grammar.toJson), ("action_types", d.actionTypes.toJson)]

/-- The text of a document. -/
def Document.render (d : Document) : String :=
  d.toJson.render

namespace Grammar.Read

open Json

/-! ## Reading

The number that a reader takes is the levels of nesting left around the value. -/

/-- A record with one text. -/
def oneText (expected field : String) : Nat → Reader String
  | 0 => noRoomRecord expected
  | _ + 1 => record1 expected (required field textValue)

/-- A character range. -/
def range : Nat → Reader ClassItem
  | 0 => noRoomRecord "struct Range"
  | _ + 1 => do
    let (bottom, top) ← record2 "struct Range" (required "bottom" charValue)
      (required "top" charValue)
    pure (.range bottom top)

/-- The variants of an item of a class. -/
def itemVariants (depth : Nat) : List (Variant ClassItem) :=
  [.payload "char" (ClassItem.char <$> charValue), .payload "range" (range depth)]

/-- An item of a class. -/
def item : Nat → Reader ClassItem
  | 0 => noRoomVariant (itemVariants 0)
  | depth + 1 => variantOf (itemVariants depth)

/-- The items of a class. -/
def classItems : Nat → Reader (List ClassItem)
  | 0 => noRoomList
  | depth + 1 => listOf (item depth)

/-- A character class. -/
def charClass : Nat → Reader (List ClassItem)
  | 0 => noRoomRecord "struct CharClass"
  | depth + 1 => record1 "struct CharClass" (required "items" (classItems depth))

/-- A parameter of a predicate. -/
def param : Nat → Reader PredicateParam
  | 0 => noRoomRecord "struct PredicateParam"
  | _ + 1 => do
    let (name, source) ← record2 "struct PredicateParam" (required "name" textValue)
      (required "source" textValue)
    pure ⟨name, source⟩

/-- The parameters of a predicate. -/
def params : Nat → Reader (List PredicateParam)
  | 0 => noRoomList
  | depth + 1 => listOf (param depth)

/-- A predicate. -/
def predicate : Nat → Reader Predicate
  | 0 => noRoomRecord "struct Predicate"
  | depth + 1 => do
    let (params, returnType, code) ← record3 "struct Predicate"
      (withDefault "params" [] (params depth)) (withDefault "return_type" "" textValue)
      (required "code" textValue)
    pure ⟨params, returnType, code⟩

/-- The bounds of a range. -/
def bounds {α : Type} (name : String) (read : Reader α) : Nat → Reader (Option α × Option α)
  | 0 => noRoomRecord name
  | _ + 1 => record2 name (maybeInObject "min" read) (maybeInObject "max" read)

/-- A number of matches and a separator. -/
def separated (depth : Nat) (expr : Reader Expr) : Reader Quantifier :=
  let name := "struct variant Quantifier::Separated"
  match depth with
  | 0 => noRoomRecord name
  | _ + 1 => do
    let (count, separator) ← record2 name (required "count" wordValue) (required "separator" expr)
    pure (.separated count separator)

/-- The variants of a quantifier; the second reader is that of a separator. -/
def quantifierVariants (depth : Nat) (expr : Reader Expr) : List (Variant Quantifier) :=
  [.bare "one" .one, .bare "optional" .optional, .bare "zero_or_more" .zeroOrMore,
    .bare "one_or_more" .oneOrMore, .payload "exact" (Quantifier.exact <$> wordValue),
    .fields "range" do
      let (min, max) ← bounds "struct variant Quantifier::Range" wordValue depth
      pure (.range min max),
    .fields "separated" (separated depth expr),
    .fields "dynamic" do
      let (min, max) ← bounds "struct variant Quantifier::Dynamic" textValue depth
      pure (.computed min max)]

/-- The variants of an expression; the second reader is that of a choice. -/
def exprVariants (depth : Nat) (choice : Reader (List Alternative)) : List (Variant Expr) :=
  [.payload "literal" (Expr.literal <$> oneText "struct Literal" "value" depth),
    .payload "class" (Expr.class <$> charClass depth),
    .payload "rule_ref" (Expr.ruleRef <$> oneText "struct RuleRef" "target" depth),
    .bare "any" .anyChar, .bare "end" .endOfInput,
    .payload "group" (Expr.group <$> choice)]

/-- The variants of a condition; the second reader is that of a lookahead. -/
def conditionVariants (depth : Nat) (body : Reader Quantified) : List (Variant Condition) :=
  [.payload "predicate" (Condition.predicate <$> predicate depth),
    .payload "element" (Condition.lookahead <$> body)]

/-- A label and what it labels. -/
abbrev Labeled := Option String × Quantified

/-- The variants of an element. -/
def elementVariants (pluck labeled : Reader Labeled) (condition : Reader Condition) :
    List (Variant Element) :=
  [.payload "pluck" ((fun l => .item true l.1 l.2) <$> pluck),
    .payload "labeled" ((fun l => .item false l.1 l.2) <$> labeled),
    .payload "assertion" (Element.check false <$> condition),
    .payload "neg_assertion" (Element.check true <$> condition)]

mutual

/-- A choice. -/
def choice : Nat → Reader (List Alternative)
  | 0 => noRoomRecord "struct Choice"
  | depth + 1 => record1 "struct Choice" (required "alternatives" (alternatives depth))

/-- The alternatives of a choice. -/
def alternatives : Nat → Reader (List Alternative)
  | 0 => noRoomList
  | depth + 1 => listOf (alternative depth)

/-- A row of elements. -/
def alternative : Nat → Reader Alternative
  | 0 => noRoomRecord "struct Sequence"
  | depth + 1 => do
    let (elements, action) ← record2 "struct Sequence" (required "elements" (elements depth))
      (maybe "action" (oneText "struct Action" "code" depth))
    pure ⟨elements, action⟩

/-- The elements of a row. -/
def elements : Nat → Reader (List Element)
  | 0 => noRoomList
  | depth + 1 => listOf (element depth)

/-- An element. -/
def element : Nat → Reader Element
  | 0 => noRoomVariant (elementVariants tooDeep tooDeep tooDeep)
  | depth + 1 =>
    variantOf (elementVariants (pluck depth) (labeled depth) (assertion depth))

/-- A plucked item. -/
def pluck : Nat → Reader Labeled
  | 0 => noRoomRecord "struct Pluck"
  | depth + 1 => record1 "struct Pluck" (required "labeled" (labeled depth))

/-- An item with a label. -/
def labeled : Nat → Reader Labeled
  | 0 => noRoomRecord "struct Labeled"
  | depth + 1 =>
    record2 "struct Labeled" (maybe "label" textValue) (required "annotated" (quantified depth))

/-- The condition of a check, in its record. -/
def assertion : Nat → Reader Condition
  | 0 => noRoomRecord "struct Assertion"
  | depth + 1 => record1 "struct Assertion" (required "target" (condition depth))

/-- The condition of a check. -/
def condition : Nat → Reader Condition
  | 0 => noRoomVariant (conditionVariants 0 tooDeep)
  | depth + 1 => variantOf (conditionVariants depth (quantified depth))

/-- An expression and its quantifier. -/
def quantified : Nat → Reader Quantified
  | 0 => noRoomRecord "struct Annotated"
  | depth + 1 => do
    let (expr, quantifier) ← record2 "struct Annotated" (required "expr" (expr depth))
      (withDefault "qty" .one (quantifier depth))
    pure ⟨expr, quantifier⟩

/-- A quantifier. -/
def quantifier : Nat → Reader Quantifier
  | 0 => noRoomVariant (quantifierVariants 0 tooDeep)
  | 1 => variantOf (quantifierVariants 0 tooDeep)
  | depth + 2 => variantOf (quantifierVariants (depth + 1) (expr depth))

/-- An expression. -/
def expr : Nat → Reader Expr
  | 0 => noRoomVariant (exprVariants 0 tooDeep)
  | depth + 1 => variantOf (exprVariants depth (choice depth))

end

/-- A rule. -/
def rule : Nat → Reader Rule
  | 0 => noRoomRecord "struct Rule"
  | depth + 1 => do
    let (id, start, alternatives) ← record3 "struct Rule" (required "id" textValue)
      (withDefault "start" false boolValue) (required "body" (choice depth))
    pure { id, start, alternatives }

/-- The rules of a grammar. -/
def rules : Nat → Reader (List Rule)
  | 0 => noRoomList
  | depth + 1 => listOf (rule depth)

/-- A grammar. -/
def grammar : Nat → Reader Grammar
  | 0 => noRoomRecord "struct Grammar"
  | depth + 1 => do
    let (rules, prologue, epilogue) ← record3 "struct Grammar" (required "rules" (rules depth))
      (maybe "prologue" textValue) (maybe "epilogue" textValue)
    pure { rules, prologue, epilogue }

/-- A declared type. -/
def actionType : Nat → Reader ActionType
  | 0 => noRoomRecord "struct ActionTypeEntry"
  | _ + 1 => do
    let (rule, alternative, returnType) ← record3 "struct ActionTypeEntry"
      (required "rule" textValue) (required "alternative" sizeValue)
      (required "return_type" textValue)
    pure ⟨rule, alternative, returnType⟩

/-- A table of declared types. -/
def actionTypes : Nat → Reader ActionTypes
  | 0 => noRoomList
  | depth + 1 => ActionTypes.ofList <$> listOf (actionType depth)

/-- A document. -/
def document : Nat → Reader Document
  | 0 => noRoomRecord "struct CstDocument"
  | depth + 1 => do
    let (grammar, actionTypes) ← record2 "struct CstDocument" (required "grammar" (grammar depth))
      (withDefault "action_types" {} (actionTypes depth))
    pure ⟨grammar, actionTypes⟩

end Grammar.Read

/-- The document that a text stands for. -/
def Document.parse (text : String) : Except Json.ReadError Document :=
  Json.whole (Grammar.Read.document Json.depthLimit) text

end PegCompiler
