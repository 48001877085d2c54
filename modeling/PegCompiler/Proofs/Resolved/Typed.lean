import PegCompiler.Proofs.Lists
import PegCompiler.Resolved.Names
import PegCompiler.Resolved.Syntax
/-
  Well-typed parsers. A call names one rule and has its type; a captured element is
  kept with the type of what it gives; the value of a row and the arguments of a
  predicate come from captures of the row itself, those of a predicate from earlier
  ones; and a call of an extracted function agrees with the function in number and
  types of its arguments and in the type of its result.
-/

namespace PegCompiler

namespace Resolved

/-- A variable is among captures, with a type. -/
def Holds (captures : List Capture) (var : String) (type : ValueType) : Prop :=
  ∃ c ∈ captures, c.var = var ∧ c.type = type

theorem Holds.mono {captures more : List Capture} {var : String} {type : ValueType}
    (h : Holds captures var type) (hsub : captures ⊆ more) : Holds more var type := by
  obtain ⟨c, hc, hvar, htype⟩ := h
  exact ⟨c, hsub hc, hvar, htype⟩

/-- What a captured matcher gives its capture: a call and a group their value, anything
else the text it consumed. Only a call gives a value that may be no text. -/
def Matcher.Gives (capture : Capture) : Matcher → Prop
  | .call c => capture.source = .value ∧ capture.type = c.resultType
  | .choice ⟨alternatives, result⟩ =>
    capture.source = .value ∧ capture.type = .text ∧ result.isSome ∧
      ∀ a ∈ alternatives, a.resultType = .text
  | _ => capture.source = .text ∧ capture.type = .text

section
variable (p : Parser)

/-- A call names one rule of the parser, by its id and by its function, and has its
type. -/
def RuleCall.Typed (call : RuleCall) : Prop :=
  ∃ r, OnlyOne p.rules (fun r => r.id == call.rule) r ∧
    OnlyOne p.rules (fun r => r.function == call.function) r ∧ r.resultType = call.resultType

/-- A call names one extracted function, has its type, and its arguments are captures
of the types of the parameters. -/
def ActionCall.Typed (kind : ActionKind) (captures : List Capture) (type : ValueType)
    (call : ActionCall) : Prop :=
  ∃ f, OnlyOne p.actions (fun f => f.function == call.function) f ∧ f.kind = kind ∧
    f.resultType = type ∧
    List.Forall₂ (fun arg param => Holds captures arg param.type) call.args f.params

/-- The value of a row is made of its captures and has the type of the row. -/
def AltResult.Typed (captures : List Capture) (type : ValueType) : AltResult → Prop
  | .consumed => type = .text
  | .capture var => Holds captures var type
  | .concat vars => type = .text ∧ 2 ≤ vars.length ∧ ∀ var ∈ vars, Holds captures var .text
  | .action call => call.Typed p .action captures type

mutual

/-- A matcher is well typed behind the captures of its row. -/
def Matcher.Typed (earlier : List Capture) : Matcher → Prop
  | .literal _ => True
  | .class tests => tests ≠ []
  | .anyChar => True
  | .endOfInput => True
  | .call call => call.Typed p
  | .choice choice => choice.Typed
  | .repeat body _ _ separator => body.Typed earlier ∧ separatorTyped earlier separator
  | .lookahead _ body => body.Typed earlier
  | .predicate _ call => call.Typed p .predicate earlier (.declared "logical")

/-- A separator is well typed, if there is one. -/
def separatorTyped (earlier : List Capture) : Option Matcher → Prop
  | none => True
  | some m => m.Typed earlier

/-- A group is well typed; its variable is named by the place of the group. -/
def Choice.Typed : Choice → Prop
  | ⟨alternatives, result⟩ =>
    alternativesTyped alternatives ∧ ∀ var, result = some var → ∃ path, var = groupVar path

/-- Alternatives are well typed, each by itself. -/
def alternativesTyped : List Alternative → Prop
  | [] => True
  | a :: rest => a.Typed ∧ alternativesTyped rest

/-- A row is well typed: its captures are variables of their own, and its value is made
of them. -/
def Alternative.Typed : Alternative → Prop
  | ⟨elements, result, type⟩ =>
    elementsTyped [] elements ∧
      ((elements.filterMap (fun e => e.capture)).map (fun c => c.var)).Nodup ∧
      result.Typed p (elements.filterMap (fun e => e.capture)) type

/-- Elements are well typed, each behind the captures of those before it. -/
def elementsTyped (earlier : List Capture) : List Element → Prop
  | [] => True
  | ⟨matcher, capture⟩ :: rest =>
    matcher.Typed earlier ∧
      (∀ c, capture = some c → matcher.Gives c ∧ ∃ i q, c.var = captureVar i q) ∧
      elementsTyped (earlier ++ capture.toList) rest

end

/-- A rule is well typed: the values of its alternatives are of its own type. -/
structure Rule.Typed (r : Rule) : Prop where
  result : r.body.result = some resultVar
  rows : alternativesTyped p r.body.alternatives
  types : ∀ a ∈ r.body.alternatives, a.resultType.sameAs r.resultType = true

/-- A parser is well typed. Functions are named for what they were made from. -/
structure Parser.Typed : Prop where
  start : ∃ r, OnlyOne p.rules (fun r => r.start) r
  ids : (p.rules.map (fun r => r.id)).Nodup
  functions : (p.rules.map (fun r => r.function) ++ p.actions.map (fun f => f.function)).Nodup
  ruleNames : ∀ r ∈ p.rules, ∃ base, r.function = ruleFunction base
  actionNames : ∀ f ∈ p.actions, ∃ base k,
    f.function = predicateFunction base k ∨ f.function = actionFunction base k
  rules : ∀ r ∈ p.rules, r.Typed p

end

theorem elementsTyped_cons {p : Parser} {earlier : List Capture} {e : Element}
    {rest : List Element} : elementsTyped p earlier (e :: rest) ↔
      e.matcher.Typed p earlier ∧
        (∀ c, e.capture = some c → e.matcher.Gives c ∧ ∃ i q, c.var = captureVar i q) ∧
        elementsTyped p (earlier ++ e.capture.toList) rest := by
  obtain ⟨matcher, capture⟩ := e
  rw [elementsTyped]

/-- A captured call and a captured group give their value, anything else its text. -/
theorem gives_cases {m : Matcher} {c : Capture} (h : m.Gives c) : c.source = .text ∨
    c.source = .value ∧ ((∃ call, m = .call call) ∨ ∃ as group, m = .choice ⟨as, some group⟩) := by
  cases m with
  | call call => exact .inr ⟨h.1, .inl ⟨call, rfl⟩⟩
  | choice choice =>
    obtain ⟨as, result⟩ := choice
    obtain ⟨hsource, -, hresult, -⟩ := h
    obtain ⟨group, rfl⟩ := Option.isSome_iff_exists.mp hresult
    exact .inr ⟨hsource, .inr ⟨as, group, rfl⟩⟩
  | literal _ => exact .inl h.1
  | «class» _ => exact .inl h.1
  | anyChar => exact .inl h.1
  | endOfInput => exact .inl h.1
  | «repeat» _ _ _ _ => exact .inl h.1
  | lookahead _ _ => exact .inl h.1
  | predicate _ _ => exact .inl h.1

theorem captures_cons (e : Element) (rest : List Element) :
    (e :: rest).filterMap (fun e => e.capture) =
      e.capture.toList ++ rest.filterMap (fun e => e.capture) := by
  rw [List.filterMap_cons]
  cases e.capture <;> rfl

end Resolved

end PegCompiler
