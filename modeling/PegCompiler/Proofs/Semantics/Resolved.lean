import PegCompiler.Proofs.Lists
import PegCompiler.Proofs.Semantics.Host
import PegCompiler.Resolved.Syntax
/-!
  Matching with a resolved grammar: ordered choice, rows of elements whose
  captures are kept in variables, counted repetition, lookahead, calls of rules
  and of extracted functions. The start rule matches only up to the end of the
  input.

  Rules may call each other without end, so `Parser.call` takes the depth of
  calls that it may go down to; everything else recurses on the grammar.
-/

namespace PegCompiler.Resolved

open Semantics (Host Outcome slice stopText stopChar stopEnd consumed checked repetition nothing)

/-- What a matcher needs: the target language, the input, the extracted
functions, and what calls of rules come to. -/
structure Machine (V : Type) where
  host : Host V
  input : List Char
  actions : List Action
  call : (rule : String) → (pos : Nat) → Option (Outcome V)

/-- The values of captures, the latest first. -/
abbrev Captured (V : Type) := List (String × V)

/-- Whether a character passes a test. -/
def ClassTest.holds (c : Char) : ClassTest → Bool
  | .set chars => chars.toList.contains c
  | .range bottom top => bottom ≤ c && c ≤ top

/-- The value of a bound at a place. -/
def Bound.value {V : Type} (H : Host V) (pos : Nat) : Bound → Int
  | .count n => n
  | .code expr => H.bound expr (pos + 1)

section
variable {V : Type} (M : Machine V)

/-- The first extracted function of a name. -/
def Machine.action (name : String) : Option Action :=
  M.actions.find? (fun a => a.function == name)

/-- The value of a call of an extracted function. -/
def ActionCall.value (env : Captured V) (call : ActionCall) : Option V := do
  let action ← M.action call.function
  let args ← call.args.mapM (fun var => env.lookup var)
  if args.length = action.params.length then
    some (M.host.run action.resultType.spec action.code
      ((action.params.map (fun p => p.name)).zip args))
  else none

/-- The value of a row that has matched. -/
def AltResult.value (env : Captured V) (start stop : Nat) : AltResult → Option V
  | .consumed => some (M.host.ofText (slice M.input start stop))
  | .capture var => env.lookup var
  | .concat vars => do
    let values ← vars.mapM (fun var => env.lookup var)
    some (M.host.ofText (values.flatMap M.host.toText))
  | .action call => call.value M env

/-- The captures after an element matched. -/
def Capture.keep (env : Captured V) (start stop : Nat) (value : V) : Option Capture → Captured V
  | none => env
  | some ⟨var, _, .value⟩ => (var, value) :: env
  | some ⟨var, _, .text⟩ => (var, M.host.ofText (slice M.input start stop)) :: env

mutual

/-- Matches at a place. -/
def Matcher.run (env : Captured V) : Matcher → Nat → Option (Outcome V)
  | .literal value, pos => some (consumed M.host M.input pos (stopText M.input value.toList pos))
  | .class tests, pos =>
    some (consumed M.host M.input pos
      (stopChar M.input (fun c => tests.any (ClassTest.holds c)) pos))
  | .anyChar, pos => some (consumed M.host M.input pos (stopChar M.input (fun _ => true) pos))
  | .endOfInput, pos => some (consumed M.host M.input pos (stopEnd M.input pos))
  | .call call, pos => M.call call.rule pos
  | .choice choice, pos => choice.run pos
  | .repeat body min max separator, pos =>
    repetition M.host M.input (min.value M.host pos) (max.map (Bound.value M.host pos))
      (runSeparator env separator) (body.run env) pos
  | .lookahead negated body, pos =>
    (body.run env pos).map fun outcome =>
      checked M.host M.input pos (outcome.stop?.isSome != negated)
  | .predicate negated call, pos =>
    (call.value M env).map fun value => checked M.host M.input pos (M.host.holds value != negated)

/-- Matches what stands between two turns, if anything does. -/
def runSeparator (env : Captured V) : Option Matcher → Nat → Option (Option Nat)
  | none, pos => nothing pos
  | some m, pos => (m.run env pos).map Outcome.stop?

/-- Matches the first alternative that does. -/
def Choice.run : Choice → Nat → Option (Outcome V)
  | ⟨alternatives, _⟩, pos => runAlternatives alternatives pos

/-- Matches the first of some alternatives that does. -/
def runAlternatives : List Alternative → Nat → Option (Outcome V)
  | [], _ => some .failed
  | a :: rest, pos => do
    match ← a.run pos with
    | .failed => runAlternatives rest pos
    | .matched stop value => some (.matched stop value)

/-- Matches a row and gives its value. -/
def Alternative.run : Alternative → Nat → Option (Outcome V)
  | ⟨elements, result, _⟩, pos => do
    match ← runElements [] elements pos with
    | none => some .failed
    | some (stop, env) => (result.value M env pos stop).map (Outcome.matched stop)

/-- Matches elements one after another and keeps their captures. -/
def runElements (env : Captured V) : List Element → Nat → Option (Option (Nat × Captured V))
  | [], pos => some (some (pos, env))
  | ⟨matcher, capture⟩ :: rest, pos => do
    match ← matcher.run env pos with
    | .failed => some none
    | .matched stop value => runElements (Capture.keep M env pos stop value capture) rest stop

end

/-- Matches one element and keeps its capture. -/
def Element.run (env : Captured V) (e : Element) (pos : Nat) : Option (Option (Nat × Captured V)) :=
  (e.matcher.run M env pos).map fun
    | .failed => none
    | .matched stop value => some (stop, Capture.keep M env pos stop value e.capture)

theorem runElements_cons (env : Captured V) (e : Element) (rest : List Element) (pos : Nat) :
    runElements M env (e :: rest) pos = (e.run M env pos).bind fun
      | none => some none
      | some (stop, env) => runElements M env rest stop := by
  obtain ⟨matcher, capture⟩ := e
  rw [runElements, Element.run]
  rcases matcher.run M env pos with _ | _ | _ <;> rfl

theorem Matcher.run_choice (env : Captured V) (c : Choice) :
    (Matcher.choice c).run M env = c.run M := by
  funext pos
  rw [Matcher.run]

theorem Matcher.run_repeat (env : Captured V) (body : Matcher) (min : Bound) (max : Option Bound)
    (separator : Option Matcher) : (Matcher.repeat body min max separator).run M env = fun pos =>
      repetition M.host M.input (min.value M.host pos) (max.map (Bound.value M.host pos))
        (runSeparator M env separator) (body.run M env) pos := by
  funext pos
  rw [Matcher.run]

theorem Matcher.run_lookahead (env : Captured V) (negated : Bool) (body : Matcher) :
    (Matcher.lookahead negated body).run M env = fun pos =>
      (body.run M env pos).map fun outcome =>
        checked M.host M.input pos (outcome.stop?.isSome != negated) := by
  funext pos
  rw [Matcher.run]

theorem Choice.run_eq (c : Choice) : c.run M = runAlternatives M c.alternatives := by
  obtain ⟨alternatives, result⟩ := c
  funext pos
  rw [Choice.run]

/-- The outcome of a whole rule, for that of its body. -/
def Rule.finish (rule : Rule) : Outcome V → Outcome V
  | .failed => .failed
  | .matched stop value =>
    if rule.start && (stopEnd M.input stop).isNone then .failed else .matched stop value

end

/-- A call of an extracted function runs its code for the values of the arguments. -/
theorem value_of_call {V : Type} {M : Machine V} {env : Captured V} {f : Action}
    {args : List String} {vs : List V}
    (hf : OnlyOne M.actions (fun g => g.function == f.function) f)
    (hargs : List.Forall₂ (fun arg v => env.lookup arg = some v) args vs)
    (hlength : f.params.length = args.length) :
    ActionCall.value M env ⟨f.function, args⟩ =
      some (M.host.run f.resultType.spec f.code ((f.params.map (fun q => q.name)).zip vs)) := by
  unfold ActionCall.value Machine.action
  rw [hf.find?, mapM_eq_some hargs]
  have hlen : vs.length = f.params.length := by rw [hlength, hargs.length_eq]
  simp [hlen]

section
variable {V : Type} (p : Parser) (H : Host V) (input : List Char)

/-- Calls a rule at a place, with calls nested as deep as `depth`. -/
def Parser.call : (depth : Nat) → (rule : String) → (pos : Nat) → Option (Outcome V)
  | 0, _, _ => none
  | depth + 1, id, pos => do
    let M : Machine V := ⟨H, input, p.actions, Parser.call depth⟩
    let rule ← p.rule id
    (rule.body.run M pos).map (rule.finish M)

/-- The machine in which calls may nest as deep as `depth`. -/
def Parser.machine (depth : Nat) : Machine V :=
  ⟨H, input, p.actions, p.call H input depth⟩

/-- A rule matches at a place, up to `stop`, with a value. -/
def Parser.Matches (rule : String) (pos stop : Nat) (value : V) : Prop :=
  ∃ depth, p.call H input depth rule pos = some (.matched stop value)

/-- A rule fails at a place. -/
def Parser.Fails (rule : String) (pos : Nat) : Prop :=
  ∃ depth, p.call H input depth rule pos = some .failed

end

end PegCompiler.Resolved
