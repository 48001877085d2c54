import PegCompiler.Grammar.Syntax
/-!
  What it means to match a part of the input, and what a parser needs from
  outside for it. Places in the input count its characters from 0. The code of
  actions, predicates and bounds belongs to the target language, so its meaning
  is a parameter: a `Host`.

  A run has no outcome (`none`) when it never ends, or when it asks for a rule,
  a function or a captured value that is not there.
-/

namespace PegCompiler.Semantics

/-- What the target language does with values of type `V`. -/
structure Host (V : Type) where
  /-- A piece of text as a value. -/
  ofText : List Char → V
  /-- The text of a value. -/
  toText : V → List Char
  toText_ofText : ∀ text, toText (ofText text) = text
  /-- The result that a function with a body of code has for its arguments, each
  with the name of its parameter. -/
  run : (resultType code : String) → List (String × V) → V
  /-- Whether a value stands for a condition that holds. -/
  holds : V → Bool
  /-- The value of a bound in code, for a cursor that counts from 1. -/
  bound : (code : String) → (cursor : Int) → Int

/-- What becomes of a match at a place of the input. -/
inductive Outcome (V : Type) where
  | failed
  | matched (stop : Nat) (value : V)
  deriving DecidableEq, Repr

/-- Where a match ends, if it does not fail. -/
def Outcome.stop? {V : Type} : Outcome V → Option Nat
  | .failed => none
  | .matched stop _ => some stop

/-- The input between two places. -/
def slice (input : List Char) (start stop : Nat) : List Char :=
  (input.take stop).drop start

/-! ## Terminals: where they stop, if they match -/

/-- A given text. -/
def stopText (input text : List Char) (pos : Nat) : Option Nat :=
  if text.isPrefixOf (input.drop pos) then some (pos + text.length) else none

/-- One character of a kind. -/
def stopChar (input : List Char) (kind : Char → Bool) (pos : Nat) : Option Nat :=
  match input[pos]? with
  | some c => if kind c then some (pos + 1) else none
  | none => none

/-- The end of the input. -/
def stopEnd (input : List Char) (pos : Nat) : Option Nat :=
  if input.length ≤ pos then some pos else none

section
variable {V : Type} (H : Host V) (input : List Char)

/-- The outcome of a match that has the text it consumed for its value. -/
def consumed (start : Nat) : Option Nat → Outcome V
  | none => .failed
  | some stop => .matched stop (H.ofText (slice input start stop))

/-- The outcome of a check, which consumes nothing. -/
def checked (pos : Nat) (ok : Bool) : Outcome V :=
  consumed H input pos (if ok then some pos else none)

/-! ## Repetition -/

/-- One turn of a repetition: something in between unless the turn is the first, and
then the match itself. -/
def turn (between : Nat → Option (Option Nat)) (body : Nat → Option (Outcome V)) (first : Bool)
    (pos : Nat) : Option (Option Nat) := do
  match ← (if first then some (some pos) else between pos) with
  | none => some none
  | some pos => (body pos).map Outcome.stop?

/-- Makes turns until one fails, or as many as are `left`, and gives their number
and the place where the last one stopped. When there is no upper bound, a turn that
consumes nothing is the last. -/
def turns (bounded : Bool) (one : Bool → Nat → Option (Option Nat)) :
    (left count pos : Nat) → Option (Nat × Nat)
  | 0, count, pos => some (count, pos)
  | left + 1, count, pos => do
    match ← one (count == 0) pos with
    | none => some (count, pos)
    | some stop =>
      if !bounded && stop == pos then some (count + 1, stop)
      else turns bounded one left (count + 1) stop

/-- The turns that a repetition can make: all but the last of an unbounded one
consume a character. -/
def turnLimit (pos : Nat) : Option Int → Nat
  | some max => max.toNat
  | none => input.length - pos + 1

/-- A repetition between two bounds, with something in between each two turns. -/
def repetition (min : Int) (max : Option Int) (between : Nat → Option (Option Nat))
    (body : Nat → Option (Outcome V)) (pos : Nat) : Option (Outcome V) := do
  let (count, stop) ← turns max.isSome (turn between body) (turnLimit input pos max) 0 pos
  some (consumed H input pos (if (count : Int) < min then none else some stop))

/-- Nothing in between. -/
def nothing (pos : Nat) : Option (Option Nat) :=
  some (some pos)

end

end PegCompiler.Semantics
