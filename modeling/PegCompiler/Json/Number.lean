import PegCompiler.Decimal.Shortest
/-!
  Numbers as they are written in documents, and their values. A number without a
  fraction and an exponent is an integer of 64 bits if it fits one; all others are
  of double precision. Their digits are gathered in 64 bits, digits beyond that
  are dropped, and the power of ten is applied in steps that each round.
-/

namespace PegCompiler.Json

open Decimal (Double)

/-- A number as it is written. -/
structure Number where
  negative : Bool := false
  /-- The digits in front of the point. -/
  whole : List Char
  /-- The digits behind the point. -/
  fraction : List Char := []
  /-- The sign and the digits of the exponent. -/
  exponent : Option (Bool × List Char) := none
  deriving DecidableEq, Repr

/-- A natural number as it is written. -/
def Number.ofNat (n : Nat) : Number :=
  { whole := Nat.toDigits 10 n }

/-- A number as text. -/
def Number.text (n : Number) : List Char :=
  (if n.negative then ['-'] else []) ++ n.whole ++
    (if n.fraction.isEmpty then [] else '.' :: n.fraction) ++
    (match n.exponent with
      | none => []
      | some (negative, digits) => 'e' :: (if negative then '-' :: digits else digits))

/-- What a number means. -/
inductive NumberValue where
  | unsigned (n : Nat)
  /-- The integer `-n`. -/
  | negative (n : Nat)
  | float (negative : Bool) (value : Double)
  | outOfRange
  deriving DecidableEq, Repr

/-- The value of digits in the decimal system. -/
def digitsValue (digits : List Char) : Nat :=
  digits.foldl (fun n d => 10 * n + (d.toNat - '0'.toNat)) 0

/-- The greatest significand. -/
def maxSignificand : Nat := UInt64.size - 1

/-- The significand and the exponent behind further digits in front of the point:
from the first digit that does not fit on, digits only count. -/
def gatherWhole : Nat → Int → Bool → List Char → Nat × Int
  | s, e, _, [] => (s, e)
  | s, e, full, d :: rest =>
    let next := 10 * s + (d.toNat - '0'.toNat)
    if full || next > maxSignificand then gatherWhole s (e + 1) true rest
    else gatherWhole next e false rest

/-- The significand and the exponent behind further digits behind the point: from
the first digit that does not fit on, digits are dropped. -/
def gatherFraction : Nat → Int → List Char → Nat × Int
  | s, e, [] => (s, e)
  | s, e, d :: rest =>
    let next := 10 * s + (d.toNat - '0'.toNat)
    if next > maxSignificand then (s, e) else gatherFraction next (e - 1) rest

/-- The number nearest to a product. -/
def mulRounded (a b : Double) : Option Double :=
  let (n, d) := a.ratio
  let (m, c) := b.ratio
  Decimal.nearest (n * m) (d * c)

/-- The number nearest to a quotient. -/
def divRounded (a b : Double) : Option Double :=
  let (n, d) := a.ratio
  let (m, c) := b.ratio
  Decimal.nearest (n * c) (d * m)

/-- A power of ten in double precision. -/
def powerOfTen (k : Nat) : Double :=
  (Decimal.nearest (Nat.pow 10 k) 1).getD ⟨0, 0⟩

/-- A value times a power of ten, which is applied in steps of at most 308. Three
steps down turn every value into 0. -/
def applyExponent : Nat → Double → Int → Option Double
  | 0, d, _ => some d
  | steps + 1, d, e =>
    if d.mantissa == 0 then some d
    else if 308 < e then none
    else if 0 ≤ e then mulRounded d (powerOfTen e.toNat)
    else if -308 ≤ e then divRounded d (powerOfTen (-e).toNat)
    else match divRounded d (powerOfTen 308) with
      | none => none
      | some d => applyExponent steps d (e + 308)

/-- The value of a number. -/
def Number.value (n : Number) : NumberValue :=
  let (s, e) := gatherWhole 0 0 false n.whole
  if n.fraction.isEmpty && n.exponent.isNone && e == 0 then
    if !n.negative then .unsigned s
    else if s == 0 || s > Nat.pow 2 63 then
      .float true ((Decimal.nearest s 1).getD ⟨0, 0⟩)
    else .negative s
  else
    let (s, e) := gatherFraction s e n.fraction
    let power : Int := match n.exponent with
      | none => 0
      | some (negative, digits) =>
        if negative then -(digitsValue digits : Int) else digitsValue digits
    match applyExponent 8 ((Decimal.nearest s 1).getD ⟨0, 0⟩) (e + power) with
    | some d => .float n.negative d
    | none => .outOfRange

end PegCompiler.Json
