/-!
  The shortest decimal text of a binary floating-point number. A finite number of
  double precision is a mantissa times a power of two; its shortest decimal has
  the fewest digits among those that round back to it, and is the nearest of
  them. All arithmetic is exact, on natural numbers.
-/

namespace PegCompiler.Decimal

/-- A finite number of double precision that is not negative: `mantissa` times
two to the `exponent`, with a mantissa of 53 bits unless the exponent is the
least one. -/
structure Double where
  mantissa : Nat
  exponent : Int
  deriving DecidableEq, Repr

/-- A quotient of natural numbers, rounded to the nearest, ties to even. -/
def roundDiv (num den : Nat) : Nat :=
  let q := num / den
  let r := num % den
  if 2 * r < den then q
  else if den < 2 * r then q + 1
  else if q % 2 == 0 then q else q + 1

/-- A quotient times a power of two, as a quotient. -/
def scaleTwo (num den : Nat) (e : Int) : Nat × Nat :=
  if 0 ≤ e then (num * Nat.pow 2 e.toNat, den) else (num, den * Nat.pow 2 (-e).toNat)

/-- The number of double precision nearest to a quotient, ties to even, or `none`
if it is out of range. -/
def nearest (num den : Nat) : Option Double :=
  if num == 0 || den == 0 then some ⟨0, -1074⟩
  else
    let guess : Int := (num.log2 : Int) - den.log2 - 52
    let fit (e : Int) : Nat × Nat := scaleTwo num den (-e)
    let (a, b) := fit guess
    let e := if a < b * Nat.pow 2 52 then guess - 1 else guess
    let e := if e < -1074 then -1074 else e
    let (a, b) := fit e
    let m := roundDiv a b
    let (m, e) := if m == Nat.pow 2 53 then (Nat.pow 2 52, e + 1) else (m, e)
    if e > 971 then none else some ⟨m, e⟩

/-- A value as a quotient. -/
def Double.ratio (d : Double) : Nat × Nat :=
  scaleTwo d.mantissa 1 d.exponent

/-- Digits and the power of ten of the last of them. -/
structure Digits where
  digits : List Char
  exponent : Int
  deriving DecidableEq, Repr

/-- The decimal exponent behind the first digit of a quotient that is not 0: the
least `p` with the quotient below ten to the `p`. -/
def magnitude (num den : Nat) : Int :=
  let below (p : Int) : Bool :=
    if 0 ≤ p then num < den * Nat.pow 10 p.toNat else num * Nat.pow 10 (-p).toNat < den
  let guess : Int := ((num.log2 : Int) - den.log2) * 1233 / 4096
  let start := guess - 2
  match (List.range 6).find? (fun (i : Nat) => below (start + (i : Int))) with
  | some i => start + (i : Int)
  | none => guess

/-- The points of the grid of `n` digits around a value that round back to it, the
nearer one first. -/
def gridPoint (d : Double) (p : Int) (n : Nat) : Option (Nat × Int) :=
  let (num, den) := d.ratio
  let unit : Int := p - n
  let (gn, gd) : Nat × Nat :=
    if 0 ≤ unit then (Nat.pow 10 unit.toNat, 1) else (1, Nat.pow 10 (-unit).toNat)
  let low := (num * gd) / (den * gn)
  let (halfUp, base) := scaleTwo (2 * d.mantissa + 1) 2 d.exponent
  let atPower := d.mantissa == Nat.pow 2 52 && d.exponent > -1074
  let (halfDown, baseDown) :=
    if atPower then scaleTwo (4 * d.mantissa - 1) 4 d.exponent
    else scaleTwo (2 * d.mantissa - 1) 2 d.exponent
  let even := d.mantissa % 2 == 0
  let inside (k : Nat) : Bool :=
    let above := if even then halfDown * gd ≤ k * gn * baseDown else halfDown * gd < k * gn * baseDown
    let below := if even then k * gn * base ≤ halfUp * gd else k * gn * base < halfUp * gd
    above && below
  let distance (k : Nat) : Nat :=
    let x := k * gn * den
    let y := num * gd
    if x < y then y - x else x - y
  match inside low, inside (low + 1) with
  | true, true =>
    if distance low < distance (low + 1) || (distance low == distance (low + 1) && low % 2 == 0)
    then some (low, unit) else some (low + 1, unit)
  | true, false => some (low, unit)
  | false, true => some (low + 1, unit)
  | false, false => none

/-- The shortest decimal of a number, without zeros at its end; 17 digits always
suffice. -/
def shortest (d : Double) : Digits :=
  if d.mantissa == 0 then ⟨['0'], 0⟩
  else
    let (num, den) := d.ratio
    let p := magnitude num den
    match (List.range 17).findSome? (fun i => gridPoint d p (i + 1)) with
    | none => ⟨['0'], 0⟩
    | some (k, unit) =>
      let all := (Nat.toDigits 10 k).reverse
      let kept := all.dropWhile (· == '0')
      ⟨kept.reverse, unit + (all.length - kept.length)⟩

/-- How digits become text. -/
structure Notation where
  /-- The least and the greatest number of digits in front of the point with
  which a number is written positionally; a number with none starts by zeros. -/
  leastWhole : Int
  mostWhole : Int

/-- The texts of numbers in messages about documents: positional from 0.00001 to
10^16. -/
def documentNotation : Notation := ⟨-4, 16⟩

/-- The texts of numbers in messages about configurations: always positional. -/
def configNotation : Notation := ⟨-400, 400⟩

/-- A number as text, with at least one digit behind the point unless there is an
exponent, which has a sign. -/
def Digits.text (style : Notation) (d : Digits) : String :=
  let n := d.digits.length
  let whole : Int := n + d.exponent
  let zeros (k : Int) : List Char := List.replicate k.toNat '0'
  let chars : List Char :=
    if d.digits == ['0'] then ['0', '.', '0']
    else if 0 ≤ d.exponent && whole ≤ style.mostWhole then
      d.digits ++ zeros d.exponent ++ ['.', '0']
    else if 0 < whole && whole ≤ style.mostWhole then
      d.digits.take whole.toNat ++ ['.'] ++ d.digits.drop whole.toNat
    else if style.leastWhole ≤ whole && whole ≤ 0 then
      ['0', '.'] ++ zeros (-whole) ++ d.digits
    else
      let tail := d.digits.drop 1
      d.digits.take 1 ++ (if tail.isEmpty then [] else '.' :: tail) ++
        (if whole < 1 then ['e'] else ['e', '+']) ++ (toString (whole - 1)).toList
  String.ofList chars

end PegCompiler.Decimal
