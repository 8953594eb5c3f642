/-!
Numbers as JSON texts give them. They keep the digits that tell an integer from a fraction. Two
tests tell whether a number is within double precision: one rounds the number itself, the other
rounds it in steps, as is done with numbers that are held for later.
-/

namespace Concord

/-- A number: the digits of `significand`, of which the last `places` stand after the point, times
ten to the `exponent`, negated if `negative`. It is `integral` if it is written with neither a point
nor an exponent. -/
structure Json.Number where
  negative : Bool := false
  significand : Nat
  places : Nat := 0
  exponent : Int := 0
  integral : Bool := true
deriving DecidableEq, Repr

namespace Json.Number

/-- The number of an integer. -/
def ofInt (i : Int) : Number :=
  { negative := i < 0, significand := i.natAbs }

/-- The integer that a number is. Only numbers of the signed or the unsigned sixty-four bit range
count as integers, and negative zero does not. -/
def toInt? (n : Number) : Option Int :=
  if !n.integral || (n.negative && n.significand = 0) then none
  else
    let i : Int := if n.negative then -n.significand else n.significand
    if Int64.minValue.toInt ≤ i ∧ i < UInt64.size then some i else none

/-- The power of ten that the significand is multiplied by. -/
def scale (n : Number) : Int :=
  n.exponent - n.places

/-- The least natural number that rounds to infinity: half a step above the largest number of
double precision. -/
def overflow : Nat :=
  Nat.pow 2 1024 - Nat.pow 2 970

/-- Whether the number rounds to a finite number of double precision. -/
def isFinite (n : Number) : Bool :=
  let size : Int := (Nat.toDigits 10 n.significand).length + n.scale
  if n.significand = 0 || size < 300 then true
  else if size > 400 then false
  else n.significand * Nat.pow 10 n.scale.toNat < overflow * Nat.pow 10 (-n.scale).toNat

/-- The leading digits of a natural number, as many as fit sixty-four bits, and how many digits
follow them. -/
def leadingDigits (n : Nat) : Nat × Nat :=
  if n < UInt64.size then (n, 0)
  else
    let (kept, lost) := leadingDigits (n / 10)
    (kept, lost + 1)
termination_by n
decreasing_by
  have size : 0 < UInt64.size := by decide
  omega

/-- The nearest natural number with fifty-three significant bits; a tie goes to the even one. -/
def nearest (n : Nat) : Nat :=
  let unit := Nat.pow 2 (n.log2 - 52)
  let quotient := n / unit
  let rest := n % unit
  if unit < 2 * rest || (2 * rest = unit && quotient % 2 = 1) then (quotient + 1) * unit
  else quotient * unit

/-- The power of ten above which no step of rounding is taken. -/
def largestScale : Nat :=
  308

/-- Whether the number is finite when it is rounded in steps. Of the digits before the point, and
then of those after it, as many are kept as fit sixty-four bits; they are rounded, and their
product with the rounded power of ten is rounded again. -/
def isHoldable (n : Number) : Bool :=
  let point := Nat.pow 10 n.places
  let (whole, lostWhole) := leadingDigits (n.significand / point)
  let (kept, lost) := leadingDigits (whole * point + n.significand % point)
  let scale := n.scale + lostWhole + lost
  kept = 0 || scale < 0 ||
    (scale ≤ largestScale && nearest kept * nearest (Nat.pow 10 scale.toNat) < overflow)

end Json.Number

end Concord
