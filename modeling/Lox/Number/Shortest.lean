import Lox.Number.Double

/-!
# The shortest decimal of a double

Many decimals read back as the same double: those in the interval of reals that round to it. The
shortest decimal is the one of fewest digits in that interval; of two with as many digits the
nearer to the double, and of two as near the one whose last digit is even.

The search goes through the decimal grids from coarse to fine. On each grid only the two
neighbours of the double can be its best decimal, and seventeen digits always suffice.
-/

set_option autoImplicit false

namespace Lox.Number

/-- The decimal `digits · 10 ^ exponent`. -/
structure Decimal where
  digits : Nat
  exponent : Int

/-- A positive double `mid · 2 ^ exponent` between the ends `low` and `high`, in the same unit, of
the interval of reals that round to it. -/
structure Interval where
  low : Nat
  mid : Nat
  high : Nat
  exponent : Int
  /-- Whether the ends round to the double too. -/
  closed : Bool

/-- The interval of `mantissa · 2 ^ exponent`. Its lower half is half as long where the doubles
below are twice as dense. A tie goes to the even mantissa, which makes the interval closed or
open. -/
def Interval.of (mantissa : Nat) (exponent : Int) : Interval where
  low := 4 * mantissa - (if mantissa = hiddenBit ∧ leastExponent < exponent then 1 else 2)
  mid := 4 * mantissa
  high := 4 * mantissa + 2
  exponent := exponent - 2
  closed := mantissa % 2 == 0

namespace Interval

/-- How many steps of the grid `10 ^ grid` make `units` units of the interval, as a fraction. -/
def steps (i : Interval) (grid : Int) (units : Nat) : Nat × Nat :=
  (units * Nat.pow 2 i.exponent.toNat * Nat.pow 10 (-grid).toNat,
   Nat.pow 2 (-i.exponent).toNat * Nat.pow 10 grid.toNat)

/-- Whether the decimal `digits · 10 ^ grid` lies in the interval. -/
def holds (i : Interval) (grid : Int) (digits : Nat) : Bool :=
  let (low, den) := i.steps grid i.low
  let (high, _) := i.steps grid i.high
  if i.closed then low ≤ digits * den && digits * den ≤ high
  else low < digits * den && digits * den < high

/-- The neighbour of the double on the grid `10 ^ grid` that lies in the interval: the nearer of
two, and the even one of two as near. -/
def nearest? (i : Interval) (grid : Int) : Option Nat :=
  let (num, den) := i.steps grid i.mid
  let below := num / den
  let above := below + 1
  match i.holds grid below, i.holds grid above with
  | false, false => none
  | true, false => some below
  | false, true => some above
  | true, true =>
    let twice := 2 * num
    let middle := (below + above) * den
    if twice < middle then some below
    else if middle < twice then some above
    else some (if below % 2 = 0 then below else above)

end Interval

/-- The number of decimal digits of `n`. -/
def digitCount (n : Nat) : Nat := (Nat.toDigits 10 n).length

/-- The exponent of the first decimal digit of the positive fraction `num / den`. -/
def leadingExponent (num den : Nat) : Int :=
  let guess : Int := (digitCount num : Int) - digitCount den
  if num * Nat.pow 10 (-guess).toNat < den * Nat.pow 10 guess.toNat then guess - 1 else guess

/-- The decimal without the zeros at the end of its digits, up to `places` of them. -/
def Decimal.dropZeros : Nat → Decimal → Decimal
  | 0, d => d
  | places + 1, d =>
    if d.digits % 10 = 0 then dropZeros places ⟨d.digits / 10, d.exponent + 1⟩ else d

/-- The most digits that the shortest decimal of a double can have. -/
def mostDigits : Nat := 17

/-- The shortest decimal of `mantissa · 2 ^ exponent`, for a positive mantissa. -/
def shortest (mantissa : Nat) (exponent : Int) : Decimal :=
  let i := Interval.of mantissa exponent
  let (num, den) := i.steps 0 i.mid
  let first := leadingExponent num den
  let found := (List.range mostDigits).findSome? fun (n : Nat) =>
    let grid := first - n
    (i.nearest? grid).map fun digits => (⟨digits, grid⟩ : Decimal)
  Decimal.dropZeros mostDigits (found.getD ⟨mantissa, exponent⟩)

end Lox.Number
