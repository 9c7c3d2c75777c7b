/-!
# Doubles

Numbers are IEEE doubles. A finite one stands for `± mantissa · 2 ^ exponent`, read off its bits,
and everything written about it is computed from these two in exact arithmetic.
-/

set_option autoImplicit false

namespace Lox.Number

/-- What a double stands for. -/
inductive Double where
  | nan
  | infinite (negative : Bool)
  /-- The number `± mantissa · 2 ^ exponent`. -/
  | finite (negative : Bool) (mantissa : Nat) (exponent : Int)

/-- The exponent of the smallest positive doubles. -/
def leastExponent : Int := -1074

/-- The least mantissa of a double with a hidden bit. -/
def hiddenBit : Nat := Nat.pow 2 52

def Double.ofFloat (x : Float) : Double :=
  let bits := x.toBits.toNat
  let negative := bits / Nat.pow 2 63 == 1
  let biased : Nat := bits / hiddenBit % 2048
  let fraction := bits % hiddenBit
  if biased = 2047 then if fraction = 0 then .infinite negative else .nan
  else if biased = 0 then .finite negative fraction leastExponent
  else .finite negative (hiddenBit + fraction) (leastExponent + (biased : Int) - 1)

/-- The integer `mantissa · 2 ^ exponent`, if it is one. -/
def integral? (mantissa : Nat) (exponent : Int) : Option Nat :=
  if 0 ≤ exponent then some (mantissa * Nat.pow 2 exponent.toNat)
  else
    let unit := Nat.pow 2 exponent.natAbs
    if mantissa % unit = 0 then some (mantissa / unit) else none

/-- The double nearest to `digits · 10 ^ exponent`, ties to even. -/
def ofDecimal (digits : Nat) (exponent : Int) : Float :=
  Float.ofScientific digits (exponent < 0) exponent.natAbs

end Lox.Number
