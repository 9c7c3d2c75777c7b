import Lox.Text.Digit
import Lox.Number.Shortest

/-!
# Numerals

How a number is written and read. A numeral is the shortest decimal that reads back, with a point
and at least one digit after it while its exponent is moderate, and in scientific form otherwise.
The plain text of a number is its numeral, except that an integral number is written as an integer
with all its digits.
-/

set_option autoImplicit false

namespace Lox.Number

open Lox.Text (digitsValue isDigit)

/-! ## Writing -/

/-- Whether a number whose first digit has this exponent is written with a point in place. -/
def positional (exponent : Int) : Bool := -4 ≤ exponent && exponent < 16

def zeroes (n : Nat) : String := String.ofList (List.replicate n '0')

/-- The exponent of the scientific form: a sign and at least two digits. -/
def exponentText (e : Int) : String :=
  let digits := toString e.natAbs
  (if e < 0 then "-" else "+") ++ (if digits.length < 2 then "0" ++ digits else digits)

/-- The numeral of a positive decimal. -/
def Decimal.text (d : Decimal) : String :=
  let digits := Nat.toDigits 10 d.digits
  let count := digits.length
  let first : Int := d.exponent + count - 1
  if positional first then
    if first < 0 then "0." ++ zeroes (first.natAbs - 1) ++ String.ofList digits
    else
      let places := first.toNat + 1
      if count ≤ places then String.ofList digits ++ zeroes (places - count) ++ ".0"
      else String.ofList (digits.take places) ++ "." ++ String.ofList (digits.drop places)
  else
    let mark := "e" ++ exponentText first
    match digits with
    | [] => mark
    | [one] => one.toString ++ mark
    | one :: more => one.toString ++ "." ++ String.ofList more ++ mark

def signText (negative : Bool) : String := if negative then "-" else ""

/-- The numeral of a number: the fewest digits that read back. -/
def numeral (x : Float) : String :=
  match Double.ofFloat x with
  | .nan => "nan"
  | .infinite negative => signText negative ++ "inf"
  | .finite negative mantissa exponent =>
    signText negative ++ (if mantissa = 0 then "0.0" else (shortest mantissa exponent).text)

/-- The text of a number: an integer with all its digits if it is one, its numeral otherwise. Zero
has no sign. -/
def text (x : Float) : String :=
  match Double.ofFloat x with
  | .finite negative mantissa exponent =>
    match integral? mantissa exponent with
    | some n => signText (negative && n != 0) ++ toString n
    | none => numeral x
  | _ => numeral x

/-! ## Reading -/

/-- The number of a literal: digits of any script with at most one point among them. -/
def ofLiteral? (literal : List Char) : Option Float :=
  if literal.count '.' ≤ 1 then
    let whole := literal.takeWhile (· != '.')
    let fraction := (literal.dropWhile (· != '.')).drop 1
    some (ofDecimal (digitsValue (whole ++ fraction)) (-(fraction.length : Int)))
  else none

/-- An optional sign and what follows it. -/
def splitSign : List Char → Bool × List Char
  | '-' :: rest => (true, rest)
  | '+' :: rest => (false, rest)
  | rest => (false, rest)

def integer? (digits : List Char) : Option Int :=
  let (negative, digits) := splitSign digits
  if digits.isEmpty || !digits.all isDigit then none
  else some (if negative then -(digitsValue digits : Int) else digitsValue digits)

/-- The decimal that digits, a point and an exponent write. -/
def decimal? (body : List Char) : Option Decimal :=
  let mantissa := body.takeWhile fun c => c != 'e' && c != 'E'
  let exponent := (body.drop mantissa.length).drop 1
  let whole := mantissa.takeWhile (· != '.')
  let fraction := (mantissa.dropWhile (· != '.')).drop 1
  let digits := whole ++ fraction
  if digits.isEmpty || !digits.all isDigit then none
  else
    let shift? := if body.length = mantissa.length then some 0 else integer? exponent
    shift?.map fun shift => ⟨digitsValue digits, shift - fraction.length⟩

/-- Reads a numeral in any of its forms. -/
def ofNumeral? (numeral : String) : Option Float :=
  let (negative, body) := splitSign numeral.toList
  let size? : Option Float :=
    if body = "inf".toList then some (1.0 / 0.0)
    else if body = "nan".toList then some (0.0 / 0.0)
    else (decimal? body).map fun d => ofDecimal d.digits d.exponent
  size?.map fun size => if negative then -size else size

end Lox.Number
