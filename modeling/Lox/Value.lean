import Lox.Number.Numeral
import Lox.Text.Quoted

/-!
# Values

The values a program computes with, their truth, their equality, and the three ways in which they
are written: as `print` shows them, as a literal in rendered source, and as a dump shows them.
-/

set_option autoImplicit false

namespace Lox

/-- A function that the host provides. Two natives are the same only if they have one `id`. -/
structure Native where
  name : String
  arity : Int
  id : Nat
deriving DecidableEq

def Native.text (f : Native) : String := "<native fn " ++ f.name ++ ">"

/-- A call with the wrong number of arguments. -/
structure ArityMismatch where
  native : Native
  given : Nat

def ArityMismatch.message (e : ArityMismatch) : String :=
  e.native.name ++ "() expects " ++ toString e.native.arity ++ " arguments but got "
    ++ toString e.given

inductive Value where
  | nil
  | bool (b : Bool)
  | num (x : Float)
  | str (s : String)
  | native (f : Native)

/-- Calls a native whose work is `body`. -/
def Native.call (f : Native) (body : List Value → Value) (args : List Value) :
    Except ArityMismatch Value :=
  if (args.length : Int) = f.arity then .ok (body args) else .error ⟨f, args.length⟩

namespace Value

/-- Only `nil` and `false` are not true. -/
def truthy : Value → Bool
  | nil => false
  | bool b => b
  | _ => true

def isNumber : Value → Bool
  | num _ => true
  | _ => false

/-- Equality of values: never between different kinds, and of numbers as doubles compare. -/
def equal : Value → Value → Bool
  | nil, nil => true
  | bool a, bool b => a == b
  | num x, num y => x == y
  | str s, str t => s == t
  | native f, native g => f.id == g.id
  | _, _ => false

/-- A boolean as the number one or zero. -/
def ofBit (b : Bool) : Float := if b then 1.0 else 0.0

/-- Equality of values in which a boolean is the number one or zero. -/
def looselyEqual : Value → Value → Bool
  | bool a, num y => ofBit a == y
  | num x, bool b => x == ofBit b
  | a, b => a.equal b

/-- The value as `print` shows it. -/
def text : Value → String
  | nil => "nil"
  | bool b => if b then "true" else "false"
  | num x => Number.text x
  | str s => s
  | native f => f.text

/-- The value as a literal in rendered source: a string stands in double quotes. -/
def literal : Value → String
  | str s => "\"" ++ s ++ "\""
  | v => v.text

/-- The value as a dump shows it. -/
def dump : Value → String
  | nil => "None"
  | bool b => if b then "True" else "False"
  | num x => Number.numeral x
  | str s => Text.quote s
  | native f => f.text

end Value

end Lox
