import Lox.Token

/-!
# Operators

The operators of expressions, and which kinds of token stand for them between two operands and in
front of one.
-/

set_option autoImplicit false

namespace Lox

inductive Op where
  | add | sub | mul | div | eq | ne | gt | ge | lt | le | neg | not | and | or
deriving DecidableEq, Repr

namespace Op

def all : List Op := [add, sub, mul, div, eq, ne, gt, ge, lt, le, neg, not, and, or]

theorem mem_all (op : Op) : op ∈ all := by cases op <;> decide

/-- The operator as source writes it. -/
def symbol : Op → String
  | add => "+" | sub => "-" | mul => "*" | div => "/" | eq => "==" | ne => "!=" | gt => ">"
  | ge => ">=" | lt => "<" | le => "<=" | neg => "-" | not => "!" | and => "and" | or => "or"

/-- The name of an operator in dumps. -/
def name : Op → String
  | add => "ADD" | sub => "SUB" | mul => "MUL" | div => "DIV" | eq => "EQ" | ne => "NE"
  | gt => "GT" | ge => "GE" | lt => "LT" | le => "LE" | neg => "NEG" | not => "NOT"
  | and => "AND" | or => "OR"

/-- The text that tells an operator from all others; the symbol of negation is taken. -/
def tag : Op → String
  | neg => "neg"
  | op => op.symbol

def dump (op : Op) : String := "<Op." ++ op.name ++ ": " ++ Text.quote op.tag ++ ">"

def ofName? (name : String) : Option Op := all.find? (·.name == name)

/-- The arithmetic, equality or comparison operator that a token of this kind stands for. -/
def ofBinary? : Kind → Option Op
  | .plus => some add | .minus => some sub | .star => some mul | .slash => some div
  | .equalEqual => some eq | .bangEqual => some ne
  | .greater => some gt | .greaterEqual => some ge | .less => some lt | .lessEqual => some le
  | _ => none

/-- The operator that a token of this kind stands for in front of an operand. -/
def ofUnary? : Kind → Option Op
  | .minus => some neg | .bang => some not
  | _ => none

/-- The operator that decides by its left operand whether the right one counts. -/
def ofLogical? : Kind → Option Op
  | .andWord => some and | .orWord => some or
  | _ => none

end Op

end Lox
