import Lox.Syntax.Node

/-!
# Equality of trees

Two trees are the same if they have the same shape, operators, lines and tokens, and equal values.
The values of literals compare by kind, those of tokens and of values in the place of a node
compare loosely.
-/

set_option autoImplicit false

namespace Lox

def Token.same (a b : Token) : Bool :=
  a.kind == b.kind && a.lexeme == b.lexeme && a.literal.looselyEqual b.literal && a.line == b.line

namespace Node

mutual

def same : Node → Node → Bool
  | literal v, literal w => v.equal w
  | var a, var b => a.same b
  | unary op a line, unary op' a' line' => op == op' && a.same a' && line == line'
  | binary a op b line, binary a' op' b' line' =>
    a.same a' && op == op' && b.same b' && line == line'
  | logical a op b line, logical a' op' b' line' =>
    a.same a' && op == op' && b.same b' && line == line'
  | grouping a, grouping a' => a.same a'
  | assign t a, assign t' a' => t.same t' && a.same a'
  | varDecl t a, varDecl t' a' => t.same t' && sameOption a a'
  | exprStmt a line, exprStmt a' line' => a.same a' && line == line'
  | print a line, print a' line' => a.same a' && line == line'
  | ifElse c a b line, ifElse c' a' b' line' =>
    c.same c' && a.same a' && sameOption b b' && line == line'
  | whileLoop c a line, whileLoop c' a' line' => c.same c' && a.same a' && line == line'
  | block as line, block as' line' => sameAll as as' && line == line'
  | bare v, bare w => v.looselyEqual w
  | _, _ => false

def sameOption : Option Node → Option Node → Bool
  | none, none => true
  | some a, some b => a.same b
  | _, _ => false

/-- Equality of programs, statement by statement. -/
def sameAll : List Node → List Node → Bool
  | [], [] => true
  | a :: as, b :: bs => a.same b && sameAll as bs
  | _, _ => false

end

end Node

end Lox
