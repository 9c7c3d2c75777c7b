import Lox.Syntax.Node

/-!
# Well-formed trees

The trees that the grammar describes: expressions stand where expressions belong and statements
where statements belong, every operator stands among operands of its number, and no value stands
in the place of a node.
-/

set_option autoImplicit false

namespace Lox

namespace Op

/-- The operators that stand in front of an operand. -/
def isUnary : Op → Bool
  | neg | not => true
  | _ => false

/-- The operators that decide by their left operand whether the right one counts. -/
def isLogical : Op → Bool
  | and | or => true
  | _ => false

/-- The operators that stand between two operands and take both. -/
def isBinary (op : Op) : Bool := !op.isUnary && !op.isLogical

theorem isUnary_of_ofUnary? {kind : Kind} {op : Op} (h : ofUnary? kind = some op) :
    op.isUnary = true := by
  cases kind <;> cases h <;> rfl

end Op

namespace Node

def isExpr : Node → Bool
  | literal _ | var _ => true
  | unary op operand _ => op.isUnary && operand.isExpr
  | binary left op right _ => left.isExpr && op.isBinary && right.isExpr
  | logical left op right _ => left.isExpr && op.isLogical && right.isExpr
  | grouping e | assign _ e => e.isExpr
  | _ => false

mutual

def isStmt : Node → Bool
  | varDecl _ none => true
  | varDecl _ (some e) | exprStmt e _ | print e _ => e.isExpr
  | ifElse condition thenBranch elseBranch _ =>
    condition.isExpr && thenBranch.isStmt && isStmtOption elseBranch
  | whileLoop condition body _ => condition.isExpr && body.isStmt
  | block statements _ => areStmts statements
  | _ => false

def isStmtOption : Option Node → Bool
  | none => true
  | some node => node.isStmt

/-- Whether a program is well formed. -/
def areStmts : List Node → Bool
  | [] => true
  | node :: nodes => node.isStmt && areStmts nodes

end

end Node

end Lox
