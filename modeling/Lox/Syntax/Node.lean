import Lox.Syntax.Op

/-!
# Syntax trees

One type holds expressions and statements, since a tree made by hand may hold either where the
other belongs, or a value where a node belongs. `Node.isExpr` and `Node.isStmt` tell the trees
that follow the grammar.
-/

set_option autoImplicit false

namespace Lox

inductive Node where
  | literal (value : Value)
  | var (name : Token)
  | unary (op : Op) (operand : Node) (line : Int)
  | binary (left : Node) (op : Op) (right : Node) (line : Int)
  | logical (left : Node) (op : Op) (right : Node) (line : Int)
  | grouping (inner : Node)
  | assign (target : Token) (value : Node)
  | varDecl (name : Token) (initial : Option Node)
  | exprStmt (expr : Node) (line : Int)
  | print (expr : Node) (line : Int)
  | ifElse (condition thenBranch : Node) (elseBranch : Option Node) (line : Int)
  | whileLoop (condition body : Node) (line : Int)
  | block (statements : List Node) (line : Int)
  /-- A value in the place of a node. -/
  | bare (value : Value)

namespace Node

/-- The line of a node: of its operator, of the name it is about, or of the first token of the
statement. A literal has none and counts as line zero. -/
def line : Node → Int
  | literal _ | bare _ => 0
  | var name | assign name _ | varDecl name _ => name.line
  | grouping inner => inner.line
  | unary _ _ line | binary _ _ _ line | logical _ _ _ line | exprStmt _ line | print _ line
  | ifElse _ _ _ line | whileLoop _ _ line | block _ line => line

/-! ## Dumps -/

/-- A sequence of texts in parentheses; one alone is followed by a comma. -/
def tuple : List String → String
  | [] => "()"
  | [one] => "(" ++ one ++ ",)"
  | many => "(" ++ ", ".intercalate many ++ ")"

mutual

/-- The tree with every field by name, as the messages about malformed trees show it. -/
def dump : Node → String
  | literal v => "Literal(value=" ++ v.dump ++ ")"
  | var name => "Variable(name=" ++ name.dump ++ ")"
  | unary op operand line =>
    "Unary(op=" ++ op.dump ++ ", operand=" ++ operand.dump ++ ", line=" ++ toString line ++ ")"
  | binary left op right line =>
    "Binary(left=" ++ left.dump ++ ", op=" ++ op.dump ++ ", right=" ++ right.dump
      ++ ", line=" ++ toString line ++ ")"
  | logical left op right line =>
    "Logical(left=" ++ left.dump ++ ", op=" ++ op.dump ++ ", right=" ++ right.dump
      ++ ", line=" ++ toString line ++ ")"
  | grouping inner => "Grouping(inner=" ++ inner.dump ++ ")"
  | assign target value => "Assignment(target=" ++ target.dump ++ ", value=" ++ value.dump ++ ")"
  | varDecl name initial =>
    "VarDecl(name=" ++ name.dump ++ ", initializer=" ++ dumpOption initial ++ ")"
  | exprStmt expr line => "ExprStmt(expr=" ++ expr.dump ++ ", line=" ++ toString line ++ ")"
  | print expr line => "PrintStmt(expr=" ++ expr.dump ++ ", line=" ++ toString line ++ ")"
  | ifElse condition thenBranch elseBranch line =>
    "IfStmt(condition=" ++ condition.dump ++ ", then_branch=" ++ thenBranch.dump
      ++ ", else_branch=" ++ dumpOption elseBranch ++ ", line=" ++ toString line ++ ")"
  | whileLoop condition body line =>
    "WhileStmt(condition=" ++ condition.dump ++ ", body=" ++ body.dump
      ++ ", line=" ++ toString line ++ ")"
  | block statements line =>
    "BlockStmt(statements=" ++ tuple (dumpAll statements) ++ ", line=" ++ toString line ++ ")"
  | bare v => v.dump

/-- A part that may be missing is dumped as the value `nil` then. -/
def dumpOption : Option Node → String
  | none => Value.nil.dump
  | some node => node.dump

def dumpAll : List Node → List String
  | [] => []
  | node :: nodes => node.dump :: dumpAll nodes

end

end Node

end Lox
