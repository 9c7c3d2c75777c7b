import Lox.Syntax.Node

/-!
# Rendering

A tree as source text. Binary and logical expressions are put in parentheses, so the text shows
the shape of the tree; the statements inside another are indented. The statements of a block are a
level of their own, between the block and each of them. A tree deeper than the given number of
levels is not rendered, nor is one with a value in the place of a node.
-/

set_option autoImplicit false

namespace Lox

/-- Why a tree cannot be rendered. -/
inductive RenderFault where
  | tooDeep
  | bare (value : Value)

namespace Node

/-- The blanks in front of a statement at a level of indentation. -/
def pad (indent : Int) : String := String.ofList (List.replicate (4 * indent.toNat) ' ')

mutual

/-- The text of a tree of at most `levels` levels, at a level of indentation. -/
def render : (levels : Nat) → (indent : Int) → Node → Except RenderFault String
  | 0, _, _ => .error .tooDeep
  | levels + 1, indent, node => do match node with
    | literal v => return v.literal
    | var name => return name.lexeme
    | unary op operand _ =>
      let operand ← render levels 0 operand
      return op.symbol ++ operand
    | binary left op right _ | logical left op right _ =>
      let left ← render levels 0 left
      let right ← render levels 0 right
      return "(" ++ left ++ " " ++ op.symbol ++ " " ++ right ++ ")"
    | grouping e =>
      let e ← render levels 0 e
      return "(" ++ e ++ ")"
    | assign target value =>
      let value ← render levels 0 value
      return target.lexeme ++ " = " ++ value
    | varDecl name none => return pad indent ++ "var " ++ name.lexeme ++ ";"
    | varDecl name (some initial) =>
      let initial ← render levels 0 initial
      return pad indent ++ "var " ++ name.lexeme ++ " = " ++ initial ++ ";"
    | exprStmt e _ =>
      let e ← render levels 0 e
      return pad indent ++ e ++ ";"
    | print e _ =>
      let e ← render levels 0 e
      return pad indent ++ "print " ++ e ++ ";"
    | ifElse condition thenBranch elseBranch _ =>
      let condition ← render levels 0 condition
      let thenBranch ← render levels (indent + 1) thenBranch
      let start := pad indent ++ "if (" ++ condition ++ ")\n" ++ thenBranch
      match elseBranch with
      | none => return start
      | some branch =>
        let branch ← render levels (indent + 1) branch
        return start ++ "\n" ++ pad indent ++ "else\n" ++ branch
    | whileLoop condition body _ =>
      let condition ← render levels 0 condition
      let body ← render levels (indent + 1) body
      return pad indent ++ "while (" ++ condition ++ ")\n" ++ body
    | block statements _ =>
      let statements ← renderEach levels (indent + 1) statements
      return "\n".intercalate
        ((pad indent ++ "\x7b") :: statements ++ [pad indent ++ "\x7d"])
    | bare v => throw (.bare v)

/-- The texts of the statements of a block. -/
def renderEach : (levels : Nat) → (indent : Int) → List Node → Except RenderFault (List String)
  | 0, _, _ => .error .tooDeep
  | levels + 1, indent, statements => statements.mapM fun s => render levels indent s

end

/-- The levels of a tree that can be rendered. -/
def renderLimit : Nat := 990

end Node

end Lox
