import Lox.Grammar.Cursor

/-!
# The rules of the grammar

```
program     → declaration* EOF
declaration → varDecl | statement
varDecl     → "var" IDENTIFIER ("=" expr)? ";"
statement   → ifElse | whileLoop | block | print | exprStmt
block       → "{" declaration* "}"
print       → "print" expr ";"
ifElse      → "if" "(" expr ")" statement ("else" statement)?
whileLoop   → "while" "(" expr ")" statement
exprStmt    → expr ";"
expr        → assignment
assignment  → IDENTIFIER "=" assignment | or
or          → and ("or" and)*
and         → equality ("and" equality)*
equality    → comparison (("==" | "!=") comparison)*
comparison  → term ((">" | ">=" | "<" | "<=") term)*
term        → factor (("+" | "-") factor)*
factor      → unary (("*" | "/") unary)*
unary       → ("-" | "!") unary | primary
primary     → NUMBER | STRING | "true" | "false" | "nil" | IDENTIFIER | "(" expr ")"
```

`rule levels r` parses the rule `r` and may go through at most `levels` rules inside one another. An
`else` belongs to the nearest `if`. The target of an assignment is parsed as an expression and
checked when its value has been parsed.
-/

set_option autoImplicit false

namespace Lox

/-- The levels of binary operators, from loose to tight. -/
inductive Level where
  | or | and | equality | comparison | term | factor
deriving DecidableEq, Repr

inductive Rule where
  | declaration | varDecl | statement | block | print | ifElse | whileLoop | exprStmt
  | expr | assignment
  | level (l : Level)
  | unary | primary
deriving DecidableEq, Repr

namespace Level

/-- The rule of the operands. -/
def operand : Level → Rule
  | or => .level and
  | and => .level equality
  | equality => .level comparison
  | comparison => .level term
  | term => .level factor
  | factor => .unary

/-- The kinds of the operators of this level. -/
def kinds : Level → List Kind
  | or => [.orWord]
  | and => [.andWord]
  | equality => [.equalEqual, .bangEqual]
  | comparison => [.greater, .greaterEqual, .less, .lessEqual]
  | term => [.plus, .minus]
  | factor => [.star, .slash]

/-- The operator of this level that a token of this kind stands for. -/
def op? (l : Level) (kind : Kind) : Option Op :=
  if kind ∈ l.kinds then (Op.ofBinary? kind).or (Op.ofLogical? kind) else none

/-- The node of an operator of this level. -/
def join : Level → Node → Op → Node → Int → Node
  | or | and => .logical
  | _ => .binary

end Level

namespace Parse

/-- Operands and operators of one level after the operand `left`, joined to the left. There are at
most as many operators as tokens ahead, the first argument. -/
def chain (l : Level) (operand : Parse Node) : List Token → Node → Parse Node
  | [], left => pure left
  | _ :: more, left => do
    let mark ← current
    match l.op? mark.kind with
    | none => pure left
    | some op => do
      let _ ← advance
      let right ← operand
      chain l operand more (l.join left op right mark.line)

/-- Items up to a token that `stop` tells. There are at most as many items as tokens ahead, the
first argument after `stop`. -/
def many (item : Parse Node) (stop : Kind → Bool) : List Token → Parse (List Node)
  | [] => pure []
  | _ :: more => do
    let token ← current
    if stop token.kind then pure []
    else do
      let first ← item
      let others ← many item stop more
      pure (first :: others)

/-- The tokens after the current one. -/
def ahead : Parse (List Token) := fun c => .ok c.rest c

/-- Parses a rule, through at most `levels` rules inside one another. -/
def rule : (levels : Nat) → Rule → Parse Node
  | 0, _ => tooDeep
  | levels + 1, r => match r with
    | .declaration => do
      if ← check .varWord then rule levels .varDecl else rule levels .statement
    | .varDecl => do
      let _ ← eat .varWord ""
      let name ← eat .identifier "after 'var'"
      if ← check .equal then do
        let _ ← advance
        let initial ← rule levels .expr
        let _ ← eat .semicolon "after variable declaration"
        pure (.varDecl name (some initial))
      else do
        let _ ← eat .semicolon "after variable declaration"
        pure (.varDecl name none)
    | .statement => do
      let token ← current
      match token.kind with
      | .ifWord => rule levels .ifElse
      | .whileWord => rule levels .whileLoop
      | .leftBrace => rule levels .block
      | .printWord => rule levels .print
      | _ => rule levels .exprStmt
    | .block => do
      let token ← eat .leftBrace ""
      let statements ←
        many (rule levels .declaration) (fun k => k == .rightBrace || k == .eof) (← ahead)
      let _ ← eat .rightBrace "after block"
      pure (.block statements token.line)
    | .print => do
      let token ← eat .printWord ""
      let e ← rule levels .expr
      let _ ← eat .semicolon "after value"
      pure (.print e token.line)
    | .ifElse => do
      let token ← eat .ifWord ""
      let _ ← eat .leftParen "after 'if'"
      let condition ← rule levels .expr
      let _ ← eat .rightParen "after if condition"
      let thenBranch ← rule levels .statement
      if ← check .elseWord then do
        let _ ← advance
        let elseBranch ← rule levels .statement
        pure (.ifElse condition thenBranch (some elseBranch) token.line)
      else pure (.ifElse condition thenBranch none token.line)
    | .whileLoop => do
      let token ← eat .whileWord ""
      let _ ← eat .leftParen "after 'while'"
      let condition ← rule levels .expr
      let _ ← eat .rightParen "after while condition"
      let body ← rule levels .statement
      pure (.whileLoop condition body token.line)
    | .exprStmt => do
      let token ← current
      let e ← rule levels .expr
      let _ ← eat .semicolon "after expression"
      pure (.exprStmt e token.line)
    | .expr => rule levels .assignment
    | .assignment => do
      let target ← rule levels (.level .or)
      if ← check .equal then do
        let equals ← advance
        let value ← rule levels .assignment
        match target with
        | .var name => pure (.assign name value)
        | _ => rejectAt .invalidTarget equals
      else pure target
    | .level l => do
      let left ← rule levels l.operand
      chain l (rule levels l.operand) (← ahead) left
    | .unary => do
      let mark ← current
      match Op.ofUnary? mark.kind with
      | some op => do
        let _ ← advance
        let operand ← rule levels .unary
        pure (.unary op operand mark.line)
      | none => rule levels .primary
    | .primary => do
      let token ← current
      match token.kind with
      | .number | .string => do
        let _ ← advance
        pure (.literal token.literal)
      | .trueWord => do
        let _ ← advance
        pure (.literal (.bool true))
      | .falseWord => do
        let _ ← advance
        pure (.literal (.bool false))
      | .nilWord => do
        let _ ← advance
        pure (.literal .nil)
      | .identifier => do
        let _ ← advance
        pure (.var token)
      | .leftParen => do
        let _ ← advance
        let inner ← rule levels .expr
        let _ ← eat .rightParen "after expression"
        pure (.grouping inner)
      | _ => reject .expectedExpression

/-- A declaration on its own; nesting that is too deep rejects the token it was noticed at. -/
def topLevel (levels : Nat) : Parse Node := fun c =>
  match rule levels .declaration c with
  | .error .tooDeep stuck => .error (.rejected ⟨.tooDeep, stuck.current⟩) stuck
  | result => result

/-- Declarations up to the end of source. -/
def program (levels : Nat) : Parse (List Node) := do
  many (topLevel levels) (· == .eof) (← ahead)

/-- How many rules may be inside one another in a declaration. -/
def limit : Nat := 495

end Parse

/-- The program that a list of tokens writes, through at most `levels` rules inside one another. -/
def parseWithin (levels : Nat) (tokens : List Token) : Except ParseError (List Node) :=
  match Parse.program levels (Cursor.start tokens) with
  | .ok nodes _ => .ok nodes
  | .error (.rejected e) _ => .error e
  | .error .tooDeep stuck => .error ⟨.tooDeep, stuck.current⟩

/-- The program that a list of tokens writes. -/
def parse (tokens : List Token) : Except ParseError (List Node) := parseWithin Parse.limit tokens

end Lox
