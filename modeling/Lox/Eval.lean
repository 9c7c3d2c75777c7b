import Lox.Env
import Lox.Error
import Lox.Syntax.Render

/-!
# Running programs

Statements run against a chain of scopes and print text. A run halts at the first error; what it
has done until then stays done. Two bounds make every run end: trees may be nested only so deeply,
which is part of the language, and a loop may go only so many rounds, which stands for the time a
run may take. A run that ends within some number of rounds does the same within any larger number.
-/

set_option autoImplicit false

namespace Lox

/-! ## Operators -/

/-- How an operator fails on its operands. -/
inductive Misfit where
  | addition
  | arithmetic
  | divisionByZero
  | unknownOperator
deriving DecidableEq, Repr

namespace Op

/-- The value of an operator on two numbers. -/
def onNumbers (op : Op) (x y : Float) : Except Misfit Value :=
  match op with
  | sub => .ok (.num (x - y))
  | mul => .ok (.num (x * y))
  | div => if y == 0 then .error .divisionByZero else .ok (.num (x / y))
  | gt => .ok (.bool (decide (x > y)))
  | ge => .ok (.bool (decide (x ≥ y)))
  | lt => .ok (.bool (decide (x < y)))
  | le => .ok (.bool (decide (x ≤ y)))
  | _ => .error .unknownOperator

/-- The value of an operator between two values. -/
def onValues (op : Op) (a b : Value) : Except Misfit Value :=
  match op, a, b with
  | eq, a, b => .ok (.bool (a.equal b))
  | ne, a, b => .ok (.bool (!a.equal b))
  | add, .str s, .str t => .ok (.str (s ++ t))
  | add, .num x, .num y => .ok (.num (x + y))
  | add, _, _ => .error .addition
  | op, .num x, .num y => op.onNumbers x y
  | _, _, _ => .error .arithmetic

end Op

/-- The fault of a misfit in the expression that `text` renders. -/
def Misfit.fault (op : Op) (text : String) : Misfit → RunFault
  | .addition => .addition text
  | .arithmetic => .arithmetic op text
  | .divisionByZero => .divisionByZero text
  | .unknownOperator => .unknownOperator op

/-! ## Runs -/

/-- What makes a tree unfit to run or to render. -/
inductive Malformed where
  | statement (node : Node)
  | expression (node : Node)
  | rendering (value : Value)

def Malformed.message : Malformed → String
  | .statement node => "Unknown statement type: " ++ node.dump
  | .expression node => "Invalid expression node: " ++ node.dump
  | .rendering value => "Invalid AST node: " ++ value.dump

/-- How a run halts before its end. -/
inductive Halt where
  | error (e : RunError)
  | malformed (m : Malformed)
  /-- The tree is nested too deeply. -/
  | tooDeep
  /-- A loop has gone all its rounds. -/
  | unfinished

def RenderFault.halt : RenderFault → Halt
  | .tooDeep => .tooDeep
  | .bare value => .malformed (.rendering value)

/-- The scopes a program runs in, and what it has printed. -/
structure State where
  env : Env
  output : String

abbrev Run := EStateM Halt State

namespace Run

def halt {α : Type} (h : Halt) : Run α := fun s => .error h s

/-- Halts with the error of a name that is not bound, in the file of the innermost scope. -/
def undefined {α : Type} (name : Token) (access : Access) : Run α := fun s =>
  .error (.error ⟨.undefined name.lexeme access, name.line, Env.file s.env⟩) s

/-- The value bound to a name. -/
def get (name : Token) : Run Value := fun s =>
  match Env.get? s.env name.lexeme with
  | some value => .ok value s
  | none => undefined name .get s

/-- Changes the value bound to a name. -/
def set (name : Token) (value : Value) : Run Unit := fun s =>
  match Env.set? name.lexeme value s.env with
  | some env => .ok () { s with env := env }
  | none => undefined name .set s

def define (name : Token) (value : Value) : Run Unit := fun s =>
  .ok () { s with env := Env.define name.lexeme value s.env }

/-- Prints a line. -/
def print (text : String) : Run Unit := fun s =>
  .ok () { s with output := s.output ++ text ++ "\n" }

/-- Runs in a new innermost scope, which is gone afterwards, also after a failure. -/
def inChild (body : Run Unit) : Run Unit := fun s =>
  match body { s with env := Env.child s.env } with
  | .ok _ t => .ok () { t with env := Env.leave t.env }
  | .error h t => .error h { t with env := Env.leave t.env }

/-- Repeats `body` while `condition` holds, for fewer rounds than the first argument. -/
def loop (condition : Run Bool) (body : Run Unit) : (rounds : Nat) → Run Unit
  | 0 => halt .unfinished
  | rounds + 1 => do
    if ← condition then do
      body
      loop condition body rounds
    else pure ()

/-- Runs statements in order. -/
def each (exec : Node → Run Unit) : List Node → Run Unit
  | [] => pure ()
  | statement :: rest => do
    exec statement
    each exec rest

end Run

/-! ## The interpreter -/

/-- Runs programs: errors are reported in `file`, and no loop goes `rounds` rounds. -/
structure Interpreter where
  file : Option String
  rounds : Nat

namespace Interpreter

/-- Halts because of what `node`, of at most `levels` levels, says. -/
def blame {α : Type} (i : Interpreter) (levels : Nat) (node : Node) (fault : String → RunFault)
    (line : Int) : Run α :=
  match node.render levels 0 with
  | .ok text => Run.halt (.error ⟨fault text, line, i.file⟩)
  | .error e => Run.halt e.halt

/-- The value of an expression of at most `levels` levels. -/
def eval (i : Interpreter) : (levels : Nat) → Node → Run Value
  | 0, _ => Run.halt .tooDeep
  | levels + 1, node => match node with
    | .literal value => pure value
    | .var name => Run.get name
    | .grouping inner => eval i levels inner
    | .assign target value => do
      let v ← eval i levels value
      Run.set target v
      pure v
    | .logical left op right _ => do
      let v ← eval i levels left
      if v.truthy == (op == .or) then pure v else eval i levels right
    | .unary op operand line => do
      let v ← eval i levels operand
      if op == .not then pure (.bool !v.truthy)
      else match v with
        | .num x => pure (.num (-x))
        | _ => blame i levels node .negation line
    | .binary left op right line => do
      let a ← eval i levels left
      let b ← eval i levels right
      match op.onValues a b with
      | .ok v => pure v
      | .error .unknownOperator => Run.halt (.error ⟨.unknownOperator op, line, i.file⟩)
      | .error misfit => blame i levels node (misfit.fault op ·) line
    | _ => Run.halt (.malformed (.expression node))

mutual

/-- Runs a statement of at most `levels` levels. -/
def exec (i : Interpreter) : (levels : Nat) → Node → Run Unit
  | 0, _ => Run.halt .tooDeep
  | levels + 1, node => match node with
    | .varDecl name none => Run.define name .nil
    | .varDecl name (some initial) => do
      let v ← eval i levels initial
      Run.define name v
    | .exprStmt e _ => do
      let _ ← eval i levels e
      pure ()
    | .print e _ => do
      let v ← eval i levels e
      Run.print v.text
    | .ifElse condition thenBranch elseBranch _ => do
      let v ← eval i levels condition
      if v.truthy then exec i levels thenBranch
      else match elseBranch with
        | none => pure ()
        | some branch => exec i levels branch
    | .whileLoop condition body _ =>
      Run.loop (Value.truthy <$> eval i levels condition) (exec i levels body) i.rounds
    | .block statements _ => execBlock i levels statements
    | _ => Run.halt (.malformed (.statement node))

/-- Runs statements in a scope of their own. -/
def execBlock (i : Interpreter) : (levels : Nat) → List Node → Run Unit
  | 0, _ => Run.halt .tooDeep
  | levels + 1, statements =>
    Run.inChild (Run.each (fun statement => exec i levels statement) statements)

end

/-- Runs a statement of the program itself; nesting that is too deep is an error at its line. -/
def topLevel (i : Interpreter) (levels : Nat) (statement : Node) : Run Unit := fun s =>
  match i.exec levels statement s with
  | .error .tooDeep t => .error (.error ⟨.tooDeep, statement.line, i.file⟩) t
  | result => result

/-- Runs a program. -/
def interpret (i : Interpreter) (levels : Nat) (program : List Node) : Run Unit :=
  Run.each (i.topLevel levels) program

/-- How deeply a program may be nested. -/
def limit : Nat := 990

/-- The native that tells the time. -/
def clock : Native := ⟨"clock", 0, 0⟩

/-- The scopes in which a program starts: the global one, with the clock. -/
def globals (file : Option String) : Env :=
  Env.define clock.name (.native clock) [Scope.empty file]

end Interpreter

end Lox
