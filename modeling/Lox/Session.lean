import Lox.Env.Forest
import Lox.Source

/-!
# Sessions

A session holds one interpreter and a forest of scopes, whose scope zero is the global one, and
works step by step: it makes scopes, uses bindings and runs code in any of the scopes. A step that
fails leaves behind what it has done, and the next step goes on from there.
-/

set_option autoImplicit false

namespace Lox

structure Session where
  interpreter : Interpreter
  forest : Forest

/-- A program, as text or as a tree. -/
inductive Code where
  | source (text : String)
  | tree (statements : List Node)

/-- An expression, as text or as a tree. -/
inductive Formula where
  | source (text : String)
  | tree (node : Node)

namespace Session

inductive Step where
  /-- Makes a scope inside another. -/
  | child (env : Nat)
  /-- Makes a scope, inside another or on its own. -/
  | plant (enclosing : Option Nat) (file : Option String)
  | define (env : Nat) (name : String) (value : Value)
  | get (env : Nat) (name : String) (line : Int)
  | set (env : Nat) (name : String) (value : Value) (line : Int)
  | contains (env : Nat) (name : String)
  /-- Runs code as a program. -/
  | interpret (env : Nat) (code : Code)
  /-- Runs code in a scope of its own. -/
  | block (env : Nat) (code : Code)
  /-- Runs code statement by statement. -/
  | execute (env : Nat) (code : Code)
  | evaluate (env : Nat) (formula : Formula)

inductive Answer where
  | done
  | value (v : Value)
  | truth (b : Bool)
  /-- The value of an expression. -/
  | evaluated (v : Value)

/-- What came of a step, and what it printed. -/
structure Result where
  answer : Except Failure Answer
  output : String

def start (file : Option String) (rounds : Nat) : Session :=
  ⟨⟨file, rounds⟩, (Interpreter.globals file).map fun scope => ⟨scope, none⟩⟩

def program (s : Session) : Code → Except Failure (List Node)
  | .tree statements => .ok statements
  | .source text =>
    match (Source.mk text s.interpreter.file).program with
    | .ok nodes => .ok nodes
    | .error e => .error (.error e)

def formula (s : Session) : Formula → Except Failure Node
  | .tree node => .ok node
  | .source text => (Source.mk text s.interpreter.file).expression

/-- Runs in the chain of a scope and puts the scopes back. -/
def runIn (s : Session) (env : Nat) (run : Run Answer) : Result × Session :=
  let (answer, t) := run.outcome ⟨s.forest.chain env, ""⟩
  (⟨answer, t.output⟩, { s with forest := s.forest.restore env t.env })

/-- Runs what is made of code, if the code can be read. -/
def runCode (s : Session) (env : Nat) (code : Code) (run : List Node → Run Unit) :
    Result × Session :=
  match s.program code with
  | .error e => (⟨.error e, ""⟩, s)
  | .ok statements => s.runIn env do
    run statements
    pure .done

def name (text : String) (line : Int) : Token := ⟨.identifier, text, .nil, line⟩

def step (s : Session) : Step → Result × Session
  | .child env => (⟨.ok .done, ""⟩, { s with forest := s.forest.plant (some env) none })
  | .plant enclosing file => (⟨.ok .done, ""⟩, { s with forest := s.forest.plant enclosing file })
  | .define env text value => s.runIn env do
    Run.define (name text 1) value
    pure .done
  | .get env text line => s.runIn env do
    let v ← Run.get (name text line)
    pure (.value v)
  | .set env text value line => s.runIn env do
    Run.set (name text line) value
    pure .done
  | .contains env text =>
    (⟨.ok (.truth (Env.contains (s.forest.chain env) text)), ""⟩, s)
  | .interpret env code => s.runCode env code (s.interpreter.interpret Interpreter.limit)
  | .block env code => s.runCode env code (s.interpreter.execBlock Interpreter.limit)
  | .execute env code =>
    s.runCode env code (Run.each (s.interpreter.exec Interpreter.limit))
  | .evaluate env f =>
    match s.formula f with
    | .error e => (⟨.error e, ""⟩, s)
    | .ok node => s.runIn env do
      let v ← s.interpreter.eval Interpreter.limit node
      pure (.evaluated v)

end Session

end Lox
