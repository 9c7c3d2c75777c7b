import Lox.Eval
import Lox.Grammar.Rule

/-!
# Source

A text with the name of the file it comes from, and what is made of it: its tokens, its program,
and the run of that program. The first error in this order stops it.
-/

set_option autoImplicit false

namespace Lox

/-- Why a piece of work could not be done. -/
inductive Failure where
  | error (e : Error)
  | malformed (m : Malformed)
  /-- A tree is nested too deeply, outside of what a program reports as an error. -/
  | tooDeep
  /-- A loop has gone all its rounds. -/
  | unfinished

def Halt.failure : Halt → Failure
  | .error e => .error (.run e)
  | .malformed m => .malformed m
  | .tooDeep => .tooDeep
  | .unfinished => .unfinished

structure Source where
  text : String
  file : Option String

namespace Source

def tokens (s : Source) : Except Error (List Token) :=
  match scan s.text with
  | .ok tokens => .ok tokens
  | .error e => .error (.scan e s.file)

def program (s : Source) : Except Error (List Node) :=
  match s.tokens with
  | .error e => .error e
  | .ok tokens =>
    match parse tokens with
    | .ok nodes => .ok nodes
    | .error e => .error (.parse e s.file)

/-- The expression at the start of the source; what follows it does not count. -/
def expression (s : Source) : Except Failure Node :=
  match s.tokens with
  | .error e => .error (.error e)
  | .ok tokens =>
    match Parse.rule Parse.limit .expr (Cursor.start tokens) with
    | .ok node _ => .ok node
    | .error (.rejected e) _ => .error (.error (.parse e s.file))
    | .error .tooDeep _ => .error .tooDeep

end Source

/-- Does a run: its result or failure, and the state it leaves. -/
def Run.outcome {α : Type} (run : Run α) (s : State) : Except Failure α × State :=
  match run s with
  | .ok a t => (.ok a, t)
  | .error h t => (.error h.failure, t)

/-- Runs a source; nothing of it runs unless all of it can be parsed. -/
def Source.run (i : Interpreter) (source : Source) (s : State) : Except Failure Unit × State :=
  match source.program with
  | .error e => (.error (.error e), s)
  | .ok program => (i.interpret Interpreter.limit program).outcome s

/-- Runs a source on its own, in the scopes in which programs start. -/
def Source.runFresh (rounds : Nat) (source : Source) : Except Failure Unit × State :=
  source.run ⟨source.file, rounds⟩ ⟨Interpreter.globals source.file, ""⟩

end Lox
