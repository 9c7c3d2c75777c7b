import Lox.Source
import Lox.Syntax.Render

/-!
# Transcripts

What a use of the command line shows, in order: prompts and notes of the program itself, dumps of
what it read, what programs print, and reports of errors. Reports go to the standard error, all
else to the standard output.
-/

set_option autoImplicit false

namespace Lox

inductive Event where
  | prompt (text : String)
  | note (text : String)
  | dump (text : String)
  | printed (text : String)
  | report (text : String)

namespace Event

def toOutput : Event → String
  | prompt text | note text | dump text | printed text => text
  | report _ => ""

def toError : Event → String
  | report text => text
  | _ => ""

/-- What the event shows of what programs print. -/
def toPrinted : Event → String
  | printed text => text
  | _ => ""

end Event

/-- Why the work ends without an exit code. -/
inductive Escape where
  /-- A file that is not valid UTF-8. -/
  | undecodable
  /-- A path with a null character in it. -/
  | nullInPath
  | failure (f : Failure)

/-- The exit codes. -/
inductive Exit where
  | ok
  /-- The command line is wrong or names no readable file. -/
  | usage
  /-- The program has an error. -/
  | dataError
deriving DecidableEq, Repr

namespace Exit

def all : List Exit := [ok, usage, dataError]

def code : Exit → Nat
  | ok => 0
  | usage => 64
  | dataError => 65

end Exit

inductive Ending where
  | exit (code : Exit)
  | escaped (cause : Escape)

structure Transcript where
  events : List Event
  ending : Ending

namespace Transcript

def output (t : Transcript) : String := String.join (t.events.map Event.toOutput)

def errors (t : Transcript) : String := String.join (t.events.map Event.toError)

/-- The transcript with events before it. -/
def after (events : List Event) (t : Transcript) : Transcript :=
  { t with events := events ++ t.events }

end Transcript

/-! ## Dumps of programs -/

/-- The statements of a program as text, each on lines of its own, up to one that cannot be
rendered. -/
def renderProgram : List Node → String × Option RenderFault
  | [] => (" \n", none)
  | node :: nodes =>
    match node.render Node.renderLimit 0 with
    | .error fault => ("", some fault)
    | .ok text =>
      let (more, fault) := renderProgram nodes
      (text ++ "\n" ++ more, fault)

/-- The dump of a program's tokens and tree, and what stopped it if it is not whole. -/
def dumpProgram (tokens : List Token) (program : List Node) : String × Option RenderFault :=
  let (tree, fault) := renderProgram program
  ("\nTokens:\n\n[" ++ ", ".intercalate (tokens.map Token.dump) ++ "]\n\nAST:\n\n" ++ tree, fault)

/-! ## Chunks -/

/-- What came of a piece of source: the scopes it leaves, what it showed, and how it failed. -/
structure Chunk where
  env : Env
  events : List Event
  failure : Option Failure

namespace Chunk

def ofRun (before : List Event) : Except Failure Unit × State → Chunk
  | (.ok _, s) => ⟨s.env, before ++ [.printed s.output], none⟩
  | (.error f, s) => ⟨s.env, before ++ [.printed s.output], some f⟩

/-- Runs a source, after a dump of it if that is wanted. -/
def run (i : Interpreter) (debug : Bool) (source : Source) (env : Env) : Chunk :=
  if debug then
    match source.tokens, source.program with
    | .ok tokens, .ok program =>
      match dumpProgram tokens program with
      | (text, some fault) => ⟨env, [.dump text], some fault.halt.failure⟩
      | (text, none) => ofRun [.dump text] (source.run i ⟨env, ""⟩)
    | _, .error e | .error e, _ => ⟨env, [], some (.error e)⟩
  else ofRun [] (source.run i ⟨env, ""⟩)

end Chunk

end Lox
