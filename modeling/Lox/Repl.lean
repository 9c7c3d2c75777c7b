import Lox.Text.Blank
import Lox.Transcript

/-!
# The interactive loop

Lines are gathered in a buffer. After each line the buffer is run as one source. If the source
only stops too early, the buffer is kept and grows by the next line; otherwise it is cleared, and
an error is reported. What is defined at the top level stays for later lines.
-/

set_option autoImplicit false

namespace Lox

/-- The scopes of the conversation, and the lines that wait for more. -/
structure Repl where
  env : Env
  buffer : List String

/-- How input ends. -/
inductive EndOfInput where
  | closed
  | interrupted

namespace Repl

/-- The name under which the source of a conversation is reported. -/
def file : Option String := some "<stdin>"

def start : Repl := ⟨Interpreter.globals file, []⟩

def banner : String := "Lox Language Interpreter - REPL\nType `exit` or `quit` to leave.\n"

def prompt (r : Repl) : String := if r.buffer.isEmpty then "> " else ". "

/-- Whether a line ends the conversation: one of two words while nothing waits for more. -/
def leaves (r : Repl) (line : String) : Bool :=
  let word := Text.strip line.toList
  r.buffer.isEmpty && (word == "exit".toList || word == "quit".toList)

/-- The source that the waiting lines and a new one make. -/
def source (r : Repl) (line : String) : Source :=
  ⟨"\n".intercalate (r.buffer ++ [line]), file⟩

/-- What reading a line leads to. -/
inductive Turn where
  /-- The line ends the conversation. -/
  | leave
  | goOn (next : Repl) (events : List Event)
  | escaped (cause : Failure) (events : List Event)

/-- Takes the waiting lines and a new one as a source. -/
def feed (rounds : Nat) (debug : Bool) (r : Repl) (line : String) : Turn :=
  let chunk := Chunk.run ⟨file, rounds⟩ debug (r.source line) r.env
  match chunk.failure with
  | none => .goOn ⟨chunk.env, []⟩ chunk.events
  | some (.error e) =>
    if e.incomplete then .goOn ⟨chunk.env, r.buffer ++ [line]⟩ chunk.events
    else .goOn ⟨chunk.env, []⟩ (chunk.events ++ [.report (e.message ++ "\n")])
  | some cause => .escaped cause chunk.events

/-- Takes a line. -/
def turn (rounds : Nat) (debug : Bool) (r : Repl) (line : String) : Turn :=
  if r.leaves line then .leave else r.feed rounds debug line

/-- What is shown when the input ends. -/
def farewell : EndOfInput → Event
  | .closed => .note "\n"
  | .interrupted => .note "\nInterrupted.\n"

/-- The conversation over the given lines. -/
def converse (rounds : Nat) (debug : Bool) (ending : EndOfInput) :
    Repl → List String → Transcript
  | r, [] => ⟨[.prompt r.prompt, farewell ending], .exit .ok⟩
  | r, line :: lines =>
    match r.turn rounds debug line with
    | .leave => ⟨[.prompt r.prompt], .exit .ok⟩
    | .goOn next events =>
      .after (.prompt r.prompt :: events) (converse rounds debug ending next lines)
    | .escaped cause events => ⟨.prompt r.prompt :: events, .escaped (.failure cause)⟩

/-- A whole conversation. -/
def run (rounds : Nat) (debug : Bool) (ending : EndOfInput) (lines : List String) : Transcript :=
  .after [.note banner] (converse rounds debug ending start lines)

end Repl

end Lox
