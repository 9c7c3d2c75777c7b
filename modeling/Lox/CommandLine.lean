import Lox.ReadFault
import Lox.Repl
import Lox.Text.Newline

/-!
# The command line

Without arguments the program holds a conversation; with one it runs the file of that name, unless
it is asked for help; any other use is answered by how to use it.
-/

set_option autoImplicit false

namespace Lox

inductive Command where
  | converse
  | help
  | script (path : String)
  | misuse

namespace Command

def ofArgs : List String → Command
  | [] => .converse
  | [arg] => if arg = "-h" ∨ arg = "--help" then .help else .script arg
  | _ => .misuse

def usage : String :=
  "Usage: lox [script]\n"
    ++ "  script      run a Lox source file; omit it to start the REPL\n"
    ++ "  -h, --help  show this message\n"

end Command

/-! ## Scripts -/

/-- The text of a file: valid UTF-8 with its line ends unified. -/
def decodeScript (bytes : ByteArray) : Option String :=
  (String.fromUTF8? bytes).map fun text => String.ofList (Text.unifyNewlines text.toList)

/-- How the run of a script ends, and what is reported of it. -/
def Chunk.conclude (c : Chunk) : Transcript :=
  match c.failure with
  | none => ⟨c.events, .exit .ok⟩
  | some (.error e) => ⟨c.events ++ [.report (e.message ++ "\n")], .exit .dataError⟩
  | some cause => ⟨c.events, .escaped (.failure cause)⟩

/-- Runs the script of a name, given what reading the file gave. -/
def runScript (rounds : Nat) (debug : Bool) (path : String)
    (content : Except ReadFault ByteArray) : Transcript :=
  match content with
  | .error fault => ⟨[.report (fault.message path ++ "\n")], .exit .usage⟩
  | .ok bytes =>
    match decodeScript bytes with
    | none => ⟨[], .escaped .undecodable⟩
    | some text =>
      let source : Source := ⟨text, some path⟩
      (Chunk.run ⟨some path, rounds⟩ debug source (Interpreter.globals (some path))).conclude

/-! ## The whole program -/

/-- What the program finds around it. -/
structure World where
  /-- What reading the file at a path gives. -/
  read : String → Except ReadFault ByteArray
  input : String
  ending : EndOfInput
  /-- Whether programs are dumped before they run. -/
  debug : Bool
  /-- How many rounds a loop may go. -/
  rounds : Nat

/-- The lines of the standard input. -/
def World.lines (w : World) : List String :=
  (Text.lines (Text.unifyNewlines w.input.toList)).map String.ofList

def Command.run (w : World) : Command → Transcript
  | .converse => Repl.run w.rounds w.debug w.ending w.lines
  | .help => ⟨[.note usage], .exit .ok⟩
  | .misuse => ⟨[.report usage], .exit .usage⟩
  | .script path =>
    if path.contains '\x00' then ⟨[], .escaped .nullInPath⟩
    else runScript w.rounds w.debug path (w.read path)

/-- How many rounds a loop may go when nobody says otherwise. -/
def patience : Nat := 1000000000000000000

end Lox
