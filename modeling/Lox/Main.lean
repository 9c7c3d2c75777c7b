import Lox.CommandLine

/-!
# The program

Reads files and standard input, shows events as they come, and leaves every decision to the
command line.
-/

set_option autoImplicit false

namespace Lox

/-- Shows events, each where it belongs. -/
def emit (events : List Event) : IO Unit := do
  let output ← IO.getStdout
  let errors ← IO.getStderr
  for event in events do
    output.putStr event.toOutput
    errors.putStr event.toError
  output.flush

/-- A refusal of the system, whose number comes with either sign. -/
def systemError : IO.Error → SystemError
  | .noFileOrDirectory _ code details | .interrupted _ code details
  | .inappropriateType _ code details | .invalidArgument _ code details
  | .permissionDenied _ code details | .resourceExhausted _ code details
  | .alreadyExists _ code details | .noSuchThing _ code details
  | .otherError code details | .resourceBusy code details | .resourceVanished code details
  | .unsupportedOperation code details | .hardwareFault code details
  | .unsatisfiedConstraints code details | .illegalOperation code details
  | .protocolError code details | .timeExpired code details =>
    ⟨(min code (0 - code)).toNat, details⟩
  | .unexpectedEof => ⟨5, "unexpected end of file"⟩
  | .userError reason => ⟨5, reason⟩

def readBytes (path : String) : IO (Except ReadFault ByteArray) := do
  match ← (IO.FS.Handle.mk path .read).toBaseIO with
  | .error e => return .error (.opening (systemError e))
  | .ok handle =>
    match ← handle.readBinToEnd.toBaseIO with
    | .ok bytes => return .ok bytes
    | .error e =>
      -- a directory is refused as soon as it is opened
      let refusal := systemError e
      return .error (if refusal.number = 21 then .opening refusal else .reading refusal)

/-- The exit status of the process, with a word on an ending that has no code. -/
def status : Ending → IO UInt32
  | .exit code => return code.code.toUInt32
  | .escaped cause => do
    let reason := match cause with
      | .undecodable => "the file is not valid UTF-8"
      | .nullInPath => "embedded null byte"
      | .failure (.malformed m) => m.message
      | .failure .unfinished => "a loop did not end"
      | .failure _ => "nested too deeply"
    (← IO.getStderr).putStrLn reason
    return 1

def report (t : Transcript) : IO UInt32 := do
  emit t.events
  status t.ending

/-- Holds the conversation of a terminal; `waiting` are lines that have been read and not taken. -/
partial def converse (debug : Bool) (r : Repl) (waiting : List String) : IO UInt32 := do
  match waiting with
  | line :: lines =>
    match r.turn patience debug line with
    | .leave => status (.exit .ok)
    | .goOn next events =>
      emit events
      if !lines.isEmpty then emit [.prompt next.prompt]
      converse debug next lines
    | .escaped cause events =>
      emit events
      status (.escaped (.failure cause))
  | [] =>
    emit [.prompt r.prompt]
    let text ← (← IO.getStdin).getLine
    if text.isEmpty then
      emit [Repl.farewell .closed]
      status (.exit .ok)
    else converse debug r ((Text.lines (Text.unifyNewlines text.toList)).map String.ofList)

def runCommand (debug : Bool) : Command → IO UInt32
  | .converse => do
    emit [.note Repl.banner]
    converse debug Repl.start []
  | .script path => do
    let content ← readBytes path
    report ((Command.script path).run ⟨fun _ => content, "", .closed, debug, patience⟩)
  | command => report (command.run ⟨fun _ => .ok .empty, "", .closed, debug, patience⟩)

end Lox

def main (args : List String) : IO UInt32 := do
  let debug := ((← IO.getEnv "LOXDEBUG").getD "") != ""
  Lox.runCommand debug (Lox.Command.ofArgs args)
