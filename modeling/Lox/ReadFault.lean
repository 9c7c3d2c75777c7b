import Lox.Text.Quoted

/-!
# Files that cannot be read

The system says by a number and in words why it does not open a file, or does not go on reading one.
A report begins with the category of the number, and names the path if the file was not opened.
-/

set_option autoImplicit false

namespace Lox

/-- A refusal of the system. -/
structure SystemError where
  number : Nat
  reason : String
deriving DecidableEq, Repr

namespace SystemError

/-- The category of a refusal, by its number. -/
def category (e : SystemError) : String :=
  match e.number with
  | 1 | 13 => "PermissionError"
  | 2 => "FileNotFoundError"
  | 3 => "ProcessLookupError"
  | 4 => "InterruptedError"
  | 10 => "ChildProcessError"
  | 11 | 114 | 115 => "BlockingIOError"
  | 17 => "FileExistsError"
  | 20 => "NotADirectoryError"
  | 21 => "IsADirectoryError"
  | 32 | 108 => "BrokenPipeError"
  | 103 => "ConnectionAbortedError"
  | 104 => "ConnectionResetError"
  | 110 => "TimeoutError"
  | 111 => "ConnectionRefusedError"
  | _ => "OSError"

def message (e : SystemError) : String :=
  e.category ++ ": [Errno " ++ toString e.number ++ "] " ++ e.reason

end SystemError

/-- Why the bytes of a file cannot be had. -/
inductive ReadFault where
  /-- The file cannot be opened. -/
  | opening (e : SystemError)
  /-- The file is open, and reading it breaks off. -/
  | reading (e : SystemError)
deriving DecidableEq, Repr

def ReadFault.message (path : String) : ReadFault → String
  | opening e => e.message ++ ": " ++ Text.quote path
  | reading e => e.message

end Lox
