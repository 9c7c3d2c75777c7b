import Lox.Grammar.Cursor
import Lox.Report
import Lox.Token.Scan

/-!
# Errors

An error stops a program: its text cannot be scanned, its tokens cannot be parsed, or running it
failed. Each error is kept as its cause and put into words by its report.
-/

set_option autoImplicit false

namespace Lox

/-- What a program wanted of a name. -/
inductive Access where
  | get | set
deriving DecidableEq, Repr

def Access.action : Access → String
  | .get => "get"
  | .set => "set"

/-- Why a program cannot go on. `text` is the rendered expression that failed. -/
inductive RunFault where
  | undefined (name : String) (access : Access)
  /-- Negation of something else than a number. -/
  | negation (text : String)
  /-- Addition of other things than two numbers or two strings. -/
  | addition (text : String)
  /-- An operator on numbers applied to something else. -/
  | arithmetic (op : Op) (text : String)
  | divisionByZero (text : String)
  /-- An operator that stands between operands and has no meaning there. -/
  | unknownOperator (op : Op)
  | tooDeep
deriving DecidableEq

structure RunError where
  fault : RunFault
  line : Int
  file : Option String
deriving DecidableEq

namespace RunFault

def category : RunFault → Category
  | undefined _ _ => .undefinedVariable
  | negation _ | addition _ | arithmetic _ _ => .operandType
  | divisionByZero _ | unknownOperator _ | tooDeep => .runtime

def detail : RunFault → String
  | undefined name access => (Report.undefined name access.action none none).detail
  | negation text => "operand of unary '-' must be a number: " ++ text
  | addition text => "operands of '+' must be two numbers or two strings: " ++ text
  | arithmetic op text => "operands of '" ++ op.symbol ++ "' must be numbers: " ++ text
  | divisionByZero text => "division by zero: " ++ text
  | unknownOperator op => "unknown binary operator '" ++ op.symbol ++ "'"
  | tooDeep => "expression nested too deeply"

end RunFault

def RunError.report (e : RunError) : Report :=
  match e.fault with
  | .undefined name access => Report.undefined name access.action (some e.line) e.file
  | fault => ⟨Report.running, fault.detail, some e.line, e.file⟩

/-- What stops a program. -/
inductive Error where
  | scan (error : ScanError) (file : Option String)
  | parse (error : ParseError) (file : Option String)
  | run (error : RunError)

namespace Error

def category : Error → Category
  | scan _ _ => .scan
  | parse _ _ => .parse
  | run e => e.fault.category

def report : Error → Report
  | scan e file => Report.scanner e.fault.detail (some e.line) file
  | parse e file => Report.parser e.detail e.token.line file
  | run e => e.report

def message (e : Error) : String := e.report.message

/-- Whether the source only stops too early: inside a string, or at its end. -/
def incomplete : Error → Bool
  | scan e _ => e.fault.incomplete
  | parse e _ => e.token.kind == .eof
  | run _ => false

end Error

end Lox
