/-!
# Reports

What is said about an error: which part of the program found it, what is wrong, and where. Errors
fall into categories, each but the most general one inside another.
-/

set_option autoImplicit false

namespace Lox

inductive Category where
  | general | scan | parse | runtime | undefinedVariable | operandType
deriving DecidableEq, Repr

/-- A category and those it is part of, up to the general one. -/
def Category.lineage : Category → List Category
  | .general => [.general]
  | .scan => [.scan, .general]
  | .parse => [.parse, .general]
  | .runtime => [.runtime, .general]
  | .undefinedVariable => [.undefinedVariable, .runtime, .general]
  | .operandType => [.operandType, .runtime, .general]

structure Report where
  location : String
  detail : String
  line : Option Int
  file : Option String

namespace Report

/-- The report as one line of text. -/
def message (r : Report) : String :=
  let line := match r.line with
    | some line => toString line
    | none => "None"
  let file := match r.file with
    | some file => " in " ++ file
    | none => ""
  "[line " ++ line ++ "] Error " ++ r.location ++ ": " ++ r.detail ++ file

def scanner (detail : String) (line : Option Int) (file : Option String) : Report :=
  ⟨"scanner", detail, line, file⟩

def parser (detail : String) (line : Int) (file : Option String) : Report :=
  ⟨"parser", detail, some line, file⟩

/-- The location of errors that come up when a program runs. -/
def running : String := "interpreter"

/-- The report on a name that no scope binds when it is used as `action` says. -/
def undefined (name action : String) (line : Option Int) (file : Option String) : Report :=
  let detail := "cannot " ++ action ++ " variable " ++ name ++ " which is not defined"
  ⟨"environment", detail, line, file⟩

end Report

end Lox
