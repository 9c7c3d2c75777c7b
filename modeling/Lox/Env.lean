import Lox.Value

/-!
# Scopes

A scope binds names to values, in the order in which they were first bound, and knows the file its
errors are reported in. Code runs in a chain of scopes, innermost first: a name means its binding
in the first scope that has one.
-/

set_option autoImplicit false

namespace Lox

structure Scope where
  bindings : List (String × Value)
  file : Option String

namespace Scope

def empty (file : Option String) : Scope := ⟨[], file⟩

def find? (s : Scope) (name : String) : Option Value := s.bindings.lookup name

/-- Whether the scope itself binds the name. -/
def holds (s : Scope) (name : String) : Bool := (s.find? name).isSome

/-- The bindings with one changed in place, or added at the end if it is new. -/
def put (name : String) (value : Value) : List (String × Value) → List (String × Value)
  | [] => [(name, value)]
  | (other, old) :: rest =>
    if name == other then (other, value) :: rest else (other, old) :: put name value rest

def define (s : Scope) (name : String) (value : Value) : Scope :=
  { s with bindings := put name value s.bindings }

@[simp] theorem find?_empty (file : Option String) (name : String) :
    (empty file).find? name = none := rfl

theorem lookup_put (name other : String) (value : Value) (bindings : List (String × Value)) :
    (put name value bindings).lookup other =
      if other = name then some value else bindings.lookup other := by
  induction bindings with
  | nil =>
    by_cases h : other = name
    · simp [put, h]
    · simp [put, List.lookup_cons, beq_false_of_ne h, h]
  | cons binding rest ih =>
    obtain ⟨key, old⟩ := binding
    by_cases hk : name = key <;> by_cases h : other = key
    · simp [put, hk, h]
    · simp [put, List.lookup_cons, beq_false_of_ne h, hk, h]
    · simp [put, hk, h, Ne.symm hk]
    · simp [put, List.lookup_cons, beq_false_of_ne h, hk, ih]

/-- After a definition the name has its value, and all else is as before. -/
theorem find?_define (s : Scope) (name other : String) (value : Value) :
    (s.define name value).find? other = if other = name then some value else s.find? other :=
  lookup_put name other value s.bindings

@[simp] theorem file_define (s : Scope) (name : String) (value : Value) :
    (s.define name value).file = s.file := rfl

end Scope

/-- A scope and those that enclose it, innermost first. -/
abbrev Env := List Scope

namespace Env

/-- The file in which errors of the innermost scope are reported. -/
def file : Env → Option String
  | [] => none
  | scope :: _ => scope.file

/-- A new scope inside the chain, with the file of the innermost one. -/
def child (env : Env) : Env := Scope.empty (Env.file env) :: env

/-- The chain without its innermost scope. -/
def leave (env : Env) : Env := env.tail

/-- How many scopes to climb to the nearest one that binds the name. -/
def owner? (env : Env) (name : String) : Option Nat := env.findIdx? (·.holds name)

def get? (env : Env) (name : String) : Option Value := env.findSome? (·.find? name)

def contains (env : Env) (name : String) : Bool := (Env.owner? env name).isSome

/-- Binds a name in the innermost scope. -/
def define (name : String) (value : Value) : Env → Env
  | [] => [(Scope.empty none).define name value]
  | scope :: outer => scope.define name value :: outer

/-- Changes the nearest binding of a name, if there is one. -/
def set? (name : String) (value : Value) : Env → Option Env
  | [] => none
  | scope :: outer =>
    if scope.holds name then some (scope.define name value :: outer)
    else (set? name value outer).map (scope :: ·)

@[simp] theorem leave_child (env : Env) : leave (child env) = env := rfl

@[simp] theorem get?_child (env : Env) (name : String) :
    get? (child env) name = get? env name := rfl

end Env

end Lox
