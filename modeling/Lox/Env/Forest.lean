import Lox.Env

/-!
# Forests of scopes

Scopes that were made one after the other, each inside an older one or on its own. They are
numbered from zero in the order in which they were made. Since a scope can only be enclosed by an
older one, the scopes that enclose it form a chain.
-/

set_option autoImplicit false

namespace Lox

/-- A scope and the number of the one that encloses it. -/
structure Planted where
  scope : Scope
  enclosing : Option Nat

/-- The scopes made so far, the newest first. -/
abbrev Forest := List Planted

namespace Forest

/-- The chain of a scope: itself and the scopes that enclose it. -/
def chain : Forest → Nat → Env
  | [], _ => []
  | newest :: older, n =>
    if n = older.length then
      newest.scope :: match newest.enclosing with
        | none => []
        | some m => chain older m
    else chain older n

/-- Puts the scopes of a chain back in their places. -/
def restore : Forest → Nat → Env → Forest
  | [], _, _ => []
  | newest :: older, n, env =>
    if n = older.length then
      match env with
      | [] => newest :: older
      | scope :: outer =>
        { newest with scope := scope } :: match newest.enclosing with
          | none => older
          | some m => restore older m outer
    else newest :: restore older n env

/-- Makes a scope. Without a file of its own it has the file of the scope that encloses it. -/
def plant (f : Forest) (enclosing : Option Nat) (file : Option String) : Forest :=
  let inherited := match enclosing with
    | none => none
    | some m => Env.file (chain f m)
  ⟨Scope.empty (file.or inherited), enclosing⟩ :: f

@[simp] theorem length_restore (f : Forest) (n : Nat) (env : Env) :
    (restore f n env).length = f.length := by
  induction f generalizing n env with
  | nil => rfl
  | cons newest older ih =>
    unfold restore
    split
    · cases env with
      | nil => rfl
      | cons scope outer => cases h : newest.enclosing <;> simp [ih]
    · simp [ih]

/-- Putting a chain back where it was changes nothing. -/
theorem restore_chain (f : Forest) (n : Nat) : restore f n (chain f n) = f := by
  induction f generalizing n with
  | nil => rfl
  | cons newest older ih =>
    unfold restore chain
    split
    · cases h : newest.enclosing <;> simp [← h, ih]
    · simp [ih]

/-- The scopes in the order in which they were made. -/
def scopes (f : Forest) : List Scope := (f.map (·.scope)).reverse

end Forest

end Lox
