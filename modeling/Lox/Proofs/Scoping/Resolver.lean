import Mathlib.Data.List.Forall2
import Lox.Eval
import Lox.Proofs.Grammar.Shape

/-!
# The resolver

One pass over a tree in source order, with a stack of name sets, innermost first. A declaration adds
its name to the innermost set after its initializer; a block has a set of its own, which is gone
after it. `Node.resolve` gives each place that reads or assigns a variable the number of sets to
climb to the nearest one with the name.

`Matches scopes env`: the stack has, set by set, the names that the scopes of `env` bind. Then the
pass and the run find a name at the same height (`Matches.owner?_eq`). Defining, assigning, entering
and leaving a scope keep the two in step.
-/

set_option autoImplicit false

namespace Lox

/-- The names that are declared in each scope, innermost first. -/
abbrev Scopes := List (List String)

namespace Scopes

/-- How many sets to climb to the nearest one with the name. -/
def depth? (scopes : Scopes) (name : String) : Option Nat := scopes.findIdx? (name ∈ ·)

/-- Adds a name to the innermost set. -/
def declare (name : String) : Scopes → Scopes
  | [] => [[name]]
  | names :: outer => (name :: names) :: outer

end Scopes

/-- A place that reads or assigns a variable, and how many scopes its binding is away. -/
structure Reference where
  name : Token
  access : Access
  depth : Option Nat

/-- A step of the resolver: the references it finds, and the stack after it. -/
abbrev Pass := Scopes → List Reference × Scopes

namespace Pass

def skip : Pass := fun scopes => ([], scopes)

def seq (p q : Pass) : Pass := fun scopes =>
  ((p scopes).1 ++ (q (p scopes).2).1, (q (p scopes).2).2)

def refer (name : Token) (access : Access) : Pass := fun scopes =>
  ([⟨name, access, scopes.depth? name.lexeme⟩], scopes)

def declare (name : Token) : Pass := fun scopes => ([], scopes.declare name.lexeme)

/-- A pass with a set of its own. -/
def inChild (p : Pass) : Pass := fun scopes => ((p ([] :: scopes)).1, (p ([] :: scopes)).2.tail)

end Pass

namespace Node

mutual

/-- Finds the references of a tree in source order. -/
def resolve : Node → Pass
  | literal _ | bare _ => .skip
  | var x => .refer x .get
  | unary _ a _ | grouping a | exprStmt a _ | print a _ => a.resolve
  | binary a _ b _ | logical a _ b _ | whileLoop a b _ => .seq a.resolve b.resolve
  | assign x a => .seq (.refer x .set) a.resolve
  | varDecl x none => .declare x
  | varDecl x (some a) => .seq a.resolve (.declare x)
  | ifElse c t none _ => .seq c.resolve t.resolve
  | ifElse c t (some e) _ => .seq c.resolve (.seq t.resolve e.resolve)
  | block as _ => .inChild (resolveAll as)

/-- Finds the references of a program in source order. -/
def resolveAll : List Node → Pass
  | [] => .skip
  | a :: as => .seq a.resolve (resolveAll as)

end

mutual

/-- How many references a tree has. -/
def references : Node → Nat
  | literal _ | bare _ | varDecl _ none => 0
  | var _ => 1
  | unary _ a _ | grouping a | exprStmt a _ | print a _ | varDecl _ (some a) => a.references
  | binary a _ b _ | logical a _ b _ | whileLoop a b _ | ifElse a b none _ =>
    a.references + b.references
  | assign _ a => a.references + 1
  | ifElse c t (some e) _ => c.references + (t.references + e.references)
  | block as _ => allReferences as

def allReferences : List Node → Nat
  | [] => 0
  | a :: as => a.references + allReferences as

end

end Node

namespace Pass

variable (p q : Pass) (scopes : Scopes)

@[simp] theorem length_seq :
    (p.seq q scopes).1.length = (p scopes).1.length + (q (p scopes).2).1.length :=
  List.length_append

@[simp] theorem length_inChild : (p.inChild scopes).1.length = (p ([] :: scopes)).1.length := rfl

@[simp] theorem snd_seq : (p.seq q scopes).2 = (q (p scopes).2).2 := rfl

end Pass

namespace Node

mutual

theorem length_resolve (a : Node) (scopes : Scopes) :
    (a.resolve scopes).1.length = a.references := by
  cases a with
  | literal | bare | var => rfl
  | unary _ a | grouping a | exprStmt a | print a => exact a.length_resolve scopes
  | binary a _ b | logical a _ b | whileLoop a b =>
    simp [resolve, references, length_resolve]
  | assign x a =>
    simp only [resolve, references, Pass.length_seq, length_resolve]
    exact Nat.add_comm _ _
  | varDecl x e => cases e <;> simp [resolve, references, Pass.declare, length_resolve]
  | ifElse c t e => cases e <;> simp [resolve, references, length_resolve]
  | block as => simp [resolve, references, length_resolveAll]

theorem length_resolveAll (as : List Node) (scopes : Scopes) :
    (resolveAll as scopes).1.length = allReferences as := by
  cases as with
  | nil => rfl
  | cons a as => simp [resolveAll, allReferences, length_resolve, length_resolveAll]

end

/-- Expressions declare nothing. -/
theorem snd_resolve_of_isExpr (a : Node) (ha : a.isExpr = true) (scopes : Scopes) :
    (a.resolve scopes).2 = scopes := by
  match a with
  | literal _ | var _ => rfl
  | unary _ a _ =>
    simp only [isExpr, Bool.and_eq_true] at ha
    exact a.snd_resolve_of_isExpr ha.2 scopes
  | grouping a | assign _ a => exact a.snd_resolve_of_isExpr ha scopes
  | binary a _ b _ | logical a _ b _ =>
    simp only [isExpr, Bool.and_eq_true] at ha
    simp [resolve, snd_resolve_of_isExpr, ha]
  | varDecl _ _ | exprStmt _ _ | print _ _ | ifElse _ _ _ _ | whileLoop _ _ _ | block _ _
  | bare _ => simp [isExpr] at ha

mutual

/-- A statement declares nothing in the scopes around it, unless it is a declaration. -/
theorem snd_resolve_of_isStmt (a : Node) (ha : a.isStmt = true) (hs : a.sheltered = true)
    (hd : a.isDecl = false) (scopes : Scopes) : (a.resolve scopes).2 = scopes := by
  match a with
  | exprStmt a _ | print a _ => exact a.snd_resolve_of_isExpr ha scopes
  | ifElse c t none _ =>
    simp only [isStmt, sheltered, Bool.and_eq_true, Bool.not_eq_true'] at ha hs
    simp [resolve, c.snd_resolve_of_isExpr, t.snd_resolve_of_isStmt, ha, hs]
  | ifElse c t (some e) _ =>
    simp only [isStmt, isStmtOption, sheltered, shelteredElse, Bool.and_eq_true,
      Bool.not_eq_true'] at ha hs
    simp [resolve, c.snd_resolve_of_isExpr, t.snd_resolve_of_isStmt, e.snd_resolve_of_isStmt, ha,
      hs]
  | whileLoop c t _ =>
    simp only [isStmt, sheltered, Bool.and_eq_true, Bool.not_eq_true'] at ha hs
    simp [resolve, c.snd_resolve_of_isExpr, t.snd_resolve_of_isStmt, ha, hs]
  | block as _ => exact tail_resolveAll as ha hs [] scopes
  | varDecl _ _ => cases hd
  | literal _ | var _ | unary _ _ _ | grouping _ | assign _ _ | binary _ _ _ _ | logical _ _ _ _
  | bare _ => simp [isStmt] at ha

/-- Statements declare nothing outside of the innermost scope. -/
theorem tail_resolveAll (as : List Node) (ha : areStmts as = true) (hs : allSheltered as = true)
    (names : List String) (scopes : Scopes) :
    (resolveAll as (names :: scopes)).2.tail = scopes := by
  match as with
  | [] => rfl
  | a :: as =>
    simp only [areStmts, allSheltered, Bool.and_eq_true] at ha hs
    have hrest := tail_resolveAll as ha.2 hs.2
    match a with
    | varDecl x none => exact hrest _ scopes
    | varDecl x (some e) =>
      simp only [resolveAll, resolve, Pass.snd_seq, e.snd_resolve_of_isExpr ha.1]
      exact hrest _ scopes
    | literal _ | var _ | unary _ _ _ | grouping _ | assign _ _ | binary _ _ _ _
    | logical _ _ _ _ | bare _ | exprStmt _ _ | print _ _ | ifElse _ _ _ _ | whileLoop _ _ _
    | block _ _ =>
      simp only [resolveAll, Pass.snd_seq, snd_resolve_of_isStmt _ ha.1 hs.1 rfl]
      exact hrest names scopes

end

end Node

/-! ## Stacks of names and chains of scopes -/

/-- The stack has, set by set, the names that the scopes bind. -/
abbrev Matches : Scopes → Env → Prop :=
  List.Forall₂ (fun names scope => ∀ x, x ∈ names ↔ scope.holds x = true)

theorem Scope.holds_define (s : Scope) (name other : String) (value : Value) :
    (s.define name value).holds other = true ↔ other = name ∨ s.holds other = true := by
  unfold holds
  rw [find?_define]
  by_cases h : other = name <;> simp [h]

namespace Matches

variable {scopes : Scopes} {env : Env}

/-- The pass and the run find a name at the same height. -/
theorem owner?_eq (h : Matches scopes env) (name : String) :
    Env.owner? env name = scopes.depth? name := by
  unfold Env.owner? Scopes.depth?
  induction h with
  | nil => rfl
  | cons hs _ ih => simp [List.findIdx?_cons, ih, ← hs name]

theorem define (h : Matches scopes env) (name : String) (value : Value) :
    Matches (scopes.declare name) (Env.define name value env) := by
  cases h with
  | nil =>
    refine .cons (fun x => ?_) .nil
    rw [Scope.holds_define]
    simp [Scope.holds]
  | cons hs ho =>
    refine .cons (fun x => ?_) ho
    rw [Scope.holds_define, List.mem_cons, hs x]

/-- Assigning changes no scope's names. -/
theorem set? {env' : Env} (h : Matches scopes env) {name : String} {value : Value}
    (hset : Env.set? name value env = some env') : Matches scopes env' := by
  induction h generalizing env' with
  | nil => cases hset
  | @cons names scope scopes env hs ho ih =>
    unfold Env.set? at hset
    split at hset
    · rename_i hh
      cases hset
      refine .cons (fun x => ?_) ho
      rw [Scope.holds_define, hs x]
      exact ⟨.inr, fun hx => hx.elim (fun hx => hx ▸ hh) id⟩
    · obtain ⟨outer, houter, rfl⟩ := Option.map_eq_some_iff.1 hset
      exact .cons hs (ih houter)

theorem child (h : Matches scopes env) : Matches ([] :: scopes) (Env.child env) :=
  .cons (fun x => by simp [Scope.holds]) h

theorem leave (h : Matches scopes env) : Matches scopes.tail (Env.leave env) := by
  cases h with
  | nil => exact .nil
  | cons _ ho => exact ho

end Matches

namespace Env

theorem get?_eq_none_iff (env : Env) (name : String) :
    get? env name = none ↔ owner? env name = none := by
  simp [get?, owner?, Scope.holds]

theorem set?_eq_none_iff (env : Env) (name : String) (value : Value) :
    set? name value env = none ↔ owner? env name = none := by
  induction env with
  | nil => simp [set?, owner?]
  | cons scope outer ih =>
    unfold set? owner?
    cases h : scope.holds name
    · simpa [List.findIdx?_cons, h, owner?] using ih
    · simp [List.findIdx?_cons, h]

end Env

end Lox
