import Lox.Proofs.Eval.Lockstep
import Lox.Proofs.Scoping.Frame

/-!
# What a statement depends on

`Env.SameOn names env env'`: the chains have the same files and, scope by scope, the same bindings for
the given names; other names may be bound to other values, or in one chain only. Actions with the
given names do not tell such chains apart (`indistinct_sameOn`).

Main statement (`exec_dependence`): a statement does the same in two chains that are the same on all
names that it mentions, and it changes neither chain under another name.
-/

set_option autoImplicit false

namespace Lox

/-- The scopes have the same file and the same bindings for the given names. -/
structure Scope.SameOn (names : String → Prop) (s s' : Scope) : Prop where
  file : s.file = s'.file
  find? : ∀ x, names x → s.find? x = s'.find? x

namespace Scope.SameOn

variable {names : String → Prop} {s s' : Scope} {x : String}

theorem holds (h : s.SameOn names s') (hx : names x) : s.holds x = s'.holds x := by
  rw [Scope.holds, Scope.holds, h.find? x hx]

theorem define (h : s.SameOn names s') (v : Value) :
    (s.define x v).SameOn names (s'.define x v) := by
  refine ⟨h.file, fun y hy => ?_⟩
  rw [Scope.find?_define, Scope.find?_define, h.find? y hy]

end Scope.SameOn

namespace Env

/-- The chains have, scope by scope, the same files and the same bindings for the given names. -/
abbrev SameOn (names : String → Prop) : Env → Env → Prop := List.Forall₂ (Scope.SameOn names)

section
variable {names : String → Prop} {env env' : Env} {x : String}

theorem SameOn.get? (h : SameOn names env env') (hx : names x) : Env.get? env x = Env.get? env' x := by
  unfold Env.get?
  induction h with
  | nil => rfl
  | cons hs _ ih => rw [List.findSome?_cons, List.findSome?_cons, hs.find? x hx, ih]

theorem SameOn.set? (h : SameOn names env env') (hx : names x) (v : Value) :
    Option.Rel (SameOn names) (Env.set? x v env) (Env.set? x v env') := by
  induction h with
  | nil => exact .none
  | @cons s s' outer outer' hs houter ih =>
    unfold Env.set?
    rw [hs.holds hx]
    split
    · exact .some (.cons (hs.define v) houter)
    · generalize Env.set? x v outer = r at ih
      generalize Env.set? x v outer' = r' at ih
      cases ih with
      | none => exact .none
      | some hrest => exact .some (.cons hs hrest)

theorem SameOn.define (h : SameOn names env env') (v : Value) :
    SameOn names (Env.define x v env) (Env.define x v env') := by
  cases h with
  | nil => exact .cons ⟨rfl, fun _ _ => rfl⟩ .nil
  | cons hs houter => exact .cons (hs.define v) houter

end

/-- Chains that are the same on some names are not told apart by them. -/
theorem indistinct_sameOn (names : String → Prop) : Indistinct names (SameOn names) where
  file h := by
    cases h with
    | nil => rfl
    | cons hs _ => exact hs.file
  get? h hx := h.get? hx
  set? v h hx := h.set? hx v
  define v h _ := h.define v
  child h := by
    cases h with
    | nil => exact .cons ⟨rfl, fun _ _ => rfl⟩ .nil
    | cons hs houter => exact .cons ⟨hs.file, fun _ _ => rfl⟩ (.cons hs houter)
  leave h := by
    cases h with
    | nil => exact .nil
    | cons _ houter => exact houter

/-- What is neither declared nor assigned is the same as before. -/
theorem Changed.sameOn {declared assigned names : String → Prop} {env env' : Env}
    (h : Changed declared assigned env env') (hd : ∀ x, declared x → ¬ names x)
    (ha : ∀ x, assigned x → ¬ names x) : SameOn names env env' := by
  induction h with
  | nil => exact .nil
  | cons hs _ ih =>
    refine .cons ⟨hs.file.symm, fun x hx => ?_⟩ (ih (fun x hx => hx.elim) fun x hx => ha x hx.1)
    exact (hs.values x (fun hx' => hd x hx' hx) fun hx' => ha x hx' hx).symm

end Env

/-! ## Names that a tree mentions -/

namespace Node

variable {names : String → Prop} {x : String}

theorem names_of_declares {a : Node} (h : a.Names names) (hx : a.declares x = true) : names x := by
  cases a with
  | varDecl name initial =>
    rw [← beq_iff_eq.1 hx]
    cases initial <;> exact h _ List.mem_cons_self _ rfl
  | _ => cases hx

mutual

theorem names_of_assigns (a : Node) (h : a.Names names) (hx : a.assigns x = true) : names x := by
  match a with
  | literal _ | var _ | bare _ | varDecl _ none => simp [assigns] at hx
  | grouping a => exact a.names_of_assigns h hx
  | unary _ a _ | exprStmt a _ | print a _ | varDecl _ (some a) =>
    exact a.names_of_assigns (List.forall_mem_cons.1 h).2 hx
  | assign name a =>
    obtain ⟨hname, ha⟩ := List.forall_mem_cons.1 h
    rw [assigns, Bool.or_eq_true] at hx
    rcases hx with hx | hx
    · exact beq_iff_eq.1 hx ▸ hname _ rfl
    · exact a.names_of_assigns ha hx
  | logical a _ b _ =>
    obtain ⟨ha, hb⟩ := List.forall_mem_append.1 h
    rw [assigns, Bool.or_eq_true] at hx
    rcases hx with hx | hx
    · exact a.names_of_assigns ha hx
    · exact b.names_of_assigns hb hx
  | binary a _ b _ | whileLoop a b _ | ifElse a b none _ =>
    obtain ⟨ha, hb⟩ := List.forall_mem_append.1 (List.forall_mem_cons.1 h).2
    rw [assigns, Bool.or_eq_true] at hx
    rcases hx with hx | hx
    · exact a.names_of_assigns ha hx
    · exact b.names_of_assigns hb hx
  | ifElse c t (some e) _ =>
    obtain ⟨hc, hbranches⟩ := List.forall_mem_append.1 (List.forall_mem_cons.1 h).2
    obtain ⟨ht, he⟩ := List.forall_mem_append.1 hbranches
    rw [assigns, Bool.or_eq_true, Bool.or_eq_true] at hx
    rcases hx with hx | hx | hx
    · exact c.names_of_assigns hc hx
    · exact t.names_of_assigns ht hx
    · exact e.names_of_assigns he hx
  | block as _ => exact names_of_anyAssigns as (List.forall_mem_cons.1 h).2 hx

theorem names_of_anyAssigns (as : List Node)
    (h : ∀ m ∈ allMentions as, ∀ name ∈ m.name?, names name.lexeme)
    (hx : anyAssigns x as = true) : names x := by
  match as with
  | [] => simp [anyAssigns] at hx
  | a :: as =>
    obtain ⟨ha, has⟩ := List.forall_mem_append.1 h
    rw [anyAssigns, Bool.or_eq_true, Bool.and_eq_true] at hx
    rcases hx with hx | hx
    · exact a.names_of_assigns ha hx
    · exact names_of_anyAssigns as has hx.2

end

end Node

/-! ## Statements -/

/-- The run comes to its end, well or not. -/
def Run.Finishes {α : Type} (x : Run α) (s : State) : Prop :=
  (x.outcome s).1 ≠ .error .unfinished

namespace Interpreter

/-- A statement changes nothing under a name that it does not mention. -/
theorem exec_sameOn (i : Interpreter) (levels : Nat) {a : Node} (ha : a.Parsed)
    {names : String → Prop} (hnames : a.Names names) {s t : State} (hs : s.env ≠ [])
    {ending : Except Failure Unit} (hrun : (i.exec levels a).outcome s = (ending, t)) :
    Env.SameOn (¬ names ·) s.env t.env := by
  obtain ⟨hstmt, hsheltered⟩ := ha.shape
  have hassigned : ∀ x, a.assigns x = true → ¬ ¬ names x :=
    fun x hx => not_not_intro (a.names_of_assigns hnames hx)
  rcases (i.changes_exec levels hstmt hsheltered s hs).of_outcome hrun with
    ⟨_, _, ht⟩ | ⟨_, _, ht⟩
  · refine ht.env.sameOn (fun x hx => ?_) hassigned
    exact not_not_intro (Node.names_of_declares hnames hx)
  · exact ht.env.sameOn (fun _ hx => hx.elim) hassigned

/-- A statement of the parser, run from two chains that have the same bindings, scope by scope, for
all names that it mentions. It comes to its end from one if it does from the other. However long its
loops may go, it ends in the same way and prints the same; the chains that it leaves still have the
same bindings for these names, and each has its old ones for all others. -/
theorem exec_dependence (file : Option String) (levels : Nat) {a : Node} (ha : a.Parsed)
    {names : String → Prop} (hnames : a.Names names) (s s' : State) (hs : s.env ≠ [])
    (h : Env.SameOn names s.env s'.env) :
    ((∃ rounds, (exec ⟨file, rounds⟩ levels a).Finishes s) ↔
        ∃ rounds, (exec ⟨file, rounds⟩ levels a).Finishes s') ∧
      ∀ rounds, ∃ ending t t' more,
        (exec ⟨file, rounds⟩ levels a).outcome s = (ending, t) ∧
          (exec ⟨file, rounds⟩ levels a).outcome s' = (ending, t') ∧
          t.output = s.output ++ more ∧ t'.output = s'.output ++ more ∧
          Env.SameOn names t.env t'.env ∧
          Env.SameOn (¬ names ·) s.env t.env ∧ Env.SameOn (¬ names ·) s'.env t'.env := by
  have hs' : s'.env ≠ [] := by
    intro hnil
    rw [hnil] at h
    exact hs (List.forall₂_nil_right_iff.1 h)
  have hlockstep : ∀ rounds, ∃ ending t t',
      (exec ⟨file, rounds⟩ levels a).outcome s = (ending, t) ∧
        (exec ⟨file, rounds⟩ levels a).outcome s' = (ending, t') ∧
        Abreast (Env.SameOn names) s s' t t' := fun rounds =>
    (lockstep_exec (Env.indistinct_sameOn names) ⟨file, rounds⟩ levels hnames).outcome s s' h
  refine ⟨?_, fun rounds => ?_⟩
  · -- the two runs end alike within every number of rounds
    refine exists_congr fun rounds => ?_
    obtain ⟨ending, t, t', hrun, hrun', -⟩ := hlockstep rounds
    unfold Run.Finishes
    rw [hrun, hrun']
  · obtain ⟨ending, t, t', hrun, hrun', ht⟩ := hlockstep rounds
    obtain ⟨more, hout, hout'⟩ := ht.output
    exact ⟨ending, t, t', more, hrun, hrun', hout, hout', ht.env,
      exec_sameOn _ levels ha hnames hs hrun, exec_sameOn _ levels ha hnames hs' hrun'⟩

/-- `{ var y = x; x = y; print y; z; }`, on four lines. -/
def probeTokens : List Token :=
  [⟨.leftBrace, "\x7b", .nil, 1⟩, ⟨.varWord, "var", .nil, 1⟩, ⟨.identifier, "y", .nil, 1⟩,
   ⟨.equal, "=", .nil, 1⟩, ⟨.identifier, "x", .nil, 1⟩, ⟨.semicolon, ";", .nil, 1⟩,
   ⟨.identifier, "x", .nil, 2⟩, ⟨.equal, "=", .nil, 2⟩, ⟨.identifier, "y", .nil, 2⟩,
   ⟨.semicolon, ";", .nil, 2⟩, ⟨.printWord, "print", .nil, 3⟩, ⟨.identifier, "y", .nil, 3⟩,
   ⟨.semicolon, ";", .nil, 3⟩, ⟨.identifier, "z", .nil, 4⟩, ⟨.semicolon, ";", .nil, 4⟩,
   ⟨.rightBrace, "\x7d", .nil, 4⟩]

def probeTree : Node :=
  .block
    [.varDecl ⟨.identifier, "y", .nil, 1⟩ (some (.var ⟨.identifier, "x", .nil, 1⟩)),
     .exprStmt (.assign ⟨.identifier, "x", .nil, 2⟩ (.var ⟨.identifier, "y", .nil, 2⟩)) 2,
     .print (.var ⟨.identifier, "y", .nil, 3⟩) 3,
     .exprStmt (.var ⟨.identifier, "z", .nil, 4⟩) 4] 1

def probeEnv : Env := [⟨[("x", .str "a"), ("u", .bool true)], some "f"⟩, ⟨[("y", .nil)], none⟩]

/-- Another value of `u`, in another scope. -/
def probeEnv' : Env := [⟨[("x", .str "a")], some "f"⟩, ⟨[("u", .nil), ("y", .nil)], none⟩]

theorem exec_dependence_undefined :
    probeTree.Parsed ∧ probeTree.Names (· ∈ ["x", "y", "z"]) ∧
      Env.SameOn (· ∈ ["x", "y", "z"]) probeEnv probeEnv' ∧
      ∃ t t', (exec ⟨none, 1⟩ 9 probeTree).outcome ⟨probeEnv, ""⟩ =
          (.error (.error (.run ⟨.undefined "z" .get, 4, some "f"⟩)), t) ∧
        (exec ⟨none, 1⟩ 9 probeTree).outcome ⟨probeEnv', "b\n"⟩ =
          (.error (.error (.run ⟨.undefined "z" .get, 4, some "f"⟩)), t') ∧
        t.output = "a\n" ∧ t'.output = "b\na\n" ∧ Env.SameOn (· ∈ ["x", "y", "z"]) t.env t'.env := by
  have hparsed : probeTree.Parsed :=
    ⟨20, .block, Cursor.start probeTokens, ⟨.eof 4, []⟩, rfl, Cursor.closed_start _, rfl⟩
  have hnames : probeTree.Names (· ∈ ["x", "y", "z"]) := by
    simp [Node.Names, probeTree, Node.mentions, Node.allMentions, Mention.name?]
  have hsame : Env.SameOn (· ∈ ["x", "y", "z"]) probeEnv probeEnv' := by
    refine .cons ⟨rfl, ?_⟩ (.cons ⟨rfl, ?_⟩ .nil) <;> simp [Scope.find?, List.lookup_cons]
  obtain ⟨-, hrounds⟩ := exec_dependence none 9 hparsed hnames ⟨probeEnv, ""⟩ ⟨probeEnv', "b\n"⟩
    (by simp [probeEnv]) hsame
  obtain ⟨ending, t, t', more, hrun, hrun', hout, hout', henv, -, -⟩ := hrounds 1
  have hfirst : (exec ⟨none, 1⟩ 9 probeTree).outcome ⟨probeEnv, ""⟩ =
      (.error (.error (.run ⟨.undefined "z" .get, 4, some "f"⟩)), ⟨probeEnv, "a\n"⟩) := rfl
  rw [hfirst, Prod.mk.injEq] at hrun
  obtain ⟨rfl, rfl⟩ := hrun
  rw [String.empty_append] at hout
  refine ⟨hparsed, hnames, hsame, _, t', hfirst, hrun', rfl, ?_, henv⟩
  rw [hout', ← hout]
  rfl

end Interpreter

end Lox
