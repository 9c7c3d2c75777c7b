import Lox.Proofs.Eval.Levels
import Lox.Proofs.Scoping.Dependence

/-!
# Blocks that declare nothing

`Env.Padded depth env env'`: the chain `env` is the chain `env'` with one more scope, an empty one,
below its `depth` innermost scopes. Names are looked up and assigned alike in both, and errors are
reported in the same file; a declaration goes to the same scope if `depth` is not zero. So statements
that declare nothing in the scope they run in go in lockstep from such chains (`padded_exec`), and
the empty scope is still there at the end.

Main statement (`execBlock_transparent`): a block that declares nothing does what its statements do
without it.
-/

set_option autoImplicit false

namespace Lox

namespace Env

/-- The first chain has an empty scope that the second has not. -/
inductive Padded : Nat → Env → Env → Prop
  | here (env : Env) : Padded 0 (Env.child env) env
  | inner {depth : Nat} {env env' : Env} (scope : Scope) (h : Padded depth env env') :
      Padded (depth + 1) (scope :: env) (scope :: env')

theorem file_set? {env after : Env} {x : String} {v : Value} (h : Env.set? x v env = some after) :
    Env.file after = Env.file env := by
  have hkept : Kept (· = x) env after := .set? rfl h
  cases hkept with
  | nil => rfl
  | cons hs _ => exact hs.file

namespace Padded

variable {depth : Nat} {env env' : Env}

theorem file (h : Padded depth env env') : Env.file env = Env.file env' := by
  cases h <;> rfl

theorem get? (h : Padded depth env env') (x : String) : Env.get? env x = Env.get? env' x := by
  induction h with
  | here env => exact get?_child env x
  | inner scope _ ih =>
    rw [Env.get?, List.findSome?_cons, ← Env.get?, ih, Env.get?, Env.get?, List.findSome?_cons]

theorem set? (h : Padded depth env env') (x : String) (v : Value) :
    Option.Rel (Padded depth) (Env.set? x v env) (Env.set? x v env') := by
  induction h with
  | here env =>
    -- the empty scope holds no name, and the file it was made with is still that of the rest
    show Option.Rel _ ((Env.set? x v env).map (Scope.empty (Env.file env) :: ·)) (Env.set? x v env)
    cases hset : Env.set? x v env with
    | none => exact .none
    | some after =>
      rw [← file_set? hset]
      exact .some (.here after)
  | @inner depth env env' scope h ih =>
    unfold Env.set?
    split
    · exact .some (.inner _ h)
    · generalize Env.set? x v env = r at ih
      generalize Env.set? x v env' = r' at ih
      cases ih with
      | none => exact .none
      | some hrest => exact .some (.inner scope hrest)

theorem define (h : Padded (depth + 1) env env') (x : String) (v : Value) :
    Padded (depth + 1) (Env.define x v env) (Env.define x v env') := by
  cases h with
  | inner scope h => exact .inner _ h

theorem child (h : Padded depth env env') : Padded (depth + 1) (Env.child env) (Env.child env') := by
  rw [Env.child, Env.child, h.file]
  exact .inner _ h

theorem leave (h : Padded (depth + 1) env env') : Padded depth (Env.leave env) (Env.leave env') := by
  cases h with
  | inner scope h => exact h

end Padded

end Env

/-! ## Actions -/

namespace Lockstep

variable {depth : Nat} {α : Type}

theorem undefined_padded (name : Token) (access : Access) :
    Lockstep (Env.Padded depth) (Run.undefined name access : Run α) := by
  intro s s' h
  unfold Run.undefined
  rw [h.file]
  exact .error (.of_env h)

theorem get_padded (name : Token) : Lockstep (Env.Padded depth) (Run.get name) := by
  intro s s' h
  unfold Run.get
  rw [h.get?]
  cases Env.get? s'.env name.lexeme with
  | none => exact undefined_padded name .get s s' h
  | some value => exact .ok (.of_env h)

theorem set_padded (name : Token) (value : Value) :
    Lockstep (Env.Padded depth) (Run.set name value) := by
  intro s s' h
  have hset := h.set? name.lexeme value
  unfold Run.set
  generalize Env.set? name.lexeme value s.env = r at hset
  generalize Env.set? name.lexeme value s'.env = r' at hset
  cases hset with
  | none => exact undefined_padded name .set s s' h
  | some henv => exact .ok (.of_env henv)

theorem define_padded (name : Token) (value : Value) :
    Lockstep (Env.Padded (depth + 1)) (Run.define name value) :=
  fun _ _ h => .ok (.of_env (h.define name.lexeme value))

theorem inChild_padded {x : Run Unit} (hx : Lockstep (Env.Padded (depth + 1)) x) :
    Lockstep (Env.Padded depth) (Run.inChild x) := by
  intro s s' h
  have hbody := hx { s with env := Env.child s.env } { s' with env := Env.child s'.env } h.child
  unfold Run.inChild
  generalize x { s with env := Env.child s.env } = r at hbody
  generalize x { s' with env := Env.child s'.env } = r' at hbody
  cases hbody with
  | ok ht => exact .ok ⟨ht.env.leave, ht.output⟩
  | error ht => exact .error ⟨ht.env.leave, ht.output⟩

theorem padded_of_within {file : Option String} {x : Run α}
    (h : Run.Within file (Mention.Assigns fun _ => True) x) : Lockstep (Env.Padded depth) x := by
  induction h generalizing depth with
  | pure a => exact pure a
  | bind _ _ ihx ihf => exact bind ihx fun a => ihf a
  | get => exact get_padded _
  | set _ value => exact set_padded _ value
  | define h => exact h.elim
  | print text => exact print text
  | inChild _ ih => exact inChild_padded ih
  | halt => exact halt _

end Lockstep

/-! ## Statements -/

namespace Interpreter

variable (i : Interpreter)

theorem padded_eval {depth : Nat} (levels : Nat) {e : Node} (he : e.isExpr = true) :
    Lockstep (Env.Padded depth) (i.eval levels e) :=
  .padded_of_within (i.within_eval levels (e.assigns_of_isExpr he fun _ _ => trivial))

mutual

/-- A statement, unless it declares a name in the innermost scope and that is the empty one. -/
theorem padded_exec {depth : Nat} (levels : Nat) {a : Node} (ha : a.isStmt = true)
    (hs : a.sheltered = true) (hd : depth = 0 → a.isDecl = false) :
    Lockstep (Env.Padded depth) (i.exec levels a) := by
  cases levels with
  | zero =>
    unfold exec
    exact .halt .tooDeep
  | succ levels =>
    cases a with
    | varDecl x initial =>
      obtain ⟨depth, rfl⟩ : ∃ k, depth = k + 1 := by
        cases depth with
        | zero => cases hd rfl
        | succ k => exact ⟨k, rfl⟩
      cases initial with
      | none =>
        simp only [exec]
        exact .define_padded x .nil
      | some e =>
        simp only [exec]
        exact .bind (i.padded_eval levels ha) fun v => .define_padded x v
    | exprStmt e line =>
      simp only [exec]
      exact .bind (i.padded_eval levels ha) fun _ => .pure ()
    | print e line =>
      simp only [exec]
      exact .bind (i.padded_eval levels ha) fun v => .print v.text
    | ifElse condition thenBranch elseBranch line =>
      simp only [Node.isStmt, Node.sheltered, Bool.and_eq_true, Bool.not_eq_true'] at ha hs
      simp only [exec]
      refine .bind (i.padded_eval levels ha.1.1) fun v => ?_
      split
      · exact padded_exec levels ha.1.2 hs.1.2 fun _ => hs.1.1
      · cases elseBranch with
        | none => exact .pure ()
        | some branch =>
          simp only [Node.isStmtOption, Node.shelteredElse, Bool.and_eq_true,
            Bool.not_eq_true'] at ha hs
          exact padded_exec levels ha.2 hs.2.2 fun _ => hs.2.1
    | whileLoop condition body line =>
      simp only [Node.isStmt, Node.sheltered, Bool.and_eq_true, Bool.not_eq_true'] at ha hs
      simp only [exec]
      refine .loop (.bind (i.padded_eval levels ha.1) fun v => .pure v.truthy) ?_ i.rounds
      exact padded_exec levels ha.2 hs.2 fun _ => hs.1
    | block statements line =>
      simp only [exec]
      exact padded_execBlock levels (Node.areStmts_iff.1 ha) (Node.allSheltered_iff.1 hs)
    | literal | var | unary | binary | logical | grouping | assign | bare =>
      simp [Node.isStmt] at ha

theorem padded_execBlock {depth : Nat} (levels : Nat) {as : List Node}
    (ha : ∀ a ∈ as, a.isStmt = true) (hs : ∀ a ∈ as, a.sheltered = true) :
    Lockstep (Env.Padded depth) (i.execBlock levels as) := by
  cases levels with
  | zero =>
    unfold execBlock
    exact .halt .tooDeep
  | succ levels =>
    unfold execBlock
    refine .inChild_padded (.each fun a hmem => ?_)
    exact padded_exec levels (ha a hmem) (hs a hmem) fun h => absurd h (Nat.succ_ne_zero depth)

end

/-- With as many levels for its statements, a block that declares nothing is its statements. -/
theorem execBlock_eq_each (levels : Nat) {as : List Node} (ha : ∀ a ∈ as, a.isStmt = true)
    (hs : ∀ a ∈ as, a.sheltered = true) (hd : ∀ a ∈ as, a.isDecl = false) (s : State) :
    i.execBlock (levels + 1) as s = Run.each (i.exec levels) as s := by
  have hlockstep : Lockstep (Env.Padded 0) (Run.each (i.exec levels) as) :=
    .each fun a hmem => i.padded_exec levels (ha a hmem) (hs a hmem) fun _ => hd a hmem
  have hboth := hlockstep { s with env := Env.child s.env } s (.here s.env)
  have hstate : ∀ {t t' : State}, Abreast (Env.Padded 0) { s with env := Env.child s.env } s t t' →
      { t with env := Env.leave t.env } = t' := by
    rintro ⟨env, output⟩ ⟨env', output'⟩ ⟨henv, more, hout, hout'⟩
    cases henv
    obtain rfl : output = output' := hout.trans hout'.symm
    rfl
  unfold execBlock Run.inChild
  generalize Run.each (i.exec levels) as { s with env := Env.child s.env } = r at hboth
  generalize Run.each (i.exec levels) as s = r' at hboth
  cases hboth with
  | ok ht => rw [← hstate ht]
  | error ht => rw [← hstate ht]

/-- Statements of a block that the parser has made and that declares nothing, run as the block or one
after another in the scopes that there are, each within its own number of levels; neither run is
nested too deeply, however long its loops may go. One comes to its end if the other does. However long
the loops may go, both end in the same way, with the same error if they fail, and leave the same text
and the same bindings in every scope of the chain; scopes that are not in the chain take no part in a
run. -/
theorem execBlock_transparent {file : Option String} {as : List Node} {line : Int}
    (hp : (Node.block as line).Parsed) (hd : ∀ a ∈ as, a.isDecl = false) {m n : Nat} {s : State}
    (hm : ∀ rounds, ((execBlock ⟨file, rounds⟩ m as).outcome s).1 ≠ .error .tooDeep)
    (hn : ∀ rounds, ((Run.each (exec ⟨file, rounds⟩ n) as).outcome s).1 ≠ .error .tooDeep) :
    ((∃ rounds, (execBlock ⟨file, rounds⟩ m as).Finishes s) ↔
        ∃ rounds, (Run.each (exec ⟨file, rounds⟩ n) as).Finishes s) ∧
      ∀ rounds, (execBlock ⟨file, rounds⟩ m as).outcome s =
        (Run.each (exec ⟨file, rounds⟩ n) as).outcome s := by
  obtain ⟨ha, hs⟩ := hp.shape
  have hboth : ∀ rounds, (execBlock ⟨file, rounds⟩ m as).outcome s =
      (Run.each (exec ⟨file, rounds⟩ n) as).outcome s := by
    intro rounds
    -- both are runs with as many levels as they need together
    have hblock := outlasts_execBlock ⟨file, rounds⟩ (m := max m n + 1) (by omega : m ≤ _) as
    have heach := Outlasts.each (outlasts_exec ⟨file, rounds⟩ (Nat.le_max_right m n)) as
    rw [← hblock.outcome (hm rounds), ← heach.outcome (hn rounds), Run.outcome, Run.outcome,
      execBlock_eq_each _ _ (Node.areStmts_iff.1 ha) (Node.allSheltered_iff.1 hs) hd]
  refine ⟨exists_congr fun rounds => ?_, hboth⟩
  unfold Run.Finishes
  rw [hboth rounds]

/-- `{ while (x) { var y = x; x = nil; print y; } z = x; }`, on two lines. -/
def settleTokens : List Token :=
  [⟨.leftBrace, "\x7b", .nil, 1⟩, ⟨.whileWord, "while", .nil, 1⟩, ⟨.leftParen, "(", .nil, 1⟩,
   ⟨.identifier, "x", .nil, 1⟩, ⟨.rightParen, ")", .nil, 1⟩, ⟨.leftBrace, "\x7b", .nil, 1⟩,
   ⟨.varWord, "var", .nil, 1⟩, ⟨.identifier, "y", .nil, 1⟩, ⟨.equal, "=", .nil, 1⟩,
   ⟨.identifier, "x", .nil, 1⟩, ⟨.semicolon, ";", .nil, 1⟩, ⟨.identifier, "x", .nil, 1⟩,
   ⟨.equal, "=", .nil, 1⟩, ⟨.nilWord, "nil", .nil, 1⟩, ⟨.semicolon, ";", .nil, 1⟩,
   ⟨.printWord, "print", .nil, 1⟩, ⟨.identifier, "y", .nil, 1⟩, ⟨.semicolon, ";", .nil, 1⟩,
   ⟨.rightBrace, "\x7d", .nil, 1⟩, ⟨.identifier, "z", .nil, 2⟩, ⟨.equal, "=", .nil, 2⟩,
   ⟨.identifier, "x", .nil, 2⟩, ⟨.semicolon, ";", .nil, 2⟩, ⟨.rightBrace, "\x7d", .nil, 2⟩]

def settleTrees : List Node :=
  [.whileLoop (.var ⟨.identifier, "x", .nil, 1⟩)
     (.block
       [.varDecl ⟨.identifier, "y", .nil, 1⟩ (some (.var ⟨.identifier, "x", .nil, 1⟩)),
        .exprStmt (.assign ⟨.identifier, "x", .nil, 1⟩ (.literal .nil)) 1,
        .print (.var ⟨.identifier, "y", .nil, 1⟩) 1] 1) 1,
   .exprStmt (.assign ⟨.identifier, "z", .nil, 2⟩ (.var ⟨.identifier, "x", .nil, 2⟩)) 2]

def settleStart : State := ⟨[⟨[("x", .str "a")], some "f"⟩, ⟨[("y", .nil)], none⟩], ""⟩

theorem execBlock_transparent_undefined :
    (Node.block settleTrees 1).Parsed ∧ (∀ a ∈ settleTrees, a.isDecl = false) ∧
      ((∃ rounds, (execBlock ⟨none, rounds⟩ 9 settleTrees).Finishes settleStart) ↔
        ∃ rounds, (Run.each (exec ⟨none, rounds⟩ 6) settleTrees).Finishes settleStart) ∧
      ∀ rounds, (execBlock ⟨none, rounds + 2⟩ 9 settleTrees).outcome settleStart =
          (.error (.error (.run ⟨.undefined "z" .set, 2, some "f"⟩)),
            ⟨[⟨[("x", .nil)], some "f"⟩, ⟨[("y", .nil)], none⟩], "a\n"⟩) ∧
        (Run.each (exec ⟨none, rounds + 2⟩ 6) settleTrees).outcome settleStart =
          (execBlock ⟨none, rounds + 2⟩ 9 settleTrees).outcome settleStart := by
  have hparsed : (Node.block settleTrees 1).Parsed :=
    ⟨20, .block, Cursor.start settleTokens, ⟨.eof 2, []⟩, rfl, Cursor.closed_start _, rfl⟩
  have hdecl : ∀ a ∈ settleTrees, a.isDecl = false := by simp [settleTrees, Node.isDecl]
  -- the loop goes one round and then needs another to see that its condition fails
  have hblock : ∀ rounds,
      ((execBlock ⟨none, rounds⟩ 9 settleTrees).outcome settleStart).1 ≠ .error .tooDeep := by
    rintro (_ | _ | rounds) ⟨⟩
  have heach : ∀ rounds,
      ((Run.each (exec ⟨none, rounds⟩ 6) settleTrees).outcome settleStart).1 ≠ .error .tooDeep := by
    rintro (_ | _ | rounds) ⟨⟩
  obtain ⟨hfinish, hsame⟩ := execBlock_transparent hparsed hdecl hblock heach
  exact ⟨hparsed, hdecl, hfinish, fun rounds => ⟨rfl, (hsame (rounds + 2)).symm⟩⟩

end Interpreter

end Lox
