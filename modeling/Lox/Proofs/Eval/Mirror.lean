import Lox.Eval
import Lox.Proofs.Grammar.Relabel

/-!
# Lines and files in runs

A run that does not fail looks neither at lines nor at files, nor at what was printed before.
`Mirrors before x y`: whenever `x` succeeds, `y` succeeds with the same value from every state with
the same bindings; what `x` had printed before is `before` and what the two print more is the same.
`mirrors_interpret` says so of a program and the same program with other lines.
-/

set_option autoImplicit false

namespace Lox

/-- States with the same bindings. The first has printed `before`, and then what the second has. -/
structure Alike (before : String) (s t : State) : Prop where
  env : s.env.map Scope.bindings = t.env.map Scope.bindings
  output : s.output = before ++ t.output

namespace Env

variable {env env' : Env} (h : env.map Scope.bindings = env'.map Scope.bindings)
include h

theorem get?_congr (name : String) : get? env name = get? env' name := by
  have hmap : ∀ env : Env,
      get? env name = (env.map Scope.bindings).findSome? (·.lookup name) := fun env => by
    rw [List.findSome?_map]
    rfl
  rw [hmap, hmap, h]

theorem define_congr (name : String) (value : Value) :
    (define name value env).map Scope.bindings = (define name value env').map Scope.bindings := by
  cases env with
  | nil =>
    obtain rfl : env' = [] := by simpa using h.symm
    rfl
  | cons scope outer =>
    cases env' with
    | nil => simp at h
    | cons scope' outer' =>
      simp only [List.map_cons, List.cons.injEq] at h
      simp [define, Scope.define, h]

theorem set?_congr {name : String} {value : Value} {after : Env}
    (hset : set? name value env = some after) :
    ∃ after', set? name value env' = some after' ∧
      after.map Scope.bindings = after'.map Scope.bindings := by
  induction env generalizing env' after with
  | nil => cases hset
  | cons scope outer ih =>
    cases env' with
    | nil => simp at h
    | cons scope' outer' =>
      simp only [List.map_cons, List.cons.injEq] at h
      have hholds : scope'.holds name = scope.holds name := by
        simp [Scope.holds, Scope.find?, h.1]
      unfold set? at hset ⊢
      rw [hholds]
      split at hset
      · rename_i hh
        cases hset
        rw [if_pos hh]
        exact ⟨_, rfl, by simp [Scope.define, h]⟩
      · rename_i hh
        obtain ⟨rest, hrest, rfl⟩ := Option.map_eq_some_iff.1 hset
        obtain ⟨rest', hrest', heq⟩ := ih h.2 hrest
        rw [if_neg hh, hrest']
        exact ⟨_, rfl, by simp [h.1, heq]⟩

end Env

/-- Whenever `x` succeeds, `y` succeeds in the same way from every state that is alike. -/
def Mirrors (before : String) {α : Type} (x y : Run α) : Prop :=
  ∀ ⦃s s' t : State⦄ ⦃a : α⦄, Alike before s s' → x s = .ok a t →
    ∃ t', y s' = .ok a t' ∧ Alike before t t'

theorem Run.bind_ok_iff {α β : Type} {x : Run α} {f : α → Run β} {s t : State} {b : β} :
    (x >>= f) s = .ok b t ↔ ∃ a u, x s = .ok a u ∧ f a u = .ok b t := by
  show EStateM.bind x f s = .ok b t ↔ _
  unfold EStateM.bind
  cases x s with
  | ok a u =>
    constructor
    · intro h
      exact ⟨a, u, rfl, h⟩
    · rintro ⟨_, _, h, h'⟩
      cases h
      exact h'
  | error e u =>
    constructor
    · intro h
      cases h
    · rintro ⟨_, _, h, -⟩
      cases h

namespace Mirrors

variable {before : String} {α β : Type}

theorem pure (a : α) : Mirrors before (Pure.pure a) (Pure.pure a) := by
  intro s s' t b hs h
  cases h
  exact ⟨s', rfl, hs⟩

theorem halt (h : Halt) (y : Run α) : Mirrors before (Run.halt h) y := by
  intro s s' t a _ h
  cases h

theorem bind {x y : Run α} {f g : α → Run β} (h : Mirrors before x y)
    (hf : ∀ a, Mirrors before (f a) (g a)) : Mirrors before (x >>= f) (y >>= g) := by
  intro s s' t b hs hrun
  obtain ⟨a, u, hx, hfa⟩ := Run.bind_ok_iff.1 hrun
  obtain ⟨u', hy, hu⟩ := h hs hx
  obtain ⟨t', hg, ht⟩ := hf a hu hfa
  exact ⟨t', Run.bind_ok_iff.2 ⟨a, u', hy, hg⟩, ht⟩

theorem get (name : Token) (f : Int → Int) :
    Mirrors before (Run.get name) (Run.get (name.relabel f)) := by
  intro s s' t a hs h
  have hget := Env.get?_congr hs.env name.lexeme
  unfold Run.get at h ⊢
  cases hv : Env.get? s.env name.lexeme with
  | none =>
    rw [hv] at h
    cases h
  | some value =>
    rw [hv] at h hget
    cases h
    exact ⟨s', by rw [show (name.relabel f).lexeme = name.lexeme from rfl, ← hget], hs⟩

theorem set (name : Token) (f : Int → Int) (value : Value) :
    Mirrors before (Run.set name value) (Run.set (name.relabel f) value) := by
  intro s s' t a hs h
  unfold Run.set at h ⊢
  cases hv : Env.set? name.lexeme value s.env with
  | none =>
    rw [hv] at h
    cases h
  | some env =>
    rw [hv] at h
    cases h
    obtain ⟨env', hset, henv⟩ := Env.set?_congr hs.env hv
    exact ⟨{ s' with env := env' },
      by rw [show (name.relabel f).lexeme = name.lexeme from rfl, hset], henv, hs.output⟩

theorem define (name : Token) (f : Int → Int) (value : Value) :
    Mirrors before (Run.define name value) (Run.define (name.relabel f) value) := by
  intro s s' t a hs h
  cases h
  exact ⟨_, rfl, Env.define_congr hs.env name.lexeme value, hs.output⟩

theorem print (text : String) : Mirrors before (Run.print text) (Run.print text) := by
  intro s s' t a hs h
  cases h
  exact ⟨_, rfl, hs.env, by simp [hs.output, String.append_assoc]⟩

theorem inChild {x y : Run Unit} (h : Mirrors before x y) :
    Mirrors before (Run.inChild x) (Run.inChild y) := by
  intro s s' t a hs hrun
  have hchild : Alike before { s with env := Env.child s.env }
      { s' with env := Env.child s'.env } := by
    refine ⟨?_, hs.output⟩
    simpa [Env.child, Scope.empty] using hs.env
  unfold Run.inChild at hrun ⊢
  cases hx : x { s with env := Env.child s.env } with
  | error e u =>
    rw [hx] at hrun
    cases hrun
  | ok b u =>
    rw [hx] at hrun
    cases hrun
    obtain ⟨u', hy, hu⟩ := h hchild hx
    rw [hy]
    refine ⟨_, rfl, ?_, hu.output⟩
    simpa [Env.leave, List.map_tail] using congrArg List.tail hu.env

theorem loop {c c' : Run Bool} {x y : Run Unit} (hc : Mirrors before c c')
    (h : Mirrors before x y) (rounds : Nat) :
    Mirrors before (Run.loop c x rounds) (Run.loop c' y rounds) := by
  induction rounds with
  | zero => exact halt _ _
  | succ rounds ih =>
    refine bind hc fun b => ?_
    cases b with
    | true => exact bind h fun _ => ih
    | false => exact pure ()

theorem each {exec exec' : Node → Run Unit} {g : Node → Node}
    (h : ∀ node, Mirrors before (exec node) (exec' (g node))) (nodes : List Node) :
    Mirrors before (Run.each exec nodes) (Run.each exec' (nodes.map g)) := by
  induction nodes with
  | nil => exact pure ()
  | cons node nodes ih => exact bind (h node) fun _ => ih

end Mirrors

namespace Interpreter

variable {before : String} {i j : Interpreter}

theorem mirrors_blame {α : Type} (i : Interpreter) (levels : Nat) (node : Node)
    (fault : String → RunFault) (line : Int) (y : Run α) :
    Mirrors before (i.blame levels node fault line) y := by
  unfold blame
  cases node.render levels 0 <;> exact .halt _ y

theorem mirrors_eval (i j : Interpreter) (f : Int → Int) (levels : Nat) (node : Node) :
    Mirrors before (i.eval levels node) (j.eval levels (node.relabel f)) := by
  induction levels generalizing node with
  | zero => exact .halt _ _
  | succ levels ih =>
    cases node with
    | literal value => exact .pure value
    | var name => exact .get name f
    | grouping inner => exact ih inner
    | assign target value =>
      exact .bind (ih value) fun v => .bind (.set target f v) fun _ => .pure v
    | logical left op right line =>
      refine .bind (ih left) fun v => ?_
      split
      · exact .pure v
      · exact ih right
    | unary op operand line =>
      refine .bind (ih operand) fun v => ?_
      split
      · exact .pure _
      · cases v with
        | num x => exact .pure _
        | nil | bool | str | native => exact mirrors_blame i _ _ _ _ _
    | binary left op right line =>
      refine .bind (ih left) fun a => .bind (ih right) fun b => ?_
      cases op.onValues a b with
      | ok v => exact .pure v
      | error misfit =>
        cases misfit with
        | unknownOperator => exact .halt _ _
        | addition | arithmetic | divisionByZero => exact mirrors_blame i _ _ _ _ _
    | varDecl | exprStmt | print | ifElse | whileLoop | block | bare => exact .halt _ _

mutual

theorem mirrors_exec (hr : j.rounds = i.rounds) (f : Int → Int) (levels : Nat) (node : Node) :
    Mirrors before (i.exec levels node) (j.exec levels (node.relabel f)) := by
  cases levels with
  | zero =>
    unfold exec
    exact .halt _ _
  | succ levels =>
    cases node with
    | varDecl name initial =>
      cases initial with
      | none =>
        simp only [exec, Node.relabel]
        exact .define name f .nil
      | some e =>
        simp only [exec, Node.relabel]
        exact .bind (mirrors_eval i j f levels e) fun v => .define name f v
    | exprStmt e line =>
      simp only [exec, Node.relabel]
      exact .bind (mirrors_eval i j f levels e) fun _ => .pure ()
    | print e line =>
      simp only [exec, Node.relabel]
      exact .bind (mirrors_eval i j f levels e) fun v => .print v.text
    | ifElse condition thenBranch elseBranch line =>
      cases elseBranch with
      | none =>
        simp only [exec, Node.relabel]
        refine .bind (mirrors_eval i j f levels condition) fun v => ?_
        split
        · exact mirrors_exec hr f levels thenBranch
        · exact .pure ()
      | some branch =>
        simp only [exec, Node.relabel]
        refine .bind (mirrors_eval i j f levels condition) fun v => ?_
        split
        · exact mirrors_exec hr f levels thenBranch
        · exact mirrors_exec hr f levels branch
    | whileLoop condition body line =>
      simp only [exec, Node.relabel, hr]
      refine .loop ?_ (mirrors_exec hr f levels body) i.rounds
      exact .bind (mirrors_eval i j f levels condition) fun v => .pure v.truthy
    | block statements line =>
      simp only [exec, Node.relabel, Node.relabelAll_eq_map]
      exact mirrors_execBlock hr f levels statements
    | literal | var | unary | binary | logical | grouping | assign | bare =>
      unfold exec
      exact .halt _ _

theorem mirrors_execBlock (hr : j.rounds = i.rounds) (f : Int → Int) (levels : Nat)
    (nodes : List Node) :
    Mirrors before (i.execBlock levels nodes) (j.execBlock levels (nodes.map (Node.relabel f))) := by
  cases levels with
  | zero =>
    unfold execBlock
    exact .halt _ _
  | succ levels =>
    unfold execBlock
    exact .inChild (.each (mirrors_exec hr f levels) nodes)

end

theorem topLevel_ok_iff {levels : Nat} {node : Node} {s t : State} {u : Unit} :
    i.topLevel levels node s = .ok u t ↔ i.exec levels node s = .ok u t := by
  unfold topLevel
  cases i.exec levels node s with
  | ok => exact Iff.rfl
  | error h => cases h <;> exact ⟨fun h => (by cases h), fun h => (by cases h)⟩

/-- A program does the same with other lines, in another file, and after anything printed. -/
theorem mirrors_interpret (hr : j.rounds = i.rounds) (f : Int → Int) (levels : Nat)
    (program : List Node) :
    Mirrors before (i.interpret levels program)
      (j.interpret levels (program.map (Node.relabel f))) := by
  refine .each (fun node => ?_) program
  intro s s' t a hs h
  obtain ⟨t', ht', hlike⟩ := mirrors_exec hr f levels node hs (topLevel_ok_iff.1 h)
  exact ⟨t', topLevel_ok_iff.2 ht', hlike⟩

theorem interpret_append_ok_iff {levels : Nat} {as bs : List Node} {s t : State} {u : Unit} :
    i.interpret levels (as ++ bs) s = .ok u t ↔
      ∃ m, i.interpret levels as s = .ok () m ∧ i.interpret levels bs m = .ok u t := by
  unfold interpret
  induction as generalizing s with
  | nil =>
    constructor
    · intro h
      exact ⟨s, rfl, h⟩
    · rintro ⟨m, hm, h⟩
      cases hm
      exact h
  | cons a as ih =>
    rw [List.cons_append, Run.each, Run.each]
    simp only [Run.bind_ok_iff, ih]
    constructor
    · rintro ⟨_, k, ha, m, has, hbs⟩
      exact ⟨m, ⟨_, k, ha, has⟩, hbs⟩
    · rintro ⟨m, ⟨_, k, ha, has⟩, hbs⟩
      exact ⟨_, k, ha, m, has, hbs⟩

end Interpreter

end Lox
