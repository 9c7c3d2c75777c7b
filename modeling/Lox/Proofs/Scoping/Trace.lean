import Lox.Proofs.Scoping.Resolver

/-!
# Traces

A run that also tells which references it visits, in order, and how many scopes above the innermost
one it finds each name. The references of a program are numbered in source order. Without its visits
a traced run is the run of the interpreter (`run_evalTraced`, `run_execTraced`,
`run_interpretTraced`).
-/

set_option autoImplicit false

namespace Lox

/-- A reference that a run comes to: its number, and how many scopes away the run finds its name. -/
structure Visit where
  index : Nat
  reference : Reference

/-- Runs that tell their visits, also those that fail. -/
def Traced (α : Type) := State → EStateM.Result Halt State α × List Visit

namespace Traced

variable {α β : Type}

/-- The run alone. -/
def run (x : Traced α) : Run α := fun s => (x s).1

/-- A run that visits nothing. -/
def lift (x : Run α) : Traced α := fun s => (x s, [])

/-- A run that looks up a name first. -/
def visit (index : Nat) (name : Token) (access : Access) (x : Run α) : Traced α := fun s =>
  (x s, [⟨index, name, access, Env.owner? s.env name.lexeme⟩])

protected def bind (x : Traced α) (f : α → Traced β) : Traced β := fun s =>
  match x s with
  | (.ok a t, visits) => ((f a t).1, visits ++ (f a t).2)
  | (.error h t, visits) => (.error h t, visits)

instance : Monad Traced where
  pure a := lift (pure a)
  bind := Traced.bind

def get (index : Nat) (name : Token) : Traced Value := visit index name .get (Run.get name)

def set (index : Nat) (name : Token) (value : Value) : Traced Unit :=
  visit index name .set (Run.set name value)

def inChild (body : Traced Unit) : Traced Unit := fun s =>
  (Run.inChild body.run s, (body { s with env := Env.child s.env }).2)

def loop (condition : Traced Bool) (body : Traced Unit) : (rounds : Nat) → Traced Unit
  | 0 => lift (Run.halt .unfinished)
  | rounds + 1 => do
    if ← condition then do
      body
      loop condition body rounds
    else pure ()

/-- Runs statements in order; `index` is the number of the first reference in them. -/
def each (exec : Nat → Node → Traced Unit) : (index : Nat) → List Node → Traced Unit
  | _, [] => pure ()
  | index, statement :: rest => do
    exec index statement
    each exec (index + statement.references) rest

@[simp] theorem run_lift (x : Run α) : (lift x).run = x := rfl

@[simp] theorem run_pure (a : α) : (pure a : Traced α).run = pure a := rfl

@[simp] theorem run_bind (x : Traced α) (f : α → Traced β) :
    (x >>= f).run = x.run >>= fun a => (f a).run := by
  funext s
  show (Traced.bind x f s).1 = EStateM.bind x.run (fun a => (f a).run) s
  unfold Traced.bind EStateM.bind run
  cases h : x s with
  | mk result visits => cases result <;> rfl

@[simp] theorem run_get (index : Nat) (name : Token) : (get index name).run = Run.get name := rfl

@[simp] theorem run_set (index : Nat) (name : Token) (value : Value) :
    (set index name value).run = Run.set name value := rfl

@[simp] theorem run_inChild (body : Traced Unit) : (inChild body).run = Run.inChild body.run := rfl

@[simp] theorem run_loop (condition : Traced Bool) (body : Traced Unit) (rounds : Nat) :
    (loop condition body rounds).run = Run.loop condition.run body.run rounds := by
  induction rounds with
  | zero => rfl
  | succ rounds ih =>
    unfold loop Run.loop
    rw [run_bind]
    congr
    funext b
    cases b
    · rfl
    · simp [ih]

@[simp] theorem run_each {exec : Nat → Node → Traced Unit} {exec' : Node → Run Unit}
    (h : ∀ index node, (exec index node).run = exec' node) (index : Nat) (nodes : List Node) :
    (each exec index nodes).run = Run.each exec' nodes := by
  induction nodes generalizing index with
  | nil => rfl
  | cons node nodes ih =>
    unfold each Run.each
    rw [run_bind, h]
    congr
    funext _
    exact ih _

end Traced

namespace Interpreter

/-- The value of an expression; `index` is the number of its first reference. -/
def evalTraced (i : Interpreter) : (levels : Nat) → (index : Nat) → Node → Traced Value
  | 0, _, _ => .lift (Run.halt .tooDeep)
  | levels + 1, index, node => match node with
    | .literal value => pure value
    | .var name => .get index name
    | .grouping inner => evalTraced i levels index inner
    | .assign target value => do
      let v ← evalTraced i levels (index + 1) value
      .set index target v
      pure v
    | .logical left op right _ => do
      let v ← evalTraced i levels index left
      if v.truthy == (op == .or) then pure v
      else evalTraced i levels (index + left.references) right
    | .unary op operand line => do
      let v ← evalTraced i levels index operand
      if op == .not then pure (.bool !v.truthy)
      else match v with
        | .num x => pure (.num (-x))
        | _ => .lift (blame i levels node .negation line)
    | .binary left op right line => do
      let a ← evalTraced i levels index left
      let b ← evalTraced i levels (index + left.references) right
      match op.onValues a b with
      | .ok v => pure v
      | .error .unknownOperator => .lift (Run.halt (.error ⟨.unknownOperator op, line, i.file⟩))
      | .error misfit => .lift (blame i levels node (misfit.fault op ·) line)
    | _ => .lift (Run.halt (.malformed (.expression node)))

mutual

/-- Runs a statement; `index` is the number of its first reference. -/
def execTraced (i : Interpreter) : (levels : Nat) → (index : Nat) → Node → Traced Unit
  | 0, _, _ => .lift (Run.halt .tooDeep)
  | levels + 1, index, node => match node with
    | .varDecl name none => .lift (Run.define name .nil)
    | .varDecl name (some initial) => do
      let v ← evalTraced i levels index initial
      .lift (Run.define name v)
    | .exprStmt e _ => do
      let _ ← evalTraced i levels index e
      pure ()
    | .print e _ => do
      let v ← evalTraced i levels index e
      .lift (Run.print v.text)
    | .ifElse condition thenBranch elseBranch _ => do
      let v ← evalTraced i levels index condition
      if v.truthy then execTraced i levels (index + condition.references) thenBranch
      else match elseBranch with
        | none => pure ()
        | some branch =>
          execTraced i levels (index + condition.references + thenBranch.references) branch
    | .whileLoop condition body _ =>
      .loop (do
          let v ← evalTraced i levels index condition
          pure v.truthy)
        (execTraced i levels (index + condition.references) body) i.rounds
    | .block statements _ => execBlockTraced i levels index statements
    | _ => .lift (Run.halt (.malformed (.statement node)))

def execBlockTraced (i : Interpreter) : (levels : Nat) → (index : Nat) → List Node → Traced Unit
  | 0, _, _ => .lift (Run.halt .tooDeep)
  | levels + 1, index, statements =>
    .inChild (.each (fun index statement => execTraced i levels index statement) index statements)

end

def topLevelTraced (i : Interpreter) (levels index : Nat) (statement : Node) : Traced Unit :=
  fun s => match i.execTraced levels index statement s with
    | (.error .tooDeep t, visits) =>
      (.error (.error ⟨.tooDeep, statement.line, i.file⟩) t, visits)
    | result => result

/-- Runs a program, with the number of each reference that it visits. -/
def interpretTraced (i : Interpreter) (levels : Nat) (program : List Node) : Traced Unit :=
  .each (i.topLevelTraced levels) 0 program

@[simp] theorem run_evalTraced (i : Interpreter) (levels index : Nat) (node : Node) :
    (i.evalTraced levels index node).run = i.eval levels node := by
  induction levels generalizing index node with
  | zero => rfl
  | succ levels ih =>
    unfold evalTraced eval
    cases node with
    | grouping inner => exact ih index inner
    | assign target value => simp [ih]
    | logical left op right line =>
      simp only [Traced.run_bind, ih]
      congr
      funext v
      split
      · rfl
      · exact ih _ right
    | unary op operand line =>
      simp only [Traced.run_bind, ih]
      congr
      funext v
      split
      · rfl
      · cases v <;> rfl
    | binary left op right line =>
      simp only [Traced.run_bind, ih]
      congr
      funext a
      congr
      funext b
      cases op.onValues a b with
      | ok v => rfl
      | error misfit => cases misfit <;> rfl
    | literal | var | varDecl | exprStmt | print | ifElse | whileLoop | block | bare => rfl

mutual

@[simp] theorem run_execTraced (i : Interpreter) (levels index : Nat) (node : Node) :
    (i.execTraced levels index node).run = i.exec levels node := by
  cases levels with
  | zero => simp [execTraced, exec]
  | succ levels =>
    cases node with
    | varDecl name initial => cases initial <;> simp [execTraced, exec]
    | exprStmt e line => simp [execTraced, exec]
    | print e line => simp [execTraced, exec]
    | ifElse condition thenBranch elseBranch line =>
      simp only [execTraced, exec, Traced.run_bind, run_evalTraced]
      congr
      funext v
      split
      · exact run_execTraced i levels _ thenBranch
      · cases elseBranch with
        | none => rfl
        | some branch => exact run_execTraced i levels _ branch
    | whileLoop condition body line =>
      simp only [execTraced, exec, Traced.run_loop, Traced.run_bind, run_evalTraced,
        run_execTraced i levels _ body]
      rfl
    | block statements line => simpa [execTraced, exec] using run_execBlockTraced i levels _ _
    | literal | var | unary | binary | logical | grouping | assign | bare =>
      simp [execTraced, exec]

@[simp] theorem run_execBlockTraced (i : Interpreter) (levels index : Nat)
    (statements : List Node) :
    (i.execBlockTraced levels index statements).run = i.execBlock levels statements := by
  cases levels with
  | zero => simp [execBlockTraced, execBlock]
  | succ levels =>
    simp only [execBlockTraced, execBlock, Traced.run_inChild]
    rw [Traced.run_each fun index node => run_execTraced i levels index node]

end

theorem run_topLevelTraced (i : Interpreter) (levels index : Nat) (statement : Node) :
    (i.topLevelTraced levels index statement).run = i.topLevel levels statement := by
  funext s
  unfold Traced.run topLevelTraced topLevel
  rw [← run_execTraced i levels index statement]
  unfold Traced.run
  cases i.execTraced levels index statement s with
  | mk result visits =>
    cases result with
    | ok => rfl
    | error h t => cases h <;> rfl

/-- Without its visits a traced run is the run of the interpreter. -/
theorem run_interpretTraced (i : Interpreter) (levels : Nat) (program : List Node) :
    (i.interpretTraced levels program).run = i.interpret levels program :=
  Traced.run_each (i.run_topLevelTraced levels) 0 program

end Interpreter

end Lox
