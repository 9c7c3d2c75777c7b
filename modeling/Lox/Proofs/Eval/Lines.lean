import Lox.Eval
import Lox.Proofs.Grammar.Relabel

/-!
# Runs do not look at lines

A run reads lines only to report them. `Agrees f x y`: from every state the runs `x` and `y` end in
the same way and leave the same state, but the lines that `x` reports were changed by `f` in what `y`
reports. This is kept by every action of a run, and rendered text shows no lines (`render_relabel`),
so the messages are the same as well.

Main statement (`agrees_interpret`): a program with other lines does the same, and halts for the same
reason if it halts.
-/

set_option autoImplicit false

namespace Lox

variable (f : Int → Int)

def RunError.relabel (e : RunError) : RunError := { e with line := f e.line }

def Malformed.relabel : Malformed → Malformed
  | statement node => statement (node.relabel f)
  | expression node => expression (node.relabel f)
  | rendering value => rendering value

def Halt.relabel : Halt → Halt
  | error e => error (e.relabel f)
  | malformed m => malformed (m.relabel f)
  | tooDeep => tooDeep
  | unfinished => unfinished

/-! ## Rendering and lines -/

namespace Node

mutual

theorem render_relabel (levels : Nat) (indent : Int) (a : Node) :
    (a.relabel f).render levels indent = a.render levels indent := by
  match levels with
  | 0 => simp only [render]
  | levels + 1 =>
    have ih := render_relabel levels
    cases a with
    | varDecl x e => cases e <;> simp only [relabel, render, ih, Token.relabel]
    | ifElse c t e => cases e <;> simp only [relabel, render, ih]
    | block as => simp only [relabel, render, renderEach_relabel levels]
    | _ => simp only [relabel, render, ih, Token.relabel]

theorem renderEach_relabel (levels : Nat) (indent : Int) (as : List Node) :
    renderEach levels indent (relabelAll f as) = renderEach levels indent as := by
  match levels with
  | 0 => simp only [renderEach]
  | levels + 1 =>
    simp only [renderEach, relabelAll_eq_map, List.mapM_map, render_relabel levels,
      Function.comp_def]

end

theorem line_relabel (h : f 0 = 0) (a : Node) : (a.relabel f).line = f a.line := by
  match a with
  | grouping a => simpa only [relabel, line] using a.line_relabel h
  | literal _ | bare _ => exact h.symm
  | varDecl _ none | varDecl _ (some _) | ifElse _ _ none _ | ifElse _ _ (some _) _ | var _
  | unary _ _ _ | binary _ _ _ _ | logical _ _ _ _ | assign _ _ | exprStmt _ _ | print _ _
  | whileLoop _ _ _ | block _ _ => simp only [relabel, line, Token.relabel]

end Node

/-! ## Runs that agree but for lines -/

/-- The end of a run with the lines that it reports changed. -/
def Halt.relabelEnd {α : Type} : EStateM.Result Halt State α → EStateM.Result Halt State α
  | .ok a t => .ok a t
  | .error h t => .error (h.relabel f) t

/-- The runs do the same, but the lines that `x` reports are changed by `f` in `y`. -/
def Agrees {α : Type} (x y : Run α) : Prop := ∀ s : State, y s = Halt.relabelEnd f (x s)

namespace Agrees

variable {f} {α β : Type}

theorem pure (a : α) : Agrees f (Pure.pure a) (Pure.pure a) := fun _ => rfl

theorem halt (h : Halt) : Agrees f (Run.halt h : Run α) (Run.halt (h.relabel f)) := fun _ => rfl

theorem bind {x y : Run α} {k l : α → Run β} (h : Agrees f x y) (hk : ∀ a, Agrees f (k a) (l a)) :
    Agrees f (x >>= k) (y >>= l) := by
  intro s
  change EStateM.bind y l s = Halt.relabelEnd f (EStateM.bind x k s)
  unfold EStateM.bind
  rw [h s]
  cases x s with
  | ok a t => exact hk a t
  | error h t => rfl

theorem get (name : Token) : Agrees f (Run.get name) (Run.get (name.relabel f)) := by
  intro s
  have hname : (name.relabel f).lexeme = name.lexeme := rfl
  unfold Run.get
  rw [hname]
  cases Env.get? s.env name.lexeme <;> rfl

theorem set (name : Token) (value : Value) :
    Agrees f (Run.set name value) (Run.set (name.relabel f) value) := by
  intro s
  have hname : (name.relabel f).lexeme = name.lexeme := rfl
  unfold Run.set
  rw [hname]
  cases Env.set? name.lexeme value s.env <;> rfl

theorem define (name : Token) (value : Value) :
    Agrees f (Run.define name value) (Run.define (name.relabel f) value) := fun _ => rfl

theorem print (text : String) : Agrees f (Run.print text) (Run.print text) := fun _ => rfl

theorem inChild {x y : Run Unit} (h : Agrees f x y) : Agrees f (Run.inChild x) (Run.inChild y) := by
  intro s
  unfold Run.inChild
  rw [h]
  cases x { s with env := Env.child s.env } <;> rfl

theorem loop {c c' : Run Bool} {x y : Run Unit} (hc : Agrees f c c') (h : Agrees f x y)
    (rounds : Nat) : Agrees f (Run.loop c x rounds) (Run.loop c' y rounds) := by
  induction rounds with
  | zero => exact halt .unfinished
  | succ rounds ih =>
    refine bind hc fun b => ?_
    cases b with
    | true => exact bind h fun _ => ih
    | false => exact pure ()

theorem each {exec exec' : Node → Run Unit} {g : Node → Node}
    (h : ∀ node, Agrees f (exec node) (exec' (g node))) (nodes : List Node) :
    Agrees f (Run.each exec nodes) (Run.each exec' (nodes.map g)) := by
  induction nodes with
  | nil => exact pure ()
  | cons node nodes ih => exact bind (h node) fun _ => ih

end Agrees

namespace Interpreter

variable {f} (i : Interpreter)

theorem agrees_blame {α : Type} (levels : Nat) (node : Node) (fault : String → RunFault)
    (line : Int) :
    Agrees f (i.blame levels node fault line : Run α)
      (i.blame levels (node.relabel f) fault (f line)) := by
  unfold blame
  rw [node.render_relabel f levels 0]
  cases node.render levels 0 with
  | ok text => exact .halt _
  | error e => cases e <;> exact .halt _

theorem agrees_eval (levels : Nat) (node : Node) :
    Agrees f (i.eval levels node) (i.eval levels (node.relabel f)) := by
  induction levels generalizing node with
  | zero => exact .halt .tooDeep
  | succ levels ih =>
    cases node with
    | literal value => exact .pure value
    | var name => exact .get name
    | grouping inner => exact ih inner
    | assign target value =>
      exact .bind (ih value) fun v => .bind (.set target v) fun _ => .pure v
    | logical left op right line =>
      refine .bind (ih left) fun v => ?_
      split
      · exact .pure v
      · exact ih right
    | unary op operand line =>
      refine .bind (ih operand) fun v => ?_
      split
      · exact .pure _
      · cases v with
        | num x => exact .pure _
        | nil | bool | str | native =>
          exact agrees_blame i levels (.unary op operand line) _ line
    | binary left op right line =>
      refine .bind (ih left) fun a => .bind (ih right) fun b => ?_
      cases op.onValues a b with
      | ok v => exact .pure v
      | error misfit =>
        cases misfit with
        | unknownOperator => exact .halt (.error ⟨.unknownOperator op, line, i.file⟩)
        | addition | arithmetic | divisionByZero =>
          exact agrees_blame i levels (.binary left op right line) _ line
    | varDecl _ e | ifElse _ _ e => cases e <;> exact .halt (.malformed (.expression _))
    | exprStmt | print | whileLoop | block | bare => exact .halt (.malformed (.expression _))

mutual

theorem agrees_exec (levels : Nat) (node : Node) :
    Agrees f (i.exec levels node) (i.exec levels (node.relabel f)) := by
  cases levels with
  | zero =>
    unfold exec
    exact .halt .tooDeep
  | succ levels =>
    cases node with
    | varDecl name initial =>
      cases initial with
      | none =>
        simp only [exec, Node.relabel]
        exact .define name .nil
      | some e =>
        simp only [exec, Node.relabel]
        exact .bind (agrees_eval i levels e) fun v => .define name v
    | exprStmt e line =>
      simp only [exec, Node.relabel]
      exact .bind (agrees_eval i levels e) fun _ => .pure ()
    | print e line =>
      simp only [exec, Node.relabel]
      exact .bind (agrees_eval i levels e) fun v => .print v.text
    | ifElse condition thenBranch elseBranch line =>
      cases elseBranch with
      | none =>
        simp only [exec, Node.relabel]
        refine .bind (agrees_eval i levels condition) fun v => ?_
        split
        · exact agrees_exec levels thenBranch
        · exact .pure ()
      | some branch =>
        simp only [exec, Node.relabel]
        refine .bind (agrees_eval i levels condition) fun v => ?_
        split
        · exact agrees_exec levels thenBranch
        · exact agrees_exec levels branch
    | whileLoop condition body line =>
      simp only [exec, Node.relabel]
      refine .loop ?_ (agrees_exec levels body) i.rounds
      exact .bind (agrees_eval i levels condition) fun v => .pure v.truthy
    | block statements line =>
      simp only [exec, Node.relabel, Node.relabelAll_eq_map]
      exact agrees_execBlock levels statements
    | literal | var | unary | binary | logical | grouping | assign | bare =>
      simp only [exec, Node.relabel]
      exact .halt (.malformed (.statement _))

theorem agrees_execBlock (levels : Nat) (nodes : List Node) :
    Agrees f (i.execBlock levels nodes) (i.execBlock levels (nodes.map (Node.relabel f))) := by
  cases levels with
  | zero =>
    unfold execBlock
    exact .halt .tooDeep
  | succ levels =>
    unfold execBlock
    exact .inChild (.each (agrees_exec levels) nodes)

end

theorem agrees_topLevel (hf : f 0 = 0) (levels : Nat) (node : Node) :
    Agrees f (i.topLevel levels node) (i.topLevel levels (node.relabel f)) := by
  intro s
  unfold topLevel
  rw [agrees_exec i levels node s, node.line_relabel f hf]
  cases i.exec levels node s with
  | ok => rfl
  | error h => cases h <;> rfl

/-- A program with other lines does the same and halts in the same way, but for the lines. -/
theorem agrees_interpret (hf : f 0 = 0) (levels : Nat) (program : List Node) :
    Agrees f (i.interpret levels program) (i.interpret levels (program.map (Node.relabel f))) :=
  .each (agrees_topLevel i hf levels) program

end Interpreter

end Lox
