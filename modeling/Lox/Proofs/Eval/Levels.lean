import Lox.Source

/-!
# Runs with more levels

Trees may be nested only so deeply, and a run that is not stopped for that reason is the same with
any more levels. `Repeats deep like x y`: from every state the run `y` ends as `x` does and leaves the
same state, with a halt that `like` relates to that of `x`, unless `x` halts because its nesting is
too deep, in a way that `deep` tells. One lemma for each action of a run keeps this.

Main statements (`outlasts_exec`, `outlasts_execBlock`): more levels change nothing but runs that are
nested too deeply. The error messages render the tree that failed, so rendering has the same law
(`render_levels`).
-/

set_option autoImplicit false

namespace Lox

/-! ## Rendering -/

/-- With more levels the result `y` is the result `x`, unless that is nested too deeply. -/
def RenderFault.Persists {α : Type} (x y : Except RenderFault α) : Prop :=
  x = .error .tooDeep ∨ y = x

namespace RenderFault.Persists

variable {α β : Type}

theorem refl (x : Except RenderFault α) : Persists x x := .inr rfl

theorem bind {x y : Except RenderFault α} {f g : α → Except RenderFault β} (h : Persists x y)
    (hf : ∀ a, Persists (f a) (g a)) : Persists (x >>= f) (y >>= g) := by
  rcases h with rfl | rfl
  · exact .inl rfl
  · cases y with
    | error e => exact refl _
    | ok a => exact hf a

theorem mapM {f g : α → Except RenderFault β} (h : ∀ a, Persists (f a) (g a)) (as : List α) :
    Persists (as.mapM f) (as.mapM g) := by
  induction as with
  | nil => exact refl _
  | cons a as ih =>
    rw [List.mapM_cons, List.mapM_cons]
    exact bind (h a) fun b => bind ih fun bs => refl _

end RenderFault.Persists

namespace Node

open RenderFault

mutual

theorem render_levels {n m : Nat} (h : n ≤ m) (indent : Int) (a : Node) :
    Persists (a.render n indent) (a.render m indent) := by
  match n, m, h with
  | 0, _, _ =>
    unfold render
    exact .inl rfl
  | n + 1, m + 1, h =>
    have hnm : n ≤ m := Nat.le_of_succ_le_succ h
    have ih := render_levels hnm
    unfold render
    cases a with
    | literal | var | bare => exact .refl _
    | unary _ a | grouping a | assign _ a | exprStmt a | print a =>
      exact .bind (ih 0 a) fun _ => .refl _
    | binary a _ b | logical a _ b =>
      exact .bind (ih 0 a) fun _ => .bind (ih 0 b) fun _ => .refl _
    | varDecl x e =>
      cases e with
      | none => exact .refl _
      | some a => exact .bind (ih 0 a) fun _ => .refl _
    | ifElse c t e =>
      refine .bind (ih 0 c) fun _ => .bind (ih (indent + 1) t) fun _ => ?_
      cases e with
      | none => exact .refl _
      | some e => exact .bind (ih (indent + 1) e) fun _ => .refl _
    | whileLoop c t => exact .bind (ih 0 c) fun _ => .bind (ih (indent + 1) t) fun _ => .refl _
    | block as => exact .bind (renderEach_levels hnm (indent + 1) as) fun _ => .refl _

theorem renderEach_levels {n m : Nat} (h : n ≤ m) (indent : Int) (as : List Node) :
    Persists (renderEach n indent as) (renderEach m indent as) := by
  match n, m, h with
  | 0, _, _ =>
    unfold renderEach
    exact .inl rfl
  | n + 1, m + 1, h =>
    unfold renderEach
    exact .mapM (fun a => render_levels (Nat.le_of_succ_le_succ h) indent a) as

end

end Node

/-! ## Runs that repeat others -/

/-- The second end repeats the first, unless that is nested too deeply. -/
inductive Repeated (deep : Halt → Prop) (like : Halt → Halt → Prop) {α : Type} :
    EStateM.Result Halt State α → EStateM.Result Halt State α → Prop
  | ok {a : α} {t : State} : Repeated deep like (.ok a t) (.ok a t)
  | error {h h' : Halt} {t : State} (hl : like h h') : Repeated deep like (.error h t) (.error h' t)
  | deep {h : Halt} {t : State} {r : EStateM.Result Halt State α} (hd : deep h) :
      Repeated deep like (.error h t) r

def Repeats (deep : Halt → Prop) (like : Halt → Halt → Prop) {α : Type} (x y : Run α) : Prop :=
  ∀ s : State, Repeated deep like (x s) (y s)

namespace Repeats

variable {deep : Halt → Prop} {like : Halt → Halt → Prop} {α β : Type}

theorem refl (hl : ∀ h, like h h) (x : Run α) : Repeats deep like x x := by
  intro s
  cases x s with
  | ok => exact .ok
  | error h => exact .error (hl h)

theorem halt {h h' : Halt} (hl : like h h') : Repeats deep like (Run.halt h : Run α) (Run.halt h') :=
  fun _ => .error hl

theorem tooDeep (y : Run α) (hd : deep .tooDeep := by rfl) :
    Repeats deep like (Run.halt .tooDeep) y :=
  fun _ => .deep hd

theorem pure (a : α) : Repeats deep like (Pure.pure a) (Pure.pure a) := fun _ => .ok

theorem bind {x y : Run α} {f g : α → Run β} (h : Repeats deep like x y)
    (hf : ∀ a, Repeats deep like (f a) (g a)) : Repeats deep like (x >>= f) (y >>= g) := by
  intro s
  show Repeated deep like (EStateM.bind x f s) (EStateM.bind y g s)
  unfold EStateM.bind
  have hfirst := h s
  generalize x s = r at hfirst
  generalize y s = r' at hfirst
  cases hfirst with
  | ok => exact hf _ _
  | error hl => exact .error hl
  | deep hd => exact .deep hd

theorem inChild {x y : Run Unit} (h : Repeats deep like x y) :
    Repeats deep like (Run.inChild x) (Run.inChild y) := by
  intro s
  unfold Run.inChild
  have hbody := h { s with env := Env.child s.env }
  generalize x { s with env := Env.child s.env } = r at hbody
  generalize y { s with env := Env.child s.env } = r' at hbody
  cases hbody with
  | ok => exact .ok
  | error hl => exact .error hl
  | deep hd => exact .deep hd

theorem loop {c c' : Run Bool} {x y : Run Unit} (hl : like .unfinished .unfinished)
    (hc : Repeats deep like c c') (h : Repeats deep like x y) (rounds : Nat) :
    Repeats deep like (Run.loop c x rounds) (Run.loop c' y rounds) := by
  induction rounds with
  | zero => exact halt hl
  | succ rounds ih =>
    refine bind hc fun b => ?_
    cases b with
    | true => exact bind h fun _ => ih
    | false => exact pure ()

theorem each {exec exec' : Node → Run Unit} {g : Node → Node} {nodes : List Node}
    (h : ∀ a ∈ nodes, Repeats deep like (exec a) (exec' (g a))) :
    Repeats deep like (Run.each exec nodes) (Run.each exec' (nodes.map g)) := by
  induction nodes with
  | nil => exact pure ()
  | cons a nodes ih =>
    obtain ⟨ha, hnodes⟩ := List.forall_mem_cons.1 h
    exact bind ha fun _ => ih hnodes

end Repeats

/-! ## Runs of trees -/

namespace Interpreter

/-- The run `y` is the run `x`, unless that is nested too deeply. -/
abbrev Outlasts {α : Type} (y x : Run α) : Prop := Repeats (· = .tooDeep) Eq x y

theorem Outlasts.outcome {α : Type} {x y : Run α} (h : Outlasts y x) {s : State}
    (hx : (x.outcome s).1 ≠ .error .tooDeep) : y.outcome s = x.outcome s := by
  have hends := h s
  unfold Run.outcome at hx ⊢
  generalize x s = r at hends hx
  generalize y s = r' at hends
  cases hends with
  | ok => rfl
  | error hl => rw [hl]
  | deep hd => exact absurd (by rw [hd]; rfl) hx

theorem Outlasts.each {exec exec' : Node → Run Unit} (h : ∀ a, Outlasts (exec' a) (exec a))
    (nodes : List Node) : Outlasts (Run.each exec' nodes) (Run.each exec nodes) := by
  have heach := Repeats.each (g := id) fun a (_ : a ∈ nodes) => h a
  rwa [List.map_id] at heach

variable (i : Interpreter)

theorem outlasts_blame {α : Type} {n m : Nat} (h : n ≤ m) (a : Node) (fault : String → RunFault)
    (line : Int) :
    Outlasts (i.blame m a fault line : Run α) (i.blame n a fault line) := by
  unfold blame
  rcases a.render_levels h 0 with hdeep | hsame
  · rw [hdeep]
    exact .tooDeep _
  · rw [hsame]
    exact .refl (fun _ => rfl) _

theorem outlasts_eval {n m : Nat} (h : n ≤ m) (a : Node) : Outlasts (i.eval m a) (i.eval n a) := by
  induction n generalizing m a with
  | zero => exact .tooDeep _
  | succ n ih =>
    obtain ⟨m, rfl⟩ : ∃ k, m = k + 1 := ⟨m - 1, by omega⟩
    have hnm : n ≤ m := by omega
    cases a with
    | literal value => exact .pure value
    | var name => exact .refl (fun _ => rfl) _
    | grouping inner => exact ih hnm inner
    | assign target value => exact .bind (ih hnm value) fun v => .refl (fun _ => rfl) _
    | logical left op right line =>
      refine .bind (ih hnm left) fun v => ?_
      split
      · exact .pure v
      · exact ih hnm right
    | unary op operand line =>
      refine .bind (ih hnm operand) fun v => ?_
      split
      · exact .pure _
      · cases v with
        | num x => exact .pure _
        | nil | bool | str | native => exact i.outlasts_blame hnm _ _ line
    | binary left op right line =>
      refine .bind (ih hnm left) fun a => .bind (ih hnm right) fun b => ?_
      cases op.onValues a b with
      | ok v => exact .pure v
      | error misfit =>
        cases misfit with
        | unknownOperator => exact .halt rfl
        | addition | arithmetic | divisionByZero => exact i.outlasts_blame hnm _ _ line
    | varDecl | exprStmt | print | ifElse | whileLoop | block | bare => exact .halt rfl

mutual

theorem outlasts_exec {n m : Nat} (h : n ≤ m) (a : Node) :
    Outlasts (i.exec m a) (i.exec n a) := by
  match n, m, h with
  | 0, m, _ =>
    unfold exec
    exact .tooDeep _
  | n + 1, m + 1, h =>
    have hnm : n ≤ m := Nat.le_of_succ_le_succ h
    cases a with
    | varDecl name initial =>
      cases initial with
      | none =>
        simp only [exec]
        exact .refl (fun _ => rfl) _
      | some e =>
        simp only [exec]
        exact .bind (i.outlasts_eval hnm e) fun v => .refl (fun _ => rfl) _
    | exprStmt e line =>
      simp only [exec]
      exact .bind (i.outlasts_eval hnm e) fun _ => .pure ()
    | print e line =>
      simp only [exec]
      exact .bind (i.outlasts_eval hnm e) fun v => .refl (fun _ => rfl) _
    | ifElse condition thenBranch elseBranch line =>
      simp only [exec]
      refine .bind (i.outlasts_eval hnm condition) fun v => ?_
      split
      · exact outlasts_exec hnm thenBranch
      · cases elseBranch with
        | none => exact .pure ()
        | some branch => exact outlasts_exec hnm branch
    | whileLoop condition body line =>
      simp only [exec]
      refine .loop rfl ?_ (outlasts_exec hnm body) i.rounds
      exact .bind (i.outlasts_eval hnm condition) fun v => .pure v.truthy
    | block statements line =>
      simp only [exec]
      exact outlasts_execBlock hnm statements
    | literal | var | unary | binary | logical | grouping | assign | bare =>
      simp only [exec]
      exact .halt rfl

theorem outlasts_execBlock {n m : Nat} (h : n ≤ m) (as : List Node) :
    Outlasts (i.execBlock m as) (i.execBlock n as) := by
  match n, m, h with
  | 0, m, _ =>
    unfold execBlock
    exact .tooDeep _
  | n + 1, m + 1, h =>
    have hnm : n ≤ m := Nat.le_of_succ_le_succ h
    unfold execBlock
    exact .inChild (Outlasts.each (fun a => outlasts_exec hnm a) as)

end

end Interpreter

end Lox
