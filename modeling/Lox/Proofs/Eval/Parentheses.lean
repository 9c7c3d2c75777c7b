import Lox.Proofs.Eval.Levels
import Lox.Proofs.Scoping.Dependence
import Lox.Proofs.Syntax.Grouping

/-!
# Parentheses only group

`Reworded x y`: from every state the run `y` ends as `x` does and leaves the same state, unless `x` is
nested too deeply, but the expressions in its messages may be worded differently. A grouping takes a
level of its own and does nothing else, so a tree without its groupings runs like the tree itself, with
as many levels or more (`reworded_eval`, `reworded_exec`). What a message shows can still be rendered
without groupings (`render_ungroup`).

Main statement (`interpret_ungroup`): a program does the same without its groupings.
-/

set_option autoImplicit false

namespace Lox

/-! ## Trees with their parts in place -/

namespace Node

/-- Expressions made of expressions, with any operators. -/
def fitsExpr : Node → Bool
  | literal _ | var _ => true
  | unary _ a _ | grouping a | assign _ a => a.fitsExpr
  | binary a _ b _ | logical a _ b _ => a.fitsExpr && b.fitsExpr
  | _ => false

mutual

/-- Statements made of expressions and statements, each where it belongs. -/
def fitsStmt : Node → Bool
  | varDecl _ none => true
  | varDecl _ (some a) | exprStmt a _ | print a _ => a.fitsExpr
  | ifElse c t none _ | whileLoop c t _ => c.fitsExpr && t.fitsStmt
  | ifElse c t (some e) _ => c.fitsExpr && t.fitsStmt && e.fitsStmt
  | block as _ => allFit as
  | _ => false

/-- Programs made of such statements. -/
def allFit : List Node → Bool
  | [] => true
  | a :: as => a.fitsStmt && allFit as

end

theorem allFit_iff {as : List Node} : allFit as = true ↔ ∀ a ∈ as, a.fitsStmt = true := by
  induction as with
  | nil => simp [allFit]
  | cons a as ih => simp [allFit, ih]

end Node

/-! ## Rendering -/

/-- Both results are there, unless the first is nested too deeply. -/
def RenderFault.Both {α β : Type} (x : Except RenderFault α) (y : Except RenderFault β) : Prop :=
  x = .error .tooDeep ∨ ∃ a b, x = .ok a ∧ y = .ok b

namespace RenderFault.Both

variable {α β γ δ : Type}

theorem ok (a : α) (b : β) : Both (.ok a) (.ok b) := .inr ⟨a, b, rfl, rfl⟩

theorem bind {x : Except RenderFault α} {y : Except RenderFault β} {f : α → Except RenderFault γ}
    {g : β → Except RenderFault δ} (h : Both x y) (hf : ∀ a b, Both (f a) (g b)) :
    Both (x >>= f) (y >>= g) := by
  rcases h with rfl | ⟨a, b, rfl, rfl⟩
  · exact .inl rfl
  · exact hf a b

theorem map_left {x : Except RenderFault α} {y : Except RenderFault β} (h : Both x y) (f : α → γ) :
    Both (x >>= fun a => pure (f a)) y := by
  rcases h with rfl | ⟨a, b, rfl, rfl⟩
  · exact .inl rfl
  · exact ok (f a) b

end RenderFault.Both

open RenderFault in
theorem Node.render_ungroup {n m : Nat} (h : n ≤ m) {a : Node} (ha : a.fitsExpr = true) :
    Both (a.render n 0) (a.ungroup.render m 0) := by
  induction n generalizing m a with
  | zero => exact .inl rfl
  | succ n ih =>
    obtain ⟨m, rfl⟩ : ∃ k, m = k + 1 := ⟨m - 1, by omega⟩
    have hnm : n ≤ m := by omega
    cases a with
    | literal | var => exact .ok _ _
    | unary _ a | assign _ a => exact .bind (ih hnm ha) fun _ _ => .ok _ _
    | binary a _ b | logical a _ b =>
      rw [fitsExpr, Bool.and_eq_true] at ha
      exact .bind (ih hnm ha.1) fun _ _ => .bind (ih hnm ha.2) fun _ _ => .ok _ _
    | grouping a =>
      -- the inner tree is rendered with all the levels that there are
      have hinner : Both (a.render n 0) (a.ungroup.render (m + 1) 0) := ih (by omega) ha
      exact hinner.map_left _
    | varDecl | exprStmt | print | ifElse | whileLoop | block | bare => simp [fitsExpr] at ha

/-! ## Runs that differ in words -/

/-- The errors are of one category, at the same place, and about the same access to the same name if
they are about one. -/
structure RunError.Alike (e e' : RunError) : Prop where
  category : e.fault.category = e'.fault.category
  line : e.line = e'.line
  file : e.file = e'.file
  undefined : ∀ name access, e.fault = .undefined name access ↔ e'.fault = .undefined name access

namespace RunError.Alike

theorem refl (e : RunError) : e.Alike e := ⟨rfl, rfl, rfl, fun _ _ => Iff.rfl⟩

theorem of_category {fault fault' : RunFault} {c : Category} (h : fault.category = c)
    (h' : fault'.category = c) (hc : c ≠ .undefinedVariable) (line : Int) (file : Option String) :
    Alike ⟨fault, line, file⟩ ⟨fault', line, file⟩ := by
  refine ⟨h.trans h'.symm, rfl, rfl, fun name access => iff_of_false ?_ ?_⟩
  · rintro rfl
    exact hc h.symm
  · rintro rfl
    exact hc h'.symm

end RunError.Alike

inductive Halt.Alike : Halt → Halt → Prop
  | error {e e' : RunError} (h : e.Alike e') : Halt.Alike (.error e) (.error e')
  | unfinished : Halt.Alike .unfinished .unfinished

/-- The run `y` is the run `x` in other words, unless that is nested too deeply. -/
abbrev Reworded {α : Type} (x y : Run α) : Prop := Repeats (· = .tooDeep) Halt.Alike x y

theorem Reworded.get (name : Token) : Reworded (Run.get name) (Run.get name) := by
  intro s
  unfold Run.get
  cases Env.get? s.env name.lexeme with
  | none => exact .error (.error (.refl _))
  | some value => exact .ok

theorem Reworded.set (name : Token) (value : Value) :
    Reworded (Run.set name value) (Run.set name value) := by
  intro s
  unfold Run.set
  cases Env.set? name.lexeme value s.env with
  | none => exact .error (.error (.refl _))
  | some env => exact .ok

/-! ## Trees without groupings -/

namespace Interpreter

variable (i : Interpreter)

theorem reworded_blame {α : Type} {n m : Nat} (h : n ≤ m) {a : Node} (ha : a.fitsExpr = true)
    (fault : String → RunFault) (line : Int) {c : Category}
    (hfault : ∀ text, (fault text).category = c) (hc : c ≠ .undefinedVariable) :
    Reworded (i.blame n a fault line : Run α) (i.blame m a.ungroup fault line) := by
  unfold blame
  rcases Node.render_ungroup h ha with hdeep | ⟨text, text', hrender, hrender'⟩
  · rw [hdeep]
    exact .tooDeep _
  · rw [hrender, hrender']
    exact .halt (.error (.of_category (hfault text) (hfault text') hc line i.file))

theorem reworded_eval {n m : Nat} (h : n ≤ m) {a : Node} (ha : a.fitsExpr = true) :
    Reworded (i.eval n a) (i.eval m a.ungroup) := by
  induction n generalizing m a with
  | zero => exact .tooDeep _
  | succ n ih =>
    obtain ⟨m, rfl⟩ : ∃ k, m = k + 1 := ⟨m - 1, by omega⟩
    have hnm : n ≤ m := by omega
    cases a with
    | literal value => exact .pure value
    | var name => exact Reworded.get name
    | grouping inner => exact ih (Nat.le_succ_of_le hnm) ha
    | assign target value =>
      exact .bind (ih hnm ha) fun v => .bind (Reworded.set target v) fun _ => .pure v
    | logical left op right line =>
      rw [Node.fitsExpr, Bool.and_eq_true] at ha
      refine .bind (ih hnm ha.1) fun v => ?_
      split
      · exact .pure v
      · exact ih hnm ha.2
    | unary op operand line =>
      refine .bind (ih hnm ha) fun v => ?_
      split
      · exact .pure _
      · cases v with
        | num x => exact .pure _
        | nil | bool | str | native =>
          exact i.reworded_blame hnm (a := .unary op operand line) ha .negation line
            (fun _ => rfl) nofun
    | binary left op right line =>
      have hparts := ha
      rw [Node.fitsExpr, Bool.and_eq_true] at hparts
      refine .bind (ih hnm hparts.1) fun a => .bind (ih hnm hparts.2) fun b => ?_
      cases op.onValues a b with
      | ok v => exact .pure v
      | error misfit =>
        cases misfit with
        | unknownOperator => exact .halt (.error (.refl _))
        | addition =>
          exact i.reworded_blame hnm (a := .binary left op right line) ha .addition line
            (fun _ => rfl) nofun
        | arithmetic =>
          exact i.reworded_blame hnm (a := .binary left op right line) ha (.arithmetic op) line
            (fun _ => rfl) nofun
        | divisionByZero =>
          exact i.reworded_blame hnm (a := .binary left op right line) ha .divisionByZero line
            (fun _ => rfl) nofun
    | varDecl | exprStmt | print | ifElse | whileLoop | block | bare => simp [Node.fitsExpr] at ha

mutual

theorem reworded_exec {n m : Nat} (h : n ≤ m) {a : Node} (ha : a.fitsStmt = true) :
    Reworded (i.exec n a) (i.exec m a.ungroup) := by
  match n, m, h with
  | 0, m, _ =>
    unfold exec
    exact .tooDeep _
  | n + 1, m + 1, h =>
    have hnm : n ≤ m := Nat.le_of_succ_le_succ h
    cases a with
    | varDecl name initial =>
      cases initial with
      | none =>
        simp only [exec, Node.ungroup]
        exact fun _ => .ok
      | some e =>
        simp only [exec, Node.ungroup]
        exact .bind (i.reworded_eval hnm ha) fun v _ => .ok
    | exprStmt e line =>
      simp only [exec, Node.ungroup]
      exact .bind (i.reworded_eval hnm ha) fun _ => .pure ()
    | print e line =>
      simp only [exec, Node.ungroup]
      exact .bind (i.reworded_eval hnm ha) fun v _ => .ok
    | ifElse condition thenBranch elseBranch line =>
      cases elseBranch with
      | none =>
        rw [Node.fitsStmt, Bool.and_eq_true] at ha
        simp only [exec, Node.ungroup]
        refine .bind (i.reworded_eval hnm ha.1) fun v => ?_
        split
        · exact reworded_exec hnm ha.2
        · exact .pure ()
      | some branch =>
        rw [Node.fitsStmt, Bool.and_eq_true, Bool.and_eq_true] at ha
        simp only [exec, Node.ungroup]
        refine .bind (i.reworded_eval hnm ha.1.1) fun v => ?_
        split
        · exact reworded_exec hnm ha.1.2
        · exact reworded_exec hnm ha.2
    | whileLoop condition body line =>
      rw [Node.fitsStmt, Bool.and_eq_true] at ha
      simp only [exec, Node.ungroup]
      refine .loop .unfinished ?_ (reworded_exec hnm ha.2) i.rounds
      exact .bind (i.reworded_eval hnm ha.1) fun v => .pure v.truthy
    | block statements line =>
      simp only [exec, Node.ungroup, Node.ungroupAll_eq_map]
      exact reworded_execBlock hnm (Node.allFit_iff.1 ha)
    | literal | var | unary | binary | logical | grouping | assign | bare =>
      simp [Node.fitsStmt] at ha

theorem reworded_execBlock {n m : Nat} (h : n ≤ m) {as : List Node}
    (ha : ∀ a ∈ as, a.fitsStmt = true) :
    Reworded (i.execBlock n as) (i.execBlock m (as.map Node.ungroup)) := by
  match n, m, h with
  | 0, m, _ =>
    unfold execBlock
    exact .tooDeep _
  | n + 1, m + 1, h =>
    unfold execBlock
    exact .inChild (.each fun a hmem => reworded_exec (Nat.le_of_succ_le_succ h) (ha a hmem))

end

/-- At the top of a program, nesting that is too deep is an error like others. -/
theorem reworded_topLevel (levels : Nat) {a : Node} (ha : a.fitsStmt = true) :
    Repeats (fun h => ∃ e, h = .error e ∧ e.fault = .tooDeep) Halt.Alike
      (i.topLevel levels a) (i.topLevel levels a.ungroup) := by
  intro s
  unfold topLevel
  have hexec := i.reworded_exec (Nat.le_refl levels) ha s
  generalize i.exec levels a s = r at hexec
  generalize i.exec levels a.ungroup s = r' at hexec
  cases hexec with
  | ok => exact .ok
  | error hl =>
    cases hl with
    | error h => exact .error (.error h)
    | unfinished => exact .error .unfinished
  | deep hd =>
    cases hd
    exact .deep ⟨_, rfl, rfl⟩

/-- What a program does within some number of rounds. -/
theorem reworded_interpret {levels : Nat} {program : List Node} (hp : Node.allFit program = true)
    {s : State}
    (hlimit : ∀ e t, i.interpret levels program s = .error (.error e) t → e.fault ≠ .tooDeep) :
    ∃ t : State,
      (i.interpret levels program s = .ok () t ∧
          i.interpret levels (program.map Node.ungroup) s = .ok () t) ∨
        (i.interpret levels program s = .error .unfinished t ∧
          i.interpret levels (program.map Node.ungroup) s = .error .unfinished t) ∨
        ∃ e e' : RunError, e.Alike e' ∧
          i.interpret levels program s = .error (.error e) t ∧
          i.interpret levels (program.map Node.ungroup) s = .error (.error e') t := by
  have hruns := Repeats.each
    (fun a hmem => i.reworded_topLevel levels (Node.allFit_iff.1 hp a hmem)) s
  unfold interpret at hlimit ⊢
  generalize Run.each (i.topLevel levels) program s = r at hruns hlimit
  generalize Run.each (i.topLevel levels) (program.map Node.ungroup) s = r' at hruns
  cases hruns with
  | @ok _ t => exact ⟨t, .inl ⟨rfl, rfl⟩⟩
  | @error _ _ t hl =>
    cases hl with
    | @error e e' h => exact ⟨t, .inr (.inr ⟨e, e', h, rfl, rfl⟩)⟩
    | unfinished => exact ⟨t, .inr (.inl ⟨rfl, rfl⟩)⟩
  | deep hd =>
    obtain ⟨e, rfl, hdeep⟩ := hd
    exact absurd hdeep (hlimit e _ rfl)

/-- A program with every part in its place, run as it is and without its groupings; it is not nested
too deeply to run, however long its loops may go. One run comes to its end if the other does. However
long the loops may go, both runs leave the same text and the same bindings, and both end well, or
neither comes to its end, or both fail with errors that differ at most in their words. -/
theorem interpret_ungroup {file : Option String} {levels : Nat} {program : List Node}
    (hp : Node.allFit program = true) {s : State}
    (hlimit : ∀ rounds e t,
      interpret ⟨file, rounds⟩ levels program s = .error (.error e) t → e.fault ≠ .tooDeep) :
    ((∃ rounds, (interpret ⟨file, rounds⟩ levels program).Finishes s) ↔
        ∃ rounds, (interpret ⟨file, rounds⟩ levels (program.map Node.ungroup)).Finishes s) ∧
      ∀ rounds, ∃ t : State,
        (interpret ⟨file, rounds⟩ levels program s = .ok () t ∧
            interpret ⟨file, rounds⟩ levels (program.map Node.ungroup) s = .ok () t) ∨
          (interpret ⟨file, rounds⟩ levels program s = .error .unfinished t ∧
            interpret ⟨file, rounds⟩ levels (program.map Node.ungroup) s = .error .unfinished t) ∨
          ∃ e e' : RunError, e.Alike e' ∧
            interpret ⟨file, rounds⟩ levels program s = .error (.error e) t ∧
            interpret ⟨file, rounds⟩ levels (program.map Node.ungroup) s = .error (.error e') t := by
  refine ⟨exists_congr fun rounds => ?_, fun rounds => reworded_interpret _ hp (hlimit rounds)⟩
  unfold Run.Finishes Run.outcome
  obtain ⟨t, ⟨hrun, hrun'⟩ | ⟨hrun, hrun'⟩ | ⟨e, e', -, hrun, hrun'⟩⟩ :=
    reworded_interpret _ hp (hlimit rounds)
  · rw [hrun, hrun']
  · rw [hrun, hrun']
  · rw [hrun, hrun']
    exact iff_of_true nofun nofun

/-- `(x = ("a")); while ((x)) { print ((x)); x = (nil); } -((x) or (true));`, on three lines. -/
def groupedProgram : List Node :=
  [.exprStmt (.grouping (.assign ⟨.identifier, "x", .nil, 1⟩ (.grouping (.literal (.str "a"))))) 1,
   .whileLoop (.grouping (.grouping (.var ⟨.identifier, "x", .nil, 2⟩)))
     (.block
       [.print (.grouping (.grouping (.var ⟨.identifier, "x", .nil, 2⟩))) 2,
        .exprStmt (.assign ⟨.identifier, "x", .nil, 2⟩ (.grouping (.literal .nil))) 2] 2) 2,
   .exprStmt (.unary .neg
     (.grouping (.logical (.grouping (.var ⟨.identifier, "x", .nil, 3⟩)) .or
       (.grouping (.literal (.bool true))) 3)) 3) 3]

def groupedStart : State := ⟨[⟨[], some "f"⟩, ⟨[("x", .bool false)], none⟩], ""⟩

theorem interpret_ungroup_negation :
    Node.allFit groupedProgram = true ∧
      ((∃ rounds, (interpret ⟨some "f", rounds⟩ 9 groupedProgram).Finishes groupedStart) ↔
        ∃ rounds,
          (interpret ⟨some "f", rounds⟩ 9 (groupedProgram.map Node.ungroup)).Finishes groupedStart) ∧
      ∀ rounds, ∃ e' : RunError, RunError.Alike ⟨.negation "-(((x) or (true)))", 3, some "f"⟩ e' ∧
        interpret ⟨some "f", rounds + 2⟩ 9 groupedProgram groupedStart =
          .error (.error ⟨.negation "-(((x) or (true)))", 3, some "f"⟩)
            ⟨[⟨[], some "f"⟩, ⟨[("x", .nil)], none⟩], "a\n"⟩ ∧
        interpret ⟨some "f", rounds + 2⟩ 9 (groupedProgram.map Node.ungroup) groupedStart =
          .error (.error e') ⟨[⟨[], some "f"⟩, ⟨[("x", .nil)], none⟩], "a\n"⟩ := by
  have hfit : Node.allFit groupedProgram = true := by decide
  have hlimit : ∀ rounds e t, interpret ⟨some "f", rounds⟩ 9 groupedProgram groupedStart =
      .error (.error e) t → e.fault ≠ .tooDeep := by
    rintro (_ | _ | rounds) e t ⟨⟩
    exact nofun
  have hrun : ∀ rounds, interpret ⟨some "f", rounds + 2⟩ 9 groupedProgram groupedStart =
      .error (.error ⟨.negation "-(((x) or (true)))", 3, some "f"⟩)
        ⟨[⟨[], some "f"⟩, ⟨[("x", .nil)], none⟩], "a\n"⟩ := fun _ => rfl
  obtain ⟨hfinish, hends⟩ := interpret_ungroup hfit hlimit
  refine ⟨hfit, hfinish, fun rounds => ?_⟩
  obtain ⟨t, ⟨h, -⟩ | ⟨h, -⟩ | ⟨e, e', halike, h, h'⟩⟩ := hends (rounds + 2)
  · cases (hrun rounds).symm.trans h
  · cases (hrun rounds).symm.trans h
  · cases (hrun rounds).symm.trans h
    exact ⟨e', halike, hrun rounds, h'⟩

end Interpreter

end Lox
