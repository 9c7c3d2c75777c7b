import Lox.Proofs.Scoping.Trace

/-!
# Lexical scoping

What a run finds is what the resolver says. `Follows good post r`: all visits of the traced run that
ended in `r` are `good`, all but the last found their name, and the run was halted by the error of an
unbound name exactly if the last one did not. One lemma for each form of expression and statement
keeps this and `Matches`; loops keep it round by round (`follows_loop`), since their bodies leave the
scopes around them as they are.

Main statement (`interpret_lexical`): in every run of an accepted program, each visit finds its name
as many scopes away as the resolver says, and an unbound name stops the run exactly where the
resolver finds none.
-/

set_option autoImplicit false

namespace Lox

/-- Whether a run was halted by the error of an unbound name. -/
def Halt.Undefined (h : Halt) : Prop :=
  ∃ name access line file, h = .error ⟨.undefined name access, line, file⟩

/-- The error of a visit that finds no binding. -/
def Visit.halt (v : Visit) (file : Option String) : Halt :=
  .error ⟨.undefined v.reference.name.lexeme v.reference.access, v.reference.name.line, file⟩

/-- The visit is to one of the references, which are numbered from `index`, and finds its name where
the reference says. -/
def Listed (index : Nat) (references : List Reference) (v : Visit) : Prop :=
  ∃ n, v.index = index + n ∧ references[n]? = some v.reference

namespace Listed

variable {index : Nat} {xs ys : List Reference} {v : Visit}

theorem left (h : Listed index xs v) : Listed index (xs ++ ys) v := by
  obtain ⟨n, hi, hn⟩ := h
  have hlt : n < xs.length := (List.getElem?_eq_some_iff.1 hn).1
  exact ⟨n, hi, by rw [List.getElem?_append_left hlt, hn]⟩

theorem right {n : Nat} (hn : xs.length = n) (h : Listed (index + n) ys v) :
    Listed index (xs ++ ys) v := by
  obtain ⟨m, hi, hm⟩ := h
  refine ⟨n + m, by rw [hi, Nat.add_assoc], ?_⟩
  rw [List.getElem?_append_right (by omega), hn, Nat.add_sub_cancel_left, hm]

end Listed

/-- Good visits that found their names. -/
def Found (good : Visit → Prop) (visits : List Visit) : Prop :=
  ∀ v ∈ visits, good v ∧ v.reference.depth ≠ none

inductive Follows {α : Type} (good : Visit → Prop) (post : α → State → Prop) :
    EStateM.Result Halt State α × List Visit → Prop
  | done {a : α} {t : State} {visits : List Visit} (ha : post a t) (hv : Found good visits) :
      Follows good post (.ok a t, visits)
  | halted {h : Halt} {t : State} {visits : List Visit} (hh : ¬ h.Undefined)
      (hv : Found good visits) : Follows good post (.error h t, visits)
  | unbound {v : Visit} {file : Option String} {t : State} {visits : List Visit}
      (hv : Found good visits) (hg : good v) (hd : v.reference.depth = none) :
      Follows good post (.error (v.halt file) t, visits ++ [v])

namespace Follows

variable {α β : Type} {good good' : Visit → Prop} {s : State}

theorem mono {post : α → State → Prop} {r : EStateM.Result Halt State α × List Visit}
    (hg : ∀ v, good v → good' v) (h : Follows good post r) : Follows good' post r := by
  cases h with
  | done ha hv => exact .done ha fun v hm => ⟨hg v (hv v hm).1, (hv v hm).2⟩
  | halted hh hv => exact .halted hh fun v hm => ⟨hg v (hv v hm).1, (hv v hm).2⟩
  | unbound hv hgood hd =>
    exact .unbound (fun v hm => ⟨hg v (hv v hm).1, (hv v hm).2⟩) (hg _ hgood) hd

theorem pure {post : α → State → Prop} {a : α} (h : post a s) :
    Follows good post ((Pure.pure a : Traced α) s) := .done h (by simp [Found])

theorem halt {post : α → State → Prop} {h : Halt} (hh : ¬ h.Undefined) :
    Follows good post (Traced.lift (Run.halt h) s) := .halted hh (by simp [Found])

theorem bind {post : α → State → Prop} {post' : β → State → Prop} {x : Traced α}
    {f : α → Traced β} (hx : Follows good post (x s))
    (hf : ∀ a t, post a t → Follows good post' (f a t)) : Follows good post' ((x >>= f) s) := by
  show Follows good post' (Traced.bind x f s)
  unfold Traced.bind
  generalize x s = r at hx
  cases hx with
  | halted hh hv => exact .halted hh hv
  | unbound hv hg hd => exact .unbound hv hg hd
  | @done a t visits ha hv =>
    have hrest := hf a t ha
    show Follows good post' ((f a t).1, visits ++ (f a t).2)
    generalize f a t = r' at hrest
    have hall : ∀ {more : List Visit}, Found good more → Found good (visits ++ more) :=
      fun hm v hv' => (List.mem_append.1 hv').elim (hv v) (hm v)
    cases hrest with
    | done hb hm => exact .done hb (hall hm)
    | halted hh hm => exact .halted hh (hall hm)
    | unbound hm hg hd =>
      show Follows good post' (_, visits ++ (_ ++ [_]))
      rw [← List.append_assoc]
      exact .unbound (hall hm) hg hd

/-- Looking up a name: what is found depends on whether it is bound. -/
theorem visit {post : α → State → Prop} {x : Run α} {index : Nat} {name : Token} {access : Access}
    {scopes : Scopes} (hm : Matches scopes s.env)
    (hx : (Env.owner? s.env name.lexeme = none ∧ x s = Run.undefined name access s) ∨
      Env.owner? s.env name.lexeme ≠ none ∧ ∃ a t, x s = .ok a t ∧ post a t) :
    Follows (Listed index (Pass.refer name access scopes).1) post
      (Traced.visit index name access x s) := by
  have hl : Listed index (Pass.refer name access scopes).1
      ⟨index, name, access, Env.owner? s.env name.lexeme⟩ :=
    ⟨0, rfl, by rw [hm.owner?_eq]; rfl⟩
  unfold Traced.visit
  rcases hx with ⟨ho, hx⟩ | ⟨ho, a, t, hx, ha⟩
  · rw [hx]
    have hnone : Found (Listed index (Pass.refer name access scopes).1) [] := by simp [Found]
    exact .unbound hnone hl ho
  · rw [hx]
    refine .done ha fun v hv => ?_
    rw [List.mem_singleton.1 hv]
    exact ⟨hl, ho⟩

theorem inChild {scopes : Scopes} {body : Traced Unit}
    (h : Follows good (fun _ t => Matches scopes t.env)
      (body { s with env := Env.child s.env })) :
    Follows good (fun _ t => Matches scopes.tail t.env) (Traced.inChild body s) := by
  unfold Traced.inChild Run.inChild Traced.run
  generalize body { s with env := Env.child s.env } = r at h
  cases h with
  | done ha hv => exact .done ha.leave hv
  | halted hh hv => exact .halted hh hv
  | unbound hv hg hd => exact .unbound hv hg hd

end Follows

/-! ## Expressions -/

theorem RenderFault.not_undefined (e : RenderFault) : ¬ e.halt.Undefined := by
  rintro ⟨name, access, line, file, h⟩
  cases e <;> cases h

theorem Halt.not_undefined {e : RunError} (h : ∀ name access, e.fault ≠ .undefined name access) :
    ¬ (Halt.error e).Undefined := by
  rintro ⟨name, access, line, file, he⟩
  cases he
  exact h name access rfl

namespace Interpreter

variable {good : Visit → Prop} {s : State} {scopes : Scopes}

theorem follows_blame {α : Type} {post : α → State → Prop} (i : Interpreter) (levels : Nat)
    (node : Node) {fault : String → RunFault} (line : Int)
    (hf : ∀ text name access, fault text ≠ .undefined name access) :
    Follows good post (Traced.lift (i.blame levels node fault line) s) := by
  unfold blame
  cases node.render levels 0 with
  | ok text => exact .halt (Halt.not_undefined (hf text))
  | error e => exact .halt e.not_undefined

theorem follows_get {index : Nat} (name : Token) (hm : Matches scopes s.env) :
    Follows (Listed index (Pass.refer name .get scopes).1) (fun _ t => Matches scopes t.env)
      (Traced.get index name s) := by
  apply Follows.visit hm
  rw [Ne, ← Env.get?_eq_none_iff]
  unfold Run.get
  cases h : Env.get? s.env name.lexeme with
  | none => exact .inl ⟨rfl, rfl⟩
  | some value => exact .inr ⟨by simp, value, s, rfl, hm⟩

theorem follows_set {index : Nat} (name : Token) (value : Value) (hm : Matches scopes s.env) :
    Follows (Listed index (Pass.refer name .set scopes).1) (fun _ t => Matches scopes t.env)
      (Traced.set index name value s) := by
  apply Follows.visit hm
  rw [Ne, ← Env.set?_eq_none_iff s.env name.lexeme value]
  unfold Run.set
  cases h : Env.set? name.lexeme value s.env with
  | none => exact .inl ⟨rfl, rfl⟩
  | some env => exact .inr ⟨by simp, (), { s with env := env }, rfl, hm.set? h⟩

/-- Evaluating an expression finds names where the resolver says and keeps every scope's names. -/
theorem follows_eval (i : Interpreter) {levels index : Nat} {node : Node}
    (hn : node.isExpr = true) (hm : Matches scopes s.env) :
    Follows (Listed index (node.resolve scopes).1) (fun _ t => Matches scopes t.env)
      (i.evalTraced levels index node s) := by
  induction levels generalizing index node s with
  | zero => exact .halt (by simp [Halt.Undefined])
  | succ levels ih =>
    -- the references of two expressions in a row
    have hright : ∀ {left right : Node}, left.isExpr = true → right.isExpr = true →
        ∀ {t : State}, Matches scopes t.env →
        Follows (Listed index (Pass.seq left.resolve right.resolve scopes).1)
          (fun _ t => Matches scopes t.env)
          (i.evalTraced levels (index + left.references) right t) := by
      intro left right hl hr t ht
      refine (ih hr ht).mono fun v hv => ?_
      refine Listed.right (left.length_resolve scopes) ?_
      rwa [left.snd_resolve_of_isExpr hl]
    cases node with
    | literal value => exact .pure hm
    | var name => exact follows_get name hm
    | grouping inner =>
      simp only [Node.isExpr] at hn
      exact ih hn hm
    | assign target value =>
      simp only [Node.isExpr] at hn
      refine .bind ((ih hn hm).mono fun v hv => .right rfl hv) fun a t ht => ?_
      exact .bind ((follows_set target a ht).mono fun v hv => .left hv) fun _ u hu => .pure hu
    | logical left op right line =>
      simp only [Node.isExpr, Bool.and_eq_true] at hn
      refine .bind ((ih hn.1.1 hm).mono fun v hv => .left hv) fun a t ht => ?_
      split
      · exact .pure ht
      · exact hright hn.1.1 hn.2 ht
    | unary op operand line =>
      simp only [Node.isExpr, Bool.and_eq_true] at hn
      refine .bind (ih hn.2 hm) fun a t ht => ?_
      split
      · exact .pure ht
      · cases a with
        | num x => exact .pure ht
        | nil | bool | str | native => exact follows_blame i _ _ _ (by simp)
    | binary left op right line =>
      simp only [Node.isExpr, Bool.and_eq_true] at hn
      refine .bind ((ih hn.1.1 hm).mono fun v hv => .left hv) fun a t ht => ?_
      refine .bind (hright hn.1.1 hn.2 ht) fun b u hu => ?_
      cases op.onValues a b with
      | ok v => exact .pure hu
      | error misfit =>
        cases misfit with
        | unknownOperator => exact .halt (Halt.not_undefined (by simp))
        | addition | arithmetic | divisionByZero =>
          exact follows_blame i _ _ _ (by simp [Misfit.fault])
    | varDecl | exprStmt | print | ifElse | whileLoop | block | bare => cases hn

/-! ## Statements -/

/-- Rounds keep what the condition and the body keep, however many there are. -/
theorem follows_loop {condition : Traced Bool} {body : Traced Unit}
    (hc : ∀ {t : State}, Matches scopes t.env →
      Follows good (fun _ t => Matches scopes t.env) (condition t))
    (hb : ∀ {t : State}, Matches scopes t.env →
      Follows good (fun _ t => Matches scopes t.env) (body t))
    (rounds : Nat) (hm : Matches scopes s.env) :
    Follows good (fun _ t => Matches scopes t.env) (Traced.loop condition body rounds s) := by
  induction rounds generalizing s with
  | zero => exact .halt (by simp [Halt.Undefined])
  | succ rounds ih =>
    refine .bind (hc hm) fun b t ht => ?_
    cases b with
    | false => exact .pure ht
    | true => exact .bind (hb ht) fun _ u hu => ih hu

/-- Running a statement leads from scopes that match the stack before it to scopes that match the
stack after it. -/
def Tracks (exec : Nat → Node → Traced Unit) : Prop :=
  ∀ (index : Nat) {node : Node} {scopes : Scopes} {s : State}, node.isStmt = true →
    node.sheltered = true → Matches scopes s.env →
    Follows (Listed index (node.resolve scopes).1)
      (fun _ t => Matches (node.resolve scopes).2 t.env) (exec index node s)

theorem follows_each {exec : Nat → Node → Traced Unit} (h : Tracks exec) (index : Nat)
    {nodes : List Node} (hn : ∀ a ∈ nodes, a.isStmt = true ∧ a.sheltered = true)
    (hm : Matches scopes s.env) :
    Follows (Listed index (Node.resolveAll nodes scopes).1)
      (fun _ t => Matches (Node.resolveAll nodes scopes).2 t.env)
      (Traced.each exec index nodes s) := by
  induction nodes generalizing index scopes s with
  | nil => exact .pure hm
  | cons node nodes ih =>
    obtain ⟨⟨hs, hh⟩, hrest⟩ := List.forall_mem_cons.1 hn
    refine .bind ((h index hs hh hm).mono fun v hv => .left hv) fun _ t ht => ?_
    exact (ih _ hrest ht).mono fun v hv => .right (node.length_resolve scopes) hv

mutual

theorem follows_exec (i : Interpreter) (levels : Nat) : Tracks (i.execTraced levels) := by
  intro index node scopes s hn hh hm
  cases levels with
  | zero =>
    unfold execTraced
    exact .halt (by simp [Halt.Undefined])
  | succ levels =>
    -- a branch or a body comes after the references before it and leaves the scopes as they are
    have hinner : ∀ {index n : Nat} {node : Node} {before : List Reference} {t : State},
        node.isStmt = true → node.sheltered = true → node.isDecl = false → before.length = n →
        Matches scopes t.env →
        Follows (Listed index (before ++ (node.resolve scopes).1))
          (fun _ t => Matches scopes t.env) (i.execTraced levels (index + n) node t) := by
      intro index n node before t hs hh hd hl ht
      have h := follows_exec i levels (index + n) hs hh ht
      rw [node.snd_resolve_of_isStmt hs hh hd] at h
      exact h.mono fun v hv => .right hl hv
    unfold execTraced
    cases node with
    | varDecl name initial =>
      cases initial with
      | none => exact .done (hm.define name.lexeme .nil) (by simp [Found])
      | some e =>
        simp only [Node.isStmt] at hn
        refine .bind ((follows_eval i hn hm).mono fun v hv => .left hv) fun a t ht => ?_
        simp only [Node.resolve, Pass.snd_seq, e.snd_resolve_of_isExpr hn]
        exact .done (ht.define name.lexeme a) (by simp [Found])
    | exprStmt e line =>
      simp only [Node.isStmt] at hn
      refine .bind (follows_eval i hn hm) fun a t ht => .pure ?_
      simpa only [Node.resolve, e.snd_resolve_of_isExpr hn] using ht
    | print e line =>
      simp only [Node.isStmt] at hn
      refine .bind (follows_eval i hn hm) fun a t ht => .done ?_ (by simp [Found])
      simpa only [Node.resolve, e.snd_resolve_of_isExpr hn] using ht
    | ifElse condition thenBranch elseBranch line =>
      cases elseBranch with
      | none =>
        simp only [Node.isStmt, Node.sheltered, Bool.and_eq_true, Bool.not_eq_true'] at hn hh
        obtain ⟨⟨hc, ht⟩, -⟩ := hn
        obtain ⟨⟨htd, hts⟩, -⟩ := hh
        simp only [Node.resolve, Pass.seq, condition.snd_resolve_of_isExpr hc,
          thenBranch.snd_resolve_of_isStmt ht hts htd]
        refine .bind ((follows_eval i hc hm).mono fun v hv => .left hv) fun a t hm' => ?_
        split
        · exact hinner ht hts htd (condition.length_resolve scopes) hm'
        · exact .pure hm'
      | some branch =>
        simp only [Node.isStmt, Node.isStmtOption, Node.sheltered, Node.shelteredElse,
          Bool.and_eq_true, Bool.not_eq_true'] at hn hh
        obtain ⟨⟨hc, ht⟩, he⟩ := hn
        obtain ⟨⟨htd, hts⟩, hed, hes⟩ := hh
        simp only [Node.resolve, Pass.seq, condition.snd_resolve_of_isExpr hc,
          thenBranch.snd_resolve_of_isStmt ht hts htd, branch.snd_resolve_of_isStmt he hes hed]
        refine .bind ((follows_eval i hc hm).mono fun v hv => .left hv) fun a t hm' => ?_
        split
        · rw [← List.append_assoc]
          exact (hinner ht hts htd (condition.length_resolve scopes) hm').mono fun v hv => .left hv
        · rw [← List.append_assoc, Nat.add_assoc]
          refine hinner he hes hed ?_ hm'
          rw [List.length_append, condition.length_resolve, thenBranch.length_resolve]
    | whileLoop condition body line =>
      simp only [Node.isStmt, Node.sheltered, Bool.and_eq_true, Bool.not_eq_true'] at hn hh
      have hkeeps := body.snd_resolve_of_isStmt hn.2 hh.2 hh.1 scopes
      simp only [Node.resolve, Pass.seq, condition.snd_resolve_of_isExpr hn.1, hkeeps]
      refine follows_loop (fun ht => ?_) (fun ht => ?_) i.rounds hm
      · exact .bind ((follows_eval i hn.1 ht).mono fun v hv => .left hv) fun _ u hu => .pure hu
      · exact hinner hn.2 hh.2 hh.1 (condition.length_resolve scopes) ht
    | block statements line =>
      exact follows_execBlock i levels hn hh hm
    | literal | var | unary | binary | logical | grouping | assign | bare => simp [Node.isStmt] at hn

theorem follows_execBlock (i : Interpreter) (levels : Nat) {index : Nat} {nodes : List Node}
    {scopes : Scopes} {s : State} (hn : Node.areStmts nodes = true)
    (hh : Node.allSheltered nodes = true) (hm : Matches scopes s.env) :
    Follows (Listed index (Pass.inChild (Node.resolveAll nodes) scopes).1)
      (fun _ t => Matches (Pass.inChild (Node.resolveAll nodes) scopes).2 t.env)
      (i.execBlockTraced levels index nodes s) := by
  cases levels with
  | zero =>
    unfold execBlockTraced
    exact .halt (by simp [Halt.Undefined])
  | succ levels =>
    unfold execBlockTraced
    refine .inChild (follows_each (follows_exec i levels) index (fun a ha => ?_) hm.child)
    exact ⟨Node.areStmts_iff.1 hn a ha, Node.allSheltered_iff.1 hh a ha⟩

end

theorem follows_topLevel (i : Interpreter) (levels : Nat) : Tracks (i.topLevelTraced levels) := by
  intro index node scopes s hn hh hm
  have h := follows_exec i levels index hn hh hm
  unfold topLevelTraced
  generalize i.execTraced levels index node s = r at h
  cases h with
  | done ha hv => exact .done ha hv
  | unbound hv hg hd => exact .unbound hv hg hd
  | @halted h t visits hh hv =>
    cases h with
    | tooDeep => exact .halted (Halt.not_undefined (by simp)) hv
    | error | malformed | unfinished => exact .halted hh hv

end Interpreter

/-! ## Programs -/

/-- Whether a run ended with the error that the visit found no binding. -/
def Visit.Stopped (v : Visit) (result : EStateM.Result Halt State Unit) : Prop :=
  ∃ file t, result = .error (v.halt file) t

namespace Follows

variable {good : Visit → Prop} {post : Unit → State → Prop} {visits : List Visit}
  {result : EStateM.Result Halt State Unit}

theorem good_of_mem (h : Follows good post (result, visits)) {v : Visit} (hv : v ∈ visits) :
    good v := by
  cases h with
  | done _ hf | halted _ hf => exact (hf v hv).1
  | unbound hf hg =>
    rcases List.mem_append.1 hv with hv | hv
    · exact (hf v hv).1
    · rw [List.mem_singleton.1 hv]
      exact hg

theorem exists_of_undefined (h : Follows good post (result, visits)) {halt : Halt} {t : State}
    (hr : result = .error halt t) (hu : halt.Undefined) :
    ∃ front v, visits = front ++ [v] ∧ v.reference.depth = none ∧ v.Stopped result := by
  cases h with
  | done => cases hr
  | halted hh =>
    cases hr
    exact absurd hu hh
  | @unbound v file t' front _ _ hd => exact ⟨front, v, rfl, hd, file, t', rfl⟩

/-- A visit finds no binding exactly if it is the last one and its error ends the run. -/
theorem unbound_iff (h : Follows good post (result, visits)) {front back : List Visit} {v : Visit}
    (hv : visits = front ++ v :: back) :
    v.reference.depth = none ↔ back = [] ∧ v.Stopped result := by
  constructor
  · intro hd
    have hnot : ¬ Found good visits := fun hf =>
      (hf v (by rw [hv]; exact List.mem_append_right _ List.mem_cons_self)).2 hd
    cases h with
    | done _ hf | halted _ hf => exact absurd hf hnot
    | @unbound w file t front' hf _ _ =>
      rcases List.eq_nil_or_concat back with rfl | ⟨back', u, rfl⟩
      · obtain ⟨-, hw⟩ := List.append_inj' hv rfl
        cases hw
        exact ⟨rfl, file, t, rfl⟩
      · -- the visit stands before the last one, so it found its name
        rw [List.concat_eq_append, ← List.cons_append, ← List.append_assoc] at hv
        obtain ⟨rfl, -⟩ := List.append_inj' hv rfl
        exact absurd hd (hf v (List.mem_append_right _ List.mem_cons_self)).2
  · rintro ⟨rfl, file, t, hr⟩
    obtain ⟨front', w, hw, hd, -⟩ := h.exists_of_undefined hr ⟨_, _, _, _, rfl⟩
    rw [hv] at hw
    obtain ⟨-, hw⟩ := List.append_inj' hw rfl
    cases hw
    exact hd

end Follows

/-- In every run of an accepted program from globals of the given names, each reference that the run
comes to has its binding as many scopes away as the resolver says, and the run is stopped by the
error of an unbound name exactly where it comes to a reference that the resolver finds unbound. -/
theorem interpret_lexical (i : Interpreter) (levels : Nat) {tokens : List Token}
    {program : List Node} (hp : parse tokens = .ok program) {names : List String} {scope : Scope}
    (hn : ∀ x, x ∈ names ↔ scope.holds x = true) (output : String) :
    ∃ visits, i.interpretTraced levels program ⟨[scope], output⟩ =
        (i.interpret levels program ⟨[scope], output⟩, visits) ∧
      (∀ v ∈ visits, (Node.resolveAll program [names]).1[v.index]? = some v.reference) ∧
      (∀ front v back, visits = front ++ v :: back → (v.reference.depth = none ↔
        back = [] ∧ v.Stopped (i.interpret levels program ⟨[scope], output⟩))) ∧
      ∀ halt t, i.interpret levels program ⟨[scope], output⟩ = .error halt t → halt.Undefined →
        ∃ front v, visits = front ++ [v] ∧ v.reference.depth = none ∧
          v.Stopped (i.interpret levels program ⟨[scope], output⟩) := by
  have hm : Matches [names] (⟨[scope], output⟩ : State).env := .cons hn .nil
  have h := Interpreter.follows_each (i.follows_topLevel levels) 0 (parse_shape hp) hm
  rw [← i.run_interpretTraced]
  unfold Traced.run Interpreter.interpretTraced
  generalize Traced.each (i.topLevelTraced levels) 0 program ⟨[scope], output⟩ = r at h ⊢
  obtain ⟨result, visits⟩ := r
  refine ⟨visits, rfl, fun v hv => ?_, fun front v back => h.unbound_iff, fun halt t hr hu => ?_⟩
  · obtain ⟨n, hi, hr⟩ := h.good_of_mem hv
    rwa [hi, Nat.zero_add]
  · exact h.exists_of_undefined hr hu

/-- `var x = true; while (x) { var y = x; x = !y; } print y;` -/
def leakTokens : List Token :=
  [⟨.varWord, "var", .nil, 1⟩, ⟨.identifier, "x", .nil, 1⟩, ⟨.equal, "=", .nil, 1⟩,
   ⟨.trueWord, "true", .nil, 1⟩, ⟨.semicolon, ";", .nil, 1⟩, ⟨.whileWord, "while", .nil, 2⟩,
   ⟨.leftParen, "(", .nil, 2⟩, ⟨.identifier, "x", .nil, 2⟩, ⟨.rightParen, ")", .nil, 2⟩,
   ⟨.leftBrace, "\x7b", .nil, 2⟩, ⟨.varWord, "var", .nil, 3⟩, ⟨.identifier, "y", .nil, 3⟩,
   ⟨.equal, "=", .nil, 3⟩, ⟨.identifier, "x", .nil, 3⟩, ⟨.semicolon, ";", .nil, 3⟩,
   ⟨.identifier, "x", .nil, 4⟩, ⟨.equal, "=", .nil, 4⟩, ⟨.bang, "!", .nil, 4⟩,
   ⟨.identifier, "y", .nil, 4⟩, ⟨.semicolon, ";", .nil, 4⟩, ⟨.rightBrace, "\x7d", .nil, 5⟩,
   ⟨.printWord, "print", .nil, 6⟩, ⟨.identifier, "y", .nil, 6⟩, ⟨.semicolon, ";", .nil, 6⟩]

def leakProgram : List Node :=
  [.varDecl ⟨.identifier, "x", .nil, 1⟩ (some (.literal (.bool true))),
   .whileLoop (.var ⟨.identifier, "x", .nil, 2⟩)
    (.block [.varDecl ⟨.identifier, "y", .nil, 3⟩ (some (.var ⟨.identifier, "x", .nil, 3⟩)),
      .exprStmt (.assign ⟨.identifier, "x", .nil, 4⟩
        (.unary .not (.var ⟨.identifier, "y", .nil, 4⟩) 4)) 4] 2) 2,
   .print (.var ⟨.identifier, "y", .nil, 6⟩) 6]

def clockScope : Scope :=
  (Scope.empty none).define Interpreter.clock.name (.native Interpreter.clock)

theorem interpret_lexical_leak :
    parse leakTokens = .ok leakProgram ∧ (∀ x, x ∈ ["clock"] ↔ clockScope.holds x = true) ∧
      (Node.resolveAll leakProgram [["clock"]]).1.map (·.depth) =
        [some 0, some 1, some 1, some 0, none] ∧
      ∃ front v, Interpreter.interpretTraced ⟨none, 9⟩ Interpreter.limit leakProgram
          ⟨[clockScope], ""⟩ =
          (Interpreter.interpret ⟨none, 9⟩ Interpreter.limit leakProgram ⟨[clockScope], ""⟩,
            front ++ [v]) ∧ v.index = 4 ∧
        v.Stopped (Interpreter.interpret ⟨none, 9⟩ Interpreter.limit leakProgram
          ⟨[clockScope], ""⟩) := by
  have hp : parse leakTokens = .ok leakProgram := rfl
  have hn : ∀ x, x ∈ ["clock"] ↔ clockScope.holds x = true := by
    intro x
    unfold clockScope
    rw [Scope.holds_define]
    simp [Scope.holds, Interpreter.clock]
  have hdepths : (Node.resolveAll leakProgram [["clock"]]).1.map (·.depth) =
      [some 0, some 1, some 1, some 0, none] := by decide
  obtain ⟨visits, htrace, hlisted, -, hundefined⟩ :=
    interpret_lexical ⟨none, 9⟩ Interpreter.limit hp hn ""
  obtain ⟨front, v, rfl, hd, hstop⟩ := hundefined _ _ rfl ⟨_, _, _, _, rfl⟩
  refine ⟨hp, hn, hdepths, front, v, htrace, ?_, hstop⟩
  have hv := hlisted v (List.mem_append_right _ (List.mem_singleton_self v))
  have hnone : ((Node.resolveAll leakProgram [["clock"]]).1.map (·.depth))[v.index]? =
      some none := by
    rw [List.getElem?_map, hv, Option.map_some, hd]
  rw [hdepths] at hnone
  rcases hi : v.index with _ | _ | _ | _ | _ | n <;> simp [hi] at hnone ⊢

end Lox
