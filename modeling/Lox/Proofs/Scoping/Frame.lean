import Lox.Proofs.Eval.Actions
import Lox.Proofs.Scoping.Changes

/-!
# What a statement may touch

`a.assigns x`: the tree `a` assigns the name `x` free, which is to say that no block in `a` around the
assignment has declared the name before. An expression changes no scope but for the values of names
that it assigns (`Frames`, `frames_eval`). So does a statement that is no declaration: what its
blocks declare is gone with their scopes, and hides the name from the statements after it
(`kept_each`). A declaration adds its name to the scope it runs in (`changes_varDecl`).

Main statement (`exec_frame`): in a forest of scopes, whether it ends well or not, a statement leaves
all links, files and names as they were, but for the name that it declares, and of the values it
changes only those that its scope finds under a name that it assigns free. What was printed stays
printed.
-/

set_option autoImplicit false

namespace Lox

namespace Node

/-- Whether the statement declares the name in the scope it runs in. -/
def declares (name : String) : Node → Bool
  | varDecl x _ => x.lexeme == name
  | _ => false

mutual

/-- Whether the tree assigns the name, other than in the reach of a declaration of the name in one
of its own blocks. -/
def assigns (name : String) : Node → Bool
  | literal _ | var _ | bare _ | varDecl _ none => false
  | unary _ a _ | grouping a | exprStmt a _ | print a _ | varDecl _ (some a) => a.assigns name
  | binary a _ b _ | logical a _ b _ | whileLoop a b _ | ifElse a b none _ =>
    a.assigns name || b.assigns name
  | assign x a => x.lexeme == name || a.assigns name
  | ifElse c t (some e) _ => c.assigns name || (t.assigns name || e.assigns name)
  | block as _ => anyAssigns name as

/-- The same of statements that run in one scope: a declaration reaches those after it. -/
def anyAssigns (name : String) : List Node → Bool
  | [] => false
  | a :: as => a.assigns name || (!a.declares name && anyAssigns name as)

end

theorem declares_eq_false {a : Node} (h : a.isDecl = false) (name : String) :
    a.declares name = false := by
  cases a <;> first | rfl | cases h

end Node

/-! ## Expressions -/

/-- What an expression may say that assigns only the given names. -/
def Mention.Assigns (assigned : String → Prop) : Mention → Prop
  | assign x => assigned x.lexeme
  | declare _ => False
  | _ => True

theorem Node.assigns_of_isExpr {assigned : String → Prop} (a : Node) (ha : a.isExpr = true)
    (h : ∀ x, a.assigns x = true → assigned x) : ∀ m ∈ a.mentions, m.Assigns assigned := by
  match a with
  | literal _ => simp [mentions]
  | var _ => simp [mentions, Mention.Assigns]
  | grouping a => exact a.assigns_of_isExpr ha h
  | unary _ a _ =>
    simp only [isExpr, Bool.and_eq_true] at ha
    exact List.forall_mem_cons.2 ⟨trivial, a.assigns_of_isExpr ha.2 h⟩
  | assign x a =>
    refine List.forall_mem_cons.2 ⟨h x.lexeme (by simp [assigns]), a.assigns_of_isExpr ha ?_⟩
    intro y hy
    exact h y (by simp [assigns, hy])
  | binary a _ b _ =>
    simp only [isExpr, Bool.and_eq_true] at ha
    refine List.forall_mem_cons.2 ⟨trivial, List.forall_mem_append.2 ⟨?_, ?_⟩⟩
    · exact a.assigns_of_isExpr ha.1.1 fun y hy => h y (by simp [assigns, hy])
    · exact b.assigns_of_isExpr ha.2 fun y hy => h y (by simp [assigns, hy])
  | logical a _ b _ =>
    simp only [isExpr, Bool.and_eq_true] at ha
    refine List.forall_mem_append.2 ⟨?_, ?_⟩
    · exact a.assigns_of_isExpr ha.1.1 fun y hy => h y (by simp [assigns, hy])
    · exact b.assigns_of_isExpr ha.2 fun y hy => h y (by simp [assigns, hy])
  | varDecl _ _ | exprStmt _ _ | print _ _ | ifElse _ _ _ _ | whileLoop _ _ _ | block _ _
  | bare _ => simp [isExpr] at ha

/-- The chain has changed, and nothing printed was taken back. -/
structure State.Changed (declared assigned : String → Prop) (s t : State) : Prop where
  env : Env.Changed declared assigned s.env t.env
  output : ∃ more, t.output = s.output ++ more

abbrev State.Kept (assigned : String → Prop) : State → State → Prop :=
  State.Changed (fun _ => False) assigned

namespace State.Kept

variable {declared assigned : String → Prop} {s t u : State}

theorem of_env {env : Env} (h : Env.Kept assigned s.env env) :
    State.Kept assigned s { s with env := env } := ⟨h, "", by simp⟩

theorem refl (assigned : String → Prop) (s : State) : State.Kept assigned s s :=
  of_env (Env.Kept.refl assigned s.env)

theorem trans (h : State.Kept assigned s t) (h' : State.Changed declared assigned t u) :
    State.Changed declared assigned s u := by
  obtain ⟨more, hmore⟩ := h.output
  obtain ⟨more', hmore'⟩ := h'.output
  exact ⟨Env.Kept.trans h.env h'.env, more ++ more', by rw [hmore', hmore, String.append_assoc]⟩

end State.Kept

theorem State.Changed.mono {declared assigned assigned' : String → Prop} {s t : State}
    (h : State.Changed declared assigned s t) (ha : ∀ x, assigned x → assigned' x) :
    State.Changed declared assigned' s t :=
  ⟨h.env.mono ha, h.output⟩

/-- However the run ends, only values of the given names have changed. -/
def Frames (assigned : String → Prop) {α : Type} (x : Run α) : Prop :=
  ∀ s : State, Run.Ends (fun _ => s.Kept assigned) (fun _ => s.Kept assigned) (x s)

namespace Frames

variable {assigned : String → Prop} {α β : Type}

theorem pure (a : α) : Frames assigned (Pure.pure a) := fun s => .ok (.refl assigned s)

theorem halt (h : Halt) : Frames assigned (Run.halt h : Run α) := fun s => .error (.refl assigned s)

theorem bind {x : Run α} {f : α → Run β} (hx : Frames assigned x)
    (hf : ∀ a, Frames assigned (f a)) : Frames assigned (x >>= f) := by
  intro s
  refine .bind (hx s) fun a t ht => ?_
  exact (hf a t).mono (fun _ _ hu => ht.trans hu) fun _ _ hu => ht.trans hu

theorem print (text : String) : Frames assigned (Run.print text) := fun s =>
  .ok ⟨Env.Kept.refl assigned s.env, text ++ "\n", by simp [String.append_assoc]⟩

theorem loop {c : Run Bool} {x : Run Unit} (hc : Frames assigned c) (hx : Frames assigned x)
    (rounds : Nat) : Frames assigned (Run.loop c x rounds) := by
  induction rounds with
  | zero => exact halt .unfinished
  | succ rounds ih =>
    refine bind hc fun b => ?_
    cases b with
    | true => exact bind hx fun _ => ih
    | false => exact pure ()

theorem of_within {file : Option String} {x : Run α}
    (h : Run.Within file (Mention.Assigns assigned) x) : Frames assigned x := by
  induction h with
  | pure a => exact pure a
  | bind _ _ ihx ihf => exact bind ihx ihf
  | print text => exact print text
  | halt => exact halt _
  | define h => exact h.elim
  | @get name _ =>
    intro s
    unfold Run.get
    cases Env.get? s.env name.lexeme with
    | none => exact .error (.refl assigned s)
    | some value => exact .ok (.refl assigned s)
  | @set name h value =>
    intro s
    unfold Run.set
    cases hset : Env.set? name.lexeme value s.env with
    | none => exact .error (.refl assigned s)
    | some env => exact .ok (.of_env (.set? h hset))
  | inChild _ ih =>
    intro s
    refine .inChild ((ih { s with env := Env.child s.env }).mono ?_ ?_)
    · exact fun _ t ht => ⟨Env.Kept.leave ht.env, ht.output⟩
    · exact fun _ t ht => ⟨Env.Kept.leave ht.env, ht.output⟩

end Frames

/-! ## Statements -/

/-- The statement `a`, run as `x`, declares its name if it ends well, and assigns only its names. -/
def Changes (a : Node) (x : Run Unit) : Prop :=
  ∀ s : State, s.env ≠ [] →
    Run.Ends (fun _ => s.Changed (a.declares · = true) (a.assigns · = true))
      (fun _ => s.Kept (a.assigns · = true)) (x s)

/-- Statements of a block, in its scope `c`. The names that they declare are in `c` and hide what
they assign after that from the scopes around. -/
theorem kept_each {exec : Node → Run Unit} {as : List Node} (h : ∀ a ∈ as, Changes a (exec a))
    (c : Scope) (outer : Env) (output : String) :
    Run.Ends
      (fun _ t => State.Kept (fun x => Node.anyAssigns x as = true ∧ ¬ c.holds x = true)
        ⟨outer, output⟩ { t with env := Env.leave t.env })
      (fun _ t => State.Kept (fun x => Node.anyAssigns x as = true ∧ ¬ c.holds x = true)
        ⟨outer, output⟩ { t with env := Env.leave t.env })
      (Run.each exec as ⟨c :: outer, output⟩) := by
  induction as generalizing c outer output with
  | nil => exact .ok (.refl _ _)
  | cons a as ih =>
    obtain ⟨ha, has⟩ := List.forall_mem_cons.1 h
    have hfirst := ha ⟨c :: outer, output⟩ (by simp)
    refine .bind (hfirst.mono (fun _ _ ht => ht) fun _ t ht => ?_) fun _ t ht => ?_
    · obtain ⟨henv, houtput⟩ := ht
      cases t with
      | mk env output' =>
        cases henv with
        | cons _ hrest =>
          refine ⟨hrest.mono fun x hx => ⟨?_, hx.2⟩, houtput⟩
          simp [Node.anyAssigns, hx.1]
    · obtain ⟨henv, houtput⟩ := ht
      cases t with
      | mk env output' =>
        cases henv with
        | @cons _ _ _ c' _ outer' hscope hrest =>
          have hstep : State.Kept (fun x => Node.anyAssigns x (a :: as) = true ∧ ¬ c.holds x = true)
              ⟨outer, output⟩ ⟨outer', output'⟩ := by
            refine ⟨hrest.mono fun x hx => ⟨?_, hx.2⟩, houtput⟩
            simp [Node.anyAssigns, hx.1]
          -- a name that is free after `a` is neither in `c` nor declared by `a`
          have hnext : ∀ x, Node.anyAssigns x as = true ∧ ¬ c'.holds x = true →
              Node.anyAssigns x (a :: as) = true ∧ ¬ c.holds x = true := by
            intro x hx
            have hnot := hx.2
            rw [hscope.names, not_or] at hnot
            refine ⟨?_, hnot.1⟩
            simp [Node.anyAssigns, hx.1, hnot.2]
          refine (ih has c' outer' output').mono (fun _ u hu => ?_) fun _ u hu => ?_
          · exact hstep.trans (hu.mono hnext)
          · exact hstep.trans (hu.mono hnext)

namespace Interpreter

variable (i : Interpreter)

theorem frames_eval {assigned : String → Prop} (levels : Nat) {e : Node} (he : e.isExpr = true)
    (h : ∀ x, e.assigns x = true → assigned x) : Frames assigned (i.eval levels e) :=
  .of_within (i.within_eval levels (e.assigns_of_isExpr he h))

theorem changes_varDecl (levels : Nat) {x : Token} {initial : Option Node}
    (h : (Node.varDecl x initial).isStmt = true) :
    Changes (.varDecl x initial) (i.exec levels (.varDecl x initial)) := by
  intro s hs
  have hdeclares : ((Node.varDecl x initial).declares · = true) = (· = x.lexeme) := by
    funext y
    simp only [Node.declares, beq_iff_eq]
    exact propext eq_comm
  rw [hdeclares]
  cases levels with
  | zero =>
    unfold exec
    exact .error (.refl _ s)
  | succ levels =>
    cases initial with
    | none =>
      simp only [exec]
      exact .ok ⟨.define hs x.lexeme .nil, "", by simp⟩
    | some e =>
      simp only [exec]
      refine .bind (i.frames_eval levels h (fun _ hy => hy) s) fun v t ht => .ok ?_
      exact ht.trans ⟨.define (ht.env.ne_nil hs) x.lexeme v, "", by simp⟩

/-- A statement that is no declaration declares nothing. -/
theorem changes_of_frames (levels : Nat) {a : Node} (ha : a.isStmt = true)
    (h : a.isDecl = false → Frames (a.assigns · = true) (i.exec levels a)) :
    Changes a (i.exec levels a) := by
  cases hd : a.isDecl with
  | true =>
    cases a with
    | varDecl x initial => exact i.changes_varDecl levels ha
    | _ => cases hd
  | false =>
    intro s _
    have hnone : (a.declares · = true) = fun _ : String => False := by
      funext name
      rw [a.declares_eq_false hd]
      simp
    rw [hnone]
    exact h hd s

mutual

theorem frames_exec {assigned : String → Prop} (levels : Nat) {a : Node} (ha : a.isStmt = true)
    (hs : a.sheltered = true) (hd : a.isDecl = false) (h : ∀ x, a.assigns x = true → assigned x) :
    Frames assigned (i.exec levels a) := by
  cases levels with
  | zero =>
    unfold exec
    exact .halt .tooDeep
  | succ levels =>
    cases a with
    | varDecl => cases hd
    | exprStmt e line =>
      simp only [exec]
      exact .bind (frames_eval i levels ha h) fun _ => .pure ()
    | print e line =>
      simp only [exec]
      exact .bind (frames_eval i levels ha h) fun v => .print v.text
    | ifElse condition thenBranch elseBranch line =>
      cases elseBranch with
      | none =>
        simp only [Node.isStmt, Node.sheltered, Bool.and_eq_true, Bool.not_eq_true'] at ha hs
        simp only [exec]
        refine .bind ?_ fun v => ?_
        · exact frames_eval i levels ha.1.1 fun x hx => h x (by simp [Node.assigns, hx])
        · split
          · exact frames_exec levels ha.1.2 hs.1.2 hs.1.1 fun x hx => h x (by simp [Node.assigns, hx])
          · exact .pure ()
      | some branch =>
        simp only [Node.isStmt, Node.isStmtOption, Node.sheltered, Node.shelteredElse,
          Bool.and_eq_true, Bool.not_eq_true'] at ha hs
        simp only [exec]
        refine .bind ?_ fun v => ?_
        · exact frames_eval i levels ha.1.1 fun x hx => h x (by simp [Node.assigns, hx])
        · split
          · exact frames_exec levels ha.1.2 hs.1.2 hs.1.1 fun x hx => h x (by simp [Node.assigns, hx])
          · exact frames_exec levels ha.2 hs.2.2 hs.2.1 fun x hx => h x (by simp [Node.assigns, hx])
    | whileLoop condition body line =>
      simp only [Node.isStmt, Node.sheltered, Bool.and_eq_true, Bool.not_eq_true'] at ha hs
      simp only [exec]
      refine .loop (.bind ?_ fun v => .pure (Value.truthy v)) ?_ i.rounds
      · exact frames_eval i levels ha.1 fun x hx => h x (by simp [Node.assigns, hx])
      · exact frames_exec levels ha.2 hs.2 hs.1 fun x hx => h x (by simp [Node.assigns, hx])
    | block statements line =>
      simp only [exec]
      exact frames_execBlock levels (Node.areStmts_iff.1 ha) (Node.allSheltered_iff.1 hs) h
    | literal | var | unary | binary | logical | grouping | assign | bare =>
      simp [Node.isStmt] at ha

theorem frames_execBlock {assigned : String → Prop} (levels : Nat) {as : List Node}
    (ha : ∀ a ∈ as, a.isStmt = true) (hs : ∀ a ∈ as, a.sheltered = true)
    (h : ∀ x, Node.anyAssigns x as = true → assigned x) :
    Frames assigned (i.execBlock levels as) := by
  cases levels with
  | zero =>
    unfold execBlock
    exact .halt .tooDeep
  | succ levels =>
    have hchanges : ∀ a ∈ as, Changes a (i.exec levels a) := by
      intro a hmem
      refine i.changes_of_frames levels (ha a hmem) fun hd => ?_
      exact frames_exec levels (ha a hmem) (hs a hmem) hd fun _ hx => hx
    intro s
    unfold execBlock
    refine .inChild ((kept_each hchanges (.empty s.env.file) s.env s.output).mono ?_ ?_)
    · exact fun _ t ht => ht.mono fun x hx => h x hx.1
    · exact fun _ t ht => ht.mono fun x hx => h x hx.1

end

theorem changes_exec (levels : Nat) {a : Node} (ha : a.isStmt = true) (hs : a.sheltered = true) :
    Changes a (i.exec levels a) :=
  i.changes_of_frames levels ha fun hd => i.frames_exec levels ha hs hd fun _ hx => hx

end Interpreter

/-! ## Statements in a forest -/

theorem Forest.chain_ne_nil {f : Forest} {n : Nat} (hn : n < f.length) : f.chain n ≠ [] := by
  induction f with
  | nil => simp at hn
  | cons newest older ih =>
    unfold chain
    by_cases he : n = older.length
    · rw [if_pos he]
      simp
    · rw [if_neg he]
      rw [List.length_cons] at hn
      exact ih (by omega)

namespace Interpreter

/-- A statement of the parser, run in any scope of a forest. However it ends, no scope has another
link, another file or other names, but that the scope it runs in holds the name of a declaration that
ended well; only that name there, and what the scope finds under a name that the statement assigns
free, may have another value; and the text printed before is still there. -/
theorem exec_frame (i : Interpreter) (levels : Nat) {a : Node} (ha : a.Parsed) (f : Forest) {n : Nat}
    (hn : n < f.length) (output : String) {ending : Except Failure Unit} {t : State}
    (hrun : (i.exec levels a).outcome ⟨f.chain n, output⟩ = (ending, t)) :
    Forest.Changed (fun x => ending = .ok () ∧ a.declares x = true) (fun x => a.assigns x = true) n f
        (f.restore n t.env) ∧
      ∃ more, t.output = output ++ more := by
  obtain ⟨hstmt, hsheltered⟩ := ha.shape
  have hends := i.changes_exec levels hstmt hsheltered ⟨f.chain n, output⟩ (Forest.chain_ne_nil hn)
  rcases hends.of_outcome hrun with ⟨_, rfl, ht⟩ | ⟨halt, rfl, ht⟩
  · refine ⟨?_, ht.output⟩
    simpa using Forest.changed_restore ht.env
  · refine ⟨?_, ht.output⟩
    simpa using Forest.changed_restore ht.env

/-- `{ y = x; var x = y; x = -x; }`: what it assigns to `x` stays in the block. -/
def shadowTokens : List Token :=
  [⟨.leftBrace, "\x7b", .nil, 1⟩, ⟨.identifier, "y", .nil, 1⟩, ⟨.equal, "=", .nil, 1⟩,
   ⟨.identifier, "x", .nil, 1⟩, ⟨.semicolon, ";", .nil, 1⟩, ⟨.varWord, "var", .nil, 2⟩,
   ⟨.identifier, "x", .nil, 2⟩, ⟨.equal, "=", .nil, 2⟩, ⟨.identifier, "y", .nil, 2⟩,
   ⟨.semicolon, ";", .nil, 2⟩, ⟨.identifier, "x", .nil, 3⟩, ⟨.equal, "=", .nil, 3⟩,
   ⟨.minus, "-", .nil, 3⟩, ⟨.identifier, "x", .nil, 3⟩, ⟨.semicolon, ";", .nil, 3⟩,
   ⟨.rightBrace, "\x7d", .nil, 3⟩]

def shadowTree : Node :=
  .block
    [.exprStmt (.assign ⟨.identifier, "y", .nil, 1⟩ (.var ⟨.identifier, "x", .nil, 1⟩)) 1,
     .varDecl ⟨.identifier, "x", .nil, 2⟩ (some (.var ⟨.identifier, "y", .nil, 2⟩)),
     .exprStmt (.assign ⟨.identifier, "x", .nil, 3⟩
       (.unary .neg (.var ⟨.identifier, "x", .nil, 3⟩) 3)) 3] 1

/-- Two scopes with a `y` inside one with an `x`. -/
def shadowForest : Forest :=
  [⟨⟨[("y", .bool true)], none⟩, some 0⟩, ⟨⟨[("y", .nil)], none⟩, some 0⟩,
   ⟨⟨[("x", .str "a")], none⟩, none⟩]

/-- What the block leaves of the inner scope with number one and the scope around it. -/
def shadowState : State := ⟨[⟨[("y", .str "a")], none⟩, ⟨[("x", .str "a")], none⟩], "z\n"⟩

theorem exec_frame_shadowed :
    shadowTree.Parsed ∧ 1 < shadowForest.length ∧
      (Interpreter.exec ⟨none, 1⟩ 9 shadowTree).outcome ⟨shadowForest.chain 1, "z\n"⟩ =
        (.error (.error (.run ⟨.negation "-x", 3, none⟩)), shadowState) ∧
      (shadowForest.restore 1 shadowState.env).find? 1 "y" = some (.str "a") ∧
      (shadowForest.restore 1 shadowState.env).find? 0 "x" = shadowForest.find? 0 "x" ∧
      (shadowForest.restore 1 shadowState.env).find? 2 "y" = shadowForest.find? 2 "y" ∧
      (shadowForest.restore 1 shadowState.env).holds 1 "x" = false := by
  have hparsed : shadowTree.Parsed :=
    ⟨20, .block, Cursor.start shadowTokens, ⟨.eof 3, []⟩, rfl, Cursor.closed_start _, rfl⟩
  have hn : 1 < shadowForest.length := by decide
  have hrun : (Interpreter.exec ⟨none, 1⟩ 9 shadowTree).outcome ⟨shadowForest.chain 1, "z\n"⟩ =
      (.error (.error (.run ⟨.negation "-x", 3, none⟩)), shadowState) := rfl
  obtain ⟨hchanged, -⟩ := exec_frame ⟨none, 1⟩ 9 hparsed shadowForest hn "z\n" hrun
  refine ⟨hparsed, hn, hrun, rfl, ?_, ?_, ?_⟩
  · exact hchanged.values 0 "x" (by simp) (by decide)
  · exact hchanged.values 2 "y" (by simp) (by decide)
  · have hnames := hchanged.names 1 "x"
    simpa [show shadowForest.holds 1 "x" = false from rfl] using hnames

end Interpreter

end Lox
