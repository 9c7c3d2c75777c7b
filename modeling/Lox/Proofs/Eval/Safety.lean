import Lox.Eval
import Lox.Proofs.Grammar.Leaves
import Lox.Proofs.Syntax.Pieces

/-!
# Programs that can be parsed do not go wrong

Trees made by hand may be malformed, and a run that meets a malformed tree halts in a way that no
program should see. Trees that the parser makes are well formed, and then a run ends well, goes on
for too many rounds, or halts with an error of the language.

`Safe natives halts post x`: from scopes that bind only values over the given natives, `x` leaves
such scopes behind; its value passes `post`, or it halts in a way that `halts` allows. One lemma for
each action of a run keeps this, and one for each form of tree follows; the error messages render
the tree that failed, so that rendering an expression never meets a malformed tree either
(`render_isExpr`).

Main statement (`interpret_safe`).
-/

set_option autoImplicit false

namespace Lox

/-! ## Values of the language -/

/-- The value is `nil`, a truth value, a number, a string, or one of the given natives. -/
def Value.Over (natives : Native → Prop) : Value → Prop
  | nil | bool _ | num _ | str _ => True
  | native f => natives f

/-- All bindings of the chain hold values over the given natives. -/
def Env.Over (natives : Native → Prop) (env : Env) : Prop :=
  ∀ scope ∈ env, ∀ binding ∈ scope.bindings, binding.2.Over natives

section
variable {natives : Native → Prop}

theorem Scope.over_put {name : String} {value : Value} (hv : value.Over natives)
    {bindings : List (String × Value)} (h : ∀ b ∈ bindings, b.2.Over natives) :
    ∀ b ∈ put name value bindings, b.2.Over natives := by
  induction bindings with
  | nil => simpa [put] using hv
  | cons binding rest ih =>
    obtain ⟨hfirst, hrest⟩ := List.forall_mem_cons.1 h
    unfold put
    split
    · exact List.forall_mem_cons.2 ⟨hv, hrest⟩
    · exact List.forall_mem_cons.2 ⟨hfirst, ih hrest⟩

namespace Env.Over

variable {env : Env} {name : String} {value : Value}

theorem get? (h : Env.Over natives env) (hget : Env.get? env name = some value) :
    value.Over natives := by
  obtain ⟨scope, hs, hfind⟩ := List.exists_of_findSome?_eq_some hget
  obtain ⟨before, after, hb, -⟩ := List.lookup_eq_some_iff.1 hfind
  exact h scope hs (name, value) (by rw [hb]; simp)

theorem define (h : Env.Over natives env) (hv : value.Over natives) :
    Env.Over natives (Env.define name value env) := by
  cases env with
  | nil =>
    intro scope hs
    rw [List.mem_singleton.1 hs]
    exact Scope.over_put hv (by simp [Scope.empty])
  | cons scope outer =>
    obtain ⟨hscope, houter⟩ := List.forall_mem_cons.1 h
    exact List.forall_mem_cons.2 ⟨Scope.over_put hv hscope, houter⟩

theorem set? {after : Env} (h : Env.Over natives env) (hv : value.Over natives)
    (hset : Env.set? name value env = some after) : Env.Over natives after := by
  induction env generalizing after with
  | nil => cases hset
  | cons scope outer ih =>
    obtain ⟨hscope, houter⟩ := List.forall_mem_cons.1 h
    unfold Env.set? at hset
    split at hset
    · cases hset
      exact List.forall_mem_cons.2 ⟨Scope.over_put hv hscope, houter⟩
    · obtain ⟨rest, hrest, rfl⟩ := Option.map_eq_some_iff.1 hset
      exact List.forall_mem_cons.2 ⟨hscope, ih houter hrest⟩

theorem child (h : Env.Over natives env) : Env.Over natives (Env.child env) :=
  List.forall_mem_cons.2 ⟨by simp [Scope.empty], h⟩

theorem leave (h : Env.Over natives env) : Env.Over natives (Env.leave env) :=
  fun scope hs => h scope (List.mem_of_mem_tail hs)

end Env.Over

end

/-! ## Errors of the language -/

/-- The faults that a program may run into: a name that is not bound, an operand of the wrong kind,
division by zero, and too deep nesting. -/
def RunFault.Expected (fault : RunFault) : Prop :=
  fault.category = .undefinedVariable ∨ fault.category = .operandType ∨
    fault.category = .runtime ∧
      ((∃ text, fault.detail = "division by zero: " ++ text) ∨
        fault.detail = "expression nested too deeply")

/-- How a program may halt. -/
inductive Halt.Expected : Halt → Prop
  | error {e : RunError} (h : e.fault.Expected) : Expected (.error e)
  | unfinished : Expected .unfinished

/-- How a statement of a program may halt: nesting that is too deep is not an error yet. -/
def Halt.Inner (h : Halt) : Prop := h = .tooDeep ∨ h.Expected

theorem Misfit.expected {misfit : Misfit} (h : misfit ≠ .unknownOperator) (op : Op)
    (text : String) : (misfit.fault op text).Expected := by
  cases misfit with
  | addition | arithmetic => exact .inr (.inl rfl)
  | divisionByZero => exact .inr (.inr ⟨rfl, .inl ⟨text, rfl⟩⟩)
  | unknownOperator => exact absurd rfl h

namespace Op

/-- An operator between two values gives a value that is no native, or fails in a way that the
language knows: there is no operator without a meaning. -/
theorem onValues_cases {op : Op} (h : op.isBinary = true) (a b : Value) :
    (∃ v, op.onValues a b = .ok v ∧ ∀ natives, v.Over natives) ∨
      ∃ misfit, op.onValues a b = .error misfit ∧ misfit ≠ .unknownOperator := by
  have hnum : ∀ x y : Float, op ≠ .eq → op ≠ .ne → op ≠ .add →
      (∃ v, op.onNumbers x y = .ok v ∧ ∀ natives, v.Over natives) ∨
        ∃ misfit, op.onNumbers x y = .error misfit ∧ misfit ≠ .unknownOperator := by
    intro x y heq hne hadd
    cases op with
    | sub | mul | gt | ge | lt | le => exact .inl ⟨_, rfl, fun _ => trivial⟩
    | div =>
      simp only [onNumbers]
      split
      · exact .inr ⟨_, rfl, by decide⟩
      · exact .inl ⟨_, rfl, fun _ => trivial⟩
    | eq | ne | add => contradiction
    | neg | not | and | or => cases h
  unfold onValues
  split
  · exact .inl ⟨_, rfl, fun _ => trivial⟩
  · exact .inl ⟨_, rfl, fun _ => trivial⟩
  · exact .inl ⟨_, rfl, fun _ => trivial⟩
  · exact .inl ⟨_, rfl, fun _ => trivial⟩
  · exact .inr ⟨_, rfl, by decide⟩
  · exact hnum _ _ ‹_› ‹_› ‹_›
  · exact .inr ⟨_, rfl, by decide⟩

end Op

/-! ## Safe runs -/

/-- From scopes that bind only values over the natives, the run leaves such scopes, and it gives a
value that passes `post` or halts in a way that `halts` allows. -/
inductive Safe.Result (natives : Native → Prop) (halts : Halt → Prop) {α : Type}
    (post : α → Prop) : EStateM.Result Halt State α → Prop
  | ok {a : α} {t : State} (ha : post a) (ht : Env.Over natives t.env) :
      Result natives halts post (.ok a t)
  | error {h : Halt} {t : State} (hh : halts h) (ht : Env.Over natives t.env) :
      Result natives halts post (.error h t)

def Safe (natives : Native → Prop) (halts : Halt → Prop) {α : Type} (post : α → Prop)
    (x : Run α) : Prop :=
  ∀ s : State, Env.Over natives s.env → Safe.Result natives halts post (x s)

namespace Safe

variable {natives : Native → Prop} {halts : Halt → Prop} {α β : Type} {post : α → Prop}

theorem pure {a : α} (h : post a) : Safe natives halts post (Pure.pure a) :=
  fun _ hs => .ok h hs

theorem halt {h : Halt} (hh : halts h) : Safe natives halts post (Run.halt h) :=
  fun _ hs => .error hh hs

theorem bind {x : Run α} {f : α → Run β} {post' : β → Prop} (hx : Safe natives halts post x)
    (hf : ∀ a, post a → Safe natives halts post' (f a)) :
    Safe natives halts post' (x >>= f) := by
  intro s hs
  show Result natives halts post' (EStateM.bind x f s)
  unfold EStateM.bind
  have hr := hx s hs
  generalize x s = r at hr
  cases hr with
  | ok ha ht => exact hf _ ha _ ht
  | error hh ht => exact .error hh ht

theorem undefined {name : Token} {access : Access} :
    Safe natives Halt.Inner post (Run.undefined name access) :=
  fun _ hs => .error (.inr (.error (.inl rfl))) hs

theorem get (name : Token) : Safe natives Halt.Inner (Value.Over natives) (Run.get name) := by
  intro s hs
  unfold Run.get
  split
  · rename_i value hget
    exact .ok (hs.get? hget) hs
  · exact undefined s hs

theorem set (name : Token) {value : Value} (hv : value.Over natives) :
    Safe natives Halt.Inner (fun _ => True) (Run.set name value) := by
  intro s hs
  unfold Run.set
  split
  · rename_i env hset
    exact .ok trivial (hs.set? hv hset)
  · exact undefined s hs

theorem define (name : Token) {value : Value} (hv : value.Over natives) :
    Safe natives halts (fun _ => True) (Run.define name value) :=
  fun _ hs => .ok trivial (hs.define hv)

theorem print (text : String) : Safe natives halts (fun _ => True) (Run.print text) :=
  fun _ hs => .ok trivial hs

theorem inChild {x : Run Unit} (hx : Safe natives halts (fun _ => True) x) :
    Safe natives halts (fun _ => True) (Run.inChild x) := by
  intro s hs
  unfold Run.inChild
  have hr := hx { s with env := Env.child s.env } hs.child
  generalize x { s with env := Env.child s.env } = r at hr
  cases hr with
  | ok _ ht => exact .ok trivial ht.leave
  | error hh ht => exact .error hh ht.leave

theorem loop {c : Run Bool} {x : Run Unit} (hc : Safe natives Halt.Inner (fun _ => True) c)
    (hx : Safe natives Halt.Inner (fun _ => True) x) (rounds : Nat) :
    Safe natives Halt.Inner (fun _ => True) (Run.loop c x rounds) := by
  induction rounds with
  | zero => exact halt (.inr .unfinished)
  | succ rounds ih =>
    refine bind hc fun b _ => ?_
    cases b with
    | true => exact bind hx fun _ _ => ih
    | false => exact pure trivial

theorem each {exec : Node → Run Unit} {nodes : List Node}
    (h : ∀ a ∈ nodes, Safe natives halts (fun _ => True) (exec a)) :
    Safe natives halts (fun _ => True) (Run.each exec nodes) := by
  induction nodes with
  | nil => exact pure trivial
  | cons a nodes ih =>
    obtain ⟨ha, hnodes⟩ := List.forall_mem_cons.1 h
    exact bind ha fun _ _ => ih hnodes

end Safe

/-! ## Well-formed trees run safely -/

namespace Interpreter

variable {natives : Native → Prop} {name : Token → Prop} (i : Interpreter)

theorem safe_blame {α : Type} {post : α → Prop} (levels : Nat) {node : Node}
    (hnode : node.isExpr = true) {fault : String → RunFault}
    (hfault : ∀ text, (fault text).Expected) (line : Int) :
    Safe natives Halt.Inner post (i.blame levels node fault line) := by
  have hrender := Node.render_eq levels 0 (.inl hnode)
  unfold Node.within at hrender
  unfold blame
  split at hrender <;> rw [hrender]
  · exact .halt (.inr (.error (hfault _)))
  · exact .halt (.inl rfl)

theorem safe_eval (levels : Nat) {node : Node} (hnode : node.isExpr = true)
    (hleaves : node.Leaves (Value.Over natives) name) :
    Safe natives Halt.Inner (Value.Over natives) (i.eval levels node) := by
  induction levels generalizing node with
  | zero => exact .halt (.inl rfl)
  | succ levels ih =>
    cases node with
    | literal value => exact .pure hleaves
    | var x => exact .get x
    | grouping inner => exact ih hnode hleaves
    | assign target value =>
      exact .bind (ih hnode hleaves.2) fun v hv => .bind (.set target hv) fun _ _ => .pure hv
    | logical left op right line =>
      have hsides : left.isExpr = true ∧ right.isExpr = true := by simp_all [Node.isExpr]
      refine .bind (ih hsides.1 hleaves.1) fun v hv => ?_
      split
      · exact .pure hv
      · exact ih hsides.2 hleaves.2
    | unary op operand line =>
      have hoperand : operand.isExpr = true := by simp_all [Node.isExpr]
      refine .bind (ih hoperand hleaves) fun v hv => ?_
      split
      · exact .pure trivial
      · cases v with
        | num x => exact .pure trivial
        | nil | bool | str | native =>
          exact safe_blame i levels hnode (fun _ => .inr (.inl rfl)) line
    | binary left op right line =>
      have hsides : (left.isExpr = true ∧ op.isBinary = true) ∧ right.isExpr = true := by
        simpa [Node.isExpr] using hnode
      refine .bind (ih hsides.1.1 hleaves.1) fun a _ => .bind (ih hsides.2 hleaves.2) fun b _ => ?_
      rcases Op.onValues_cases hsides.1.2 a b with ⟨v, hv, hover⟩ | ⟨misfit, hm, hne⟩
      · rw [hv]
        exact .pure (hover natives)
      · rw [hm]
        cases misfit with
        | unknownOperator => exact absurd rfl hne
        | addition | arithmetic | divisionByZero =>
          exact safe_blame i levels hnode (fun text => Misfit.expected (by decide) op text) line
    | varDecl | exprStmt | print | ifElse | whileLoop | block | bare => cases hnode

mutual

theorem safe_exec (levels : Nat) {node : Node} (hnode : node.isStmt = true)
    (hleaves : node.Leaves (Value.Over natives) name) :
    Safe natives Halt.Inner (fun _ => True) (i.exec levels node) := by
  cases levels with
  | zero =>
    unfold exec
    exact .halt (.inl rfl)
  | succ levels =>
    cases node with
    | varDecl x initial =>
      cases initial with
      | none =>
        simp only [exec]
        exact .define x trivial
      | some e =>
        simp only [exec]
        exact .bind (safe_eval i levels hnode hleaves.2) fun v hv => .define x hv
    | exprStmt e line =>
      simp only [exec]
      exact .bind (safe_eval i levels hnode hleaves) fun _ _ => .pure trivial
    | print e line =>
      simp only [exec]
      exact .bind (safe_eval i levels hnode hleaves) fun v _ => .print v.text
    | ifElse condition thenBranch elseBranch line =>
      cases elseBranch with
      | none =>
        have hparts : condition.isExpr = true ∧ thenBranch.isStmt = true := by
          simpa [Node.isStmt, Node.isStmtOption] using hnode
        simp only [exec]
        refine .bind (safe_eval i levels hparts.1 hleaves.1) fun v _ => ?_
        split
        · exact safe_exec levels hparts.2 hleaves.2
        · exact .pure trivial
      | some branch =>
        have hparts : (condition.isExpr = true ∧ thenBranch.isStmt = true) ∧
            branch.isStmt = true := by
          simpa [Node.isStmt, Node.isStmtOption] using hnode
        simp only [exec]
        refine .bind (safe_eval i levels hparts.1.1 hleaves.1) fun v _ => ?_
        split
        · exact safe_exec levels hparts.1.2 hleaves.2.1
        · exact safe_exec levels hparts.2 hleaves.2.2
    | whileLoop condition body line =>
      have hparts : condition.isExpr = true ∧ body.isStmt = true := by
        simpa [Node.isStmt] using hnode
      simp only [exec]
      refine .loop ?_ (safe_exec levels hparts.2 hleaves.2) i.rounds
      exact .bind (safe_eval i levels hparts.1 hleaves.1) fun v _ => .pure trivial
    | block statements line =>
      simp only [exec]
      exact safe_execBlock levels (Node.areStmts_iff.1 hnode) (Node.allLeaves_iff.1 hleaves)
    | literal | var | unary | binary | logical | grouping | assign | bare => cases hnode

theorem safe_execBlock (levels : Nat) {nodes : List Node} (hnodes : ∀ a ∈ nodes, a.isStmt = true)
    (hleaves : ∀ a ∈ nodes, a.Leaves (Value.Over natives) name) :
    Safe natives Halt.Inner (fun _ => True) (i.execBlock levels nodes) := by
  cases levels with
  | zero =>
    unfold execBlock
    exact .halt (.inl rfl)
  | succ levels =>
    unfold execBlock
    exact .inChild (.each fun a ha => safe_exec levels (hnodes a ha) (hleaves a ha))

end

/-- At the top, nesting that is too deep has become an error. -/
theorem safe_topLevel (levels : Nat) {node : Node} (hnode : node.isStmt = true)
    (hleaves : node.Leaves (Value.Over natives) name) :
    Safe natives Halt.Expected (fun _ => True) (i.topLevel levels node) := by
  intro s hs
  unfold topLevel
  have hr := safe_exec i levels hnode hleaves s hs
  generalize i.exec levels node s = r at hr
  cases hr with
  | ok _ ht => exact .ok trivial ht
  | error hh ht =>
    rcases hh with rfl | hh
    · exact .error (.error (.inr (.inr ⟨rfl, .inr rfl⟩))) ht
    · cases hh with
      | error h => exact .error (.error h) ht
      | unfinished => exact .error .unfinished ht

/-- Programs of well-formed trees run safely. -/
theorem safe_interpret (levels : Nat) {program : List Node}
    (hnodes : ∀ a ∈ program, a.isStmt = true)
    (hleaves : ∀ a ∈ program, a.Leaves (Value.Over natives) name) :
    Safe natives Halt.Expected (fun _ => True) (i.interpret levels program) :=
  .each fun a ha => safe_topLevel i levels (hnodes a ha) (hleaves a ha)

/-- A program that can be parsed is well formed. Wherever it runs, it ends, goes on for too many
rounds, or halts with an error of the language, and it binds nothing but values of the language. -/
theorem interpret_safe {tokens : List Token} {program : List Node}
    (hliterals : ∀ t ∈ tokens, t.literal.Over natives) (hparse : parse tokens = .ok program) :
    Node.areStmts program = true ∧
      ∀ (i : Interpreter) (levels : Nat) (s : State), Env.Over natives s.env →
        ∃ t : State, Env.Over natives t.env ∧
          (i.interpret levels program s = .ok () t ∨
            i.interpret levels program s = .error .unfinished t ∨
            ∃ e : RunError, e.fault.Expected ∧
              i.interpret levels program s = .error (.error e) t) := by
  have hnodes : ∀ a ∈ program, a.isStmt = true := fun a ha => (parse_shape hparse a ha).1
  have hleaves : ∀ a ∈ program, a.Leaves (Value.Over natives) fun _ => True :=
    parse_leaves trivial (fun _ => trivial) hparse fun t ht =>
      ⟨fun _ => hliterals t ht, fun _ => trivial⟩
  refine ⟨Node.areStmts_iff.2 hnodes, fun i levels s hs => ?_⟩
  have hr := safe_interpret i levels hnodes hleaves s hs
  generalize i.interpret levels program s = r at hr
  cases hr with
  | @ok u t _ ht => exact ⟨t, ht, .inl rfl⟩
  | @error h t hh ht =>
    cases hh with
    | @error e he => exact ⟨t, ht, .inr (.inr ⟨e, he, rfl⟩)⟩
    | unfinished => exact ⟨t, ht, .inr (.inl rfl)⟩

/-- `{ var f = clock; print -f; }`. -/
def negatedTokens : List Token :=
  [⟨.leftBrace, "\x7b", .nil, 1⟩, ⟨.varWord, "var", .nil, 1⟩, ⟨.identifier, "f", .nil, 1⟩,
   ⟨.equal, "=", .nil, 1⟩, ⟨.identifier, "clock", .nil, 1⟩, ⟨.semicolon, ";", .nil, 1⟩,
   ⟨.printWord, "print", .nil, 2⟩, ⟨.minus, "-", .nil, 2⟩, ⟨.identifier, "f", .nil, 2⟩,
   ⟨.semicolon, ";", .nil, 2⟩, ⟨.rightBrace, "\x7d", .nil, 2⟩]

def negatedTree : Node :=
  .block
    [.varDecl ⟨.identifier, "f", .nil, 1⟩ (some (.var ⟨.identifier, "clock", .nil, 1⟩)),
     .print (.unary .neg (.var ⟨.identifier, "f", .nil, 2⟩) 2) 2] 1

theorem interpret_safe_negation :
    parse negatedTokens = .ok [negatedTree] ∧ Node.areStmts [negatedTree] = true ∧
      Env.Over (· = clock) (globals none) ∧
      ∃ t : State, Env.Over (· = clock) t.env ∧
        interpret ⟨none, 1⟩ limit [negatedTree] ⟨globals none, ""⟩ =
          .error (.error ⟨.negation "-f", 2, none⟩) t := by
  have hliterals : ∀ t ∈ negatedTokens, t.literal.Over (· = clock) := by
    simp [negatedTokens, Value.Over]
  have hparse : parse negatedTokens = .ok [negatedTree] := by rfl
  have hglobals : Env.Over (· = clock) (globals none) := by
    simp [globals, Env.Over, Env.define, Scope.define, Scope.empty, Scope.put, Value.Over]
  have hrun : interpret ⟨none, 1⟩ limit [negatedTree] ⟨globals none, ""⟩ =
      .error (.error ⟨.negation "-f", 2, none⟩) ⟨globals none, ""⟩ := by rfl
  obtain ⟨hstmts, hsafe⟩ := interpret_safe hliterals hparse
  refine ⟨hparse, hstmts, hglobals, ?_⟩
  obtain ⟨t, ht, h⟩ := hsafe ⟨none, 1⟩ limit ⟨globals none, ""⟩ hglobals
  rw [hrun] at h ⊢
  rcases h with h | h | ⟨e, -, h⟩
  · cases h
  · cases h
  · cases h
    exact ⟨_, ht, rfl⟩

end Interpreter

end Lox
