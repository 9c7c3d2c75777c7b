import Lox.Source

/-!
# What runs are made of

A run of a tree is put together from few actions, and the tree says which: `Node.mentions` lists the
names that it reads, assigns and declares, its operators with their lines, and the lines on which its
statements begin. `Run.Within file allowed x`: the run `x` is a sequence of actions that what is
`allowed` covers, and every error of an operator is reported in `file`.

`within_eval` and `within_exec` say that the run of a tree stays within what the tree mentions,
whatever it finds in its scopes. What every action does and sequences keep, all runs of trees do, by
induction on `Run.Within`.

`Run.Ends done halted r`: a run that ended in `r` is done in a way that `done` allows, or it halted
in a way that `halted` allows.
-/

set_option autoImplicit false

namespace Lox

/-- Something that a tree says. -/
inductive Mention where
  | read (name : Token)
  | assign (name : Token)
  | declare (name : Token)
  | unary (op : Op) (line : Int)
  | binary (op : Op) (line : Int)
  /-- A statement begins on the line. -/
  | statement (line : Int)

/-- The name that is mentioned. -/
def Mention.name? : Mention → Option Token
  | read x | assign x | declare x => some x
  | unary _ _ | binary _ _ | statement _ => none

namespace Node

mutual

/-- What the tree says. -/
def mentions : Node → List Mention
  | literal _ | bare _ => []
  | var x => [.read x]
  | grouping a => a.mentions
  | assign x a => .assign x :: a.mentions
  | unary op a line => .unary op line :: a.mentions
  | binary a op b line => .binary op line :: (a.mentions ++ b.mentions)
  | logical a _ b _ => a.mentions ++ b.mentions
  | varDecl x none => [.declare x]
  | varDecl x (some a) => .declare x :: a.mentions
  | exprStmt a line | print a line => .statement line :: a.mentions
  | ifElse c t none line | whileLoop c t line => .statement line :: (c.mentions ++ t.mentions)
  | ifElse c t (some e) line => .statement line :: (c.mentions ++ (t.mentions ++ e.mentions))
  | block as line => .statement line :: allMentions as

def allMentions : List Node → List Mention
  | [] => []
  | a :: as => a.mentions ++ allMentions as

end

theorem forall_mem_allMentions {p : Mention → Prop} {as : List Node} :
    (∀ m ∈ allMentions as, p m) ↔ ∀ a ∈ as, ∀ m ∈ a.mentions, p m := by
  induction as with
  | nil => simp [allMentions]
  | cons a as ih => simp only [allMentions, List.forall_mem_append, ih, List.forall_mem_cons]

end Node

/-! ## Actions -/

/-- The ways to halt that mentions allow: an operator that fails on its operands is an error on its
line. -/
inductive Halt.Within (file : Option String) (allowed : Mention → Prop) : Halt → Prop
  | tooDeep : Within file allowed .tooDeep
  | unfinished : Within file allowed .unfinished
  | malformed (m : Malformed) : Within file allowed (.malformed m)
  | negation {op : Op} {line : Int} (text : String) (h : allowed (.unary op line))
      (hop : op ≠ .not) : Within file allowed (.error ⟨.negation text, line, file⟩)
  | misfit {op : Op} {line : Int} {a b : Value} {misfit : Misfit} (text : String)
      (h : allowed (.binary op line)) (hm : op.onValues a b = .error misfit) :
      Within file allowed (.error ⟨misfit.fault op text, line, file⟩)

/-- Runs that are put together from actions that mentions allow. -/
inductive Run.Within (file : Option String) (allowed : Mention → Prop) : {α : Type} → Run α → Prop
  | pure {α : Type} (a : α) : Within file allowed (Pure.pure a)
  | bind {α β : Type} {x : Run α} {f : α → Run β} (hx : Within file allowed x)
      (hf : ∀ a, Within file allowed (f a)) : Within file allowed (x >>= f)
  | get {name : Token} (h : allowed (.read name)) : Within file allowed (Run.get name)
  | set {name : Token} (h : allowed (.assign name)) (value : Value) :
      Within file allowed (Run.set name value)
  | define {name : Token} (h : allowed (.declare name)) (value : Value) :
      Within file allowed (Run.define name value)
  | print (text : String) : Within file allowed (Run.print text)
  | inChild {x : Run Unit} (hx : Within file allowed x) : Within file allowed (Run.inChild x)
  | halt {α : Type} {h : Halt} (hh : h.Within file allowed) :
      Within file allowed (Run.halt h : Run α)

namespace Run.Within

variable {file : Option String} {allowed : Mention → Prop}

theorem loop {c : Run Bool} {x : Run Unit} (hc : Within file allowed c) (hx : Within file allowed x)
    (rounds : Nat) : Within file allowed (Run.loop c x rounds) := by
  induction rounds with
  | zero => exact .halt .unfinished
  | succ rounds ih =>
    refine .bind hc fun b => ?_
    cases b with
    | true => exact .bind hx fun _ => ih
    | false => exact .pure ()

theorem each {exec : Node → Run Unit} {nodes : List Node}
    (h : ∀ a ∈ nodes, Within file allowed (exec a)) : Within file allowed (Run.each exec nodes) := by
  induction nodes with
  | nil => exact .pure ()
  | cons a nodes ih =>
    obtain ⟨ha, hnodes⟩ := List.forall_mem_cons.1 h
    exact .bind ha fun _ => ih hnodes

end Run.Within

/-! ## How runs end -/

inductive Run.Ends {α : Type} (done : α → State → Prop) (halted : Halt → State → Prop) :
    EStateM.Result Halt State α → Prop
  | ok {a : α} {t : State} (h : done a t) : Ends done halted (.ok a t)
  | error {h : Halt} {t : State} (hh : halted h t) : Ends done halted (.error h t)

namespace Run.Ends

variable {α β : Type} {done done' : α → State → Prop} {halted halted' : Halt → State → Prop}

theorem mono {r : EStateM.Result Halt State α} (h : Ends done halted r)
    (hd : ∀ a t, done a t → done' a t) (hh : ∀ h t, halted h t → halted' h t) :
    Ends done' halted' r := by
  cases h with
  | ok h => exact .ok (hd _ _ h)
  | error h => exact .error (hh _ _ h)

theorem bind {x : Run α} {f : α → Run β} {s : State} {done' : β → State → Prop}
    (hx : Ends done halted (x s)) (hf : ∀ a t, done a t → Ends done' halted (f a t)) :
    Ends done' halted ((x >>= f) s) := by
  show Ends done' halted (EStateM.bind x f s)
  unfold EStateM.bind
  generalize x s = r at hx
  cases hx with
  | ok h => exact hf _ _ h
  | error h => exact .error h

/-- What holds after a scope is left has to hold without that scope at the end of its run. -/
theorem inChild {x : Run Unit} {s : State} {done : State → Prop}
    (h : Ends (fun _ t => done { t with env := Env.leave t.env })
      (fun h t => halted h { t with env := Env.leave t.env }) (x { s with env := Env.child s.env })) :
    Ends (fun _ => done) halted (Run.inChild x s) := by
  unfold Run.inChild
  generalize x { s with env := Env.child s.env } = r at h
  cases h with
  | ok h => exact .ok h
  | error h => exact .error h

theorem of_outcome {x : Run α} {s t : State} {ending : Except Failure α}
    (h : Ends done halted (x s)) (hrun : x.outcome s = (ending, t)) :
    (∃ a, ending = .ok a ∧ done a t) ∨ ∃ halt, ending = .error halt.failure ∧ halted halt t := by
  unfold Run.outcome at hrun
  generalize x s = r at h hrun
  cases h with
  | ok h =>
    cases hrun
    exact .inl ⟨_, rfl, h⟩
  | error h =>
    cases hrun
    exact .inr ⟨_, rfl, h⟩

end Run.Ends

/-! ## Runs of trees -/

namespace Interpreter

variable (i : Interpreter) {allowed : Mention → Prop}

theorem within_blame {α : Type} (levels : Nat) (node : Node) {fault : String → RunFault} {line : Int}
    (h : ∀ text, (Halt.error ⟨fault text, line, i.file⟩).Within i.file allowed) :
    Run.Within i.file allowed (i.blame levels node fault line : Run α) := by
  unfold blame
  cases node.render levels 0 with
  | ok text => exact .halt (h text)
  | error e =>
    cases e with
    | tooDeep => exact .halt .tooDeep
    | bare value => exact .halt (.malformed _)

theorem within_eval (levels : Nat) {a : Node} (h : ∀ m ∈ a.mentions, allowed m) :
    Run.Within i.file allowed (i.eval levels a) := by
  induction levels generalizing a with
  | zero => exact .halt .tooDeep
  | succ levels ih =>
    cases a with
    | literal value => exact .pure value
    | var x => exact .get (h _ List.mem_cons_self)
    | grouping inner => exact ih h
    | assign target value =>
      obtain ⟨ht, hv⟩ := List.forall_mem_cons.1 h
      exact .bind (ih hv) fun v => .bind (.set ht v) fun _ => .pure v
    | logical left op right line =>
      obtain ⟨hl, hr⟩ := List.forall_mem_append.1 h
      refine .bind (ih hl) fun v => ?_
      split
      · exact .pure v
      · exact ih hr
    | unary op operand line =>
      obtain ⟨hop, ho⟩ := List.forall_mem_cons.1 h
      refine .bind (ih ho) fun v => ?_
      split
      · exact .pure _
      · rename_i hnot
        have hne : op ≠ .not := fun e => hnot (beq_iff_eq.2 e)
        cases v with
        | num x => exact .pure _
        | nil | bool | str | native =>
          exact within_blame i levels _ fun text => .negation text hop hne
    | binary left op right line =>
      obtain ⟨hop, hsides⟩ := List.forall_mem_cons.1 h
      obtain ⟨hl, hr⟩ := List.forall_mem_append.1 hsides
      refine .bind (ih hl) fun v => .bind (ih hr) fun w => ?_
      cases hm : op.onValues v w with
      | ok value => exact .pure value
      | error misfit =>
        cases misfit with
        | unknownOperator => exact .halt (.misfit "" hop hm)
        | addition | arithmetic | divisionByZero =>
          exact within_blame i levels _ fun text => .misfit text hop hm
    | varDecl | exprStmt | print | ifElse | whileLoop | block | bare =>
      exact .halt (.malformed _)

mutual

theorem within_exec (levels : Nat) {a : Node} (h : ∀ m ∈ a.mentions, allowed m) :
    Run.Within i.file allowed (i.exec levels a) := by
  cases levels with
  | zero =>
    unfold exec
    exact .halt .tooDeep
  | succ levels =>
    cases a with
    | varDecl x initial =>
      cases initial with
      | none =>
        simp only [exec]
        exact .define (h _ List.mem_cons_self) .nil
      | some e =>
        obtain ⟨hx, he⟩ := List.forall_mem_cons.1 h
        simp only [exec]
        exact .bind (within_eval i levels he) fun v => .define hx v
    | exprStmt e line =>
      simp only [exec]
      exact .bind (within_eval i levels (List.forall_mem_cons.1 h).2) fun _ => .pure ()
    | print e line =>
      simp only [exec]
      exact .bind (within_eval i levels (List.forall_mem_cons.1 h).2) fun v => .print v.text
    | ifElse condition thenBranch elseBranch line =>
      cases elseBranch with
      | none =>
        obtain ⟨hc, ht⟩ := List.forall_mem_append.1 (List.forall_mem_cons.1 h).2
        simp only [exec]
        refine .bind (within_eval i levels hc) fun v => ?_
        split
        · exact within_exec levels ht
        · exact .pure ()
      | some branch =>
        obtain ⟨hc, hbranches⟩ := List.forall_mem_append.1 (List.forall_mem_cons.1 h).2
        obtain ⟨ht, he⟩ := List.forall_mem_append.1 hbranches
        simp only [exec]
        refine .bind (within_eval i levels hc) fun v => ?_
        split
        · exact within_exec levels ht
        · exact within_exec levels he
    | whileLoop condition body line =>
      obtain ⟨hc, hb⟩ := List.forall_mem_append.1 (List.forall_mem_cons.1 h).2
      simp only [exec]
      refine .loop ?_ (within_exec levels hb) i.rounds
      exact .bind (within_eval i levels hc) fun v => .pure v.truthy
    | block statements line =>
      simp only [exec]
      exact within_execBlock levels (Node.forall_mem_allMentions.1 (List.forall_mem_cons.1 h).2)
    | literal | var | unary | binary | logical | grouping | assign | bare =>
      unfold exec
      exact .halt (.malformed _)

theorem within_execBlock (levels : Nat) {as : List Node}
    (h : ∀ a ∈ as, ∀ m ∈ a.mentions, allowed m) :
    Run.Within i.file allowed (i.execBlock levels as) := by
  cases levels with
  | zero =>
    unfold execBlock
    exact .halt .tooDeep
  | succ levels =>
    unfold execBlock
    exact .inChild (.each fun a ha => within_exec levels (h a ha))

end

end Interpreter

end Lox
