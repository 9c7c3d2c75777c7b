import Lox.Proofs.Eval.Actions

/-!
# Runs in lockstep

The same run from two chains of scopes that no name it mentions can tell apart. `Env.Indistinct names
related`: related chains show the same under the given names, and actions with these names lead from
related chains to related chains. Then the two runs go in lockstep (`Lockstep`): they end in the same
way, print the same, and leave related chains behind (`lockstep_exec`, `lockstep_interpret`).

Chains that are equal are related in this way, so what a run does cannot depend on what was printed
before it (`outcome_output`).
-/

set_option autoImplicit false

namespace Lox

/-- Chains that the given names do not tell apart, whatever is done with these names. -/
structure Env.Indistinct (names : String → Prop) (related : Env → Env → Prop) : Prop where
  file : ∀ {env env' : Env}, related env env' → Env.file env = Env.file env'
  get? : ∀ {env env' : Env} {x : String}, related env env' → names x →
    Env.get? env x = Env.get? env' x
  set? : ∀ {env env' : Env} {x : String} (v : Value), related env env' → names x →
    Option.Rel related (Env.set? x v env) (Env.set? x v env')
  define : ∀ {env env' : Env} {x : String} (v : Value), related env env' → names x →
    related (Env.define x v env) (Env.define x v env')
  child : ∀ {env env' : Env}, related env env' → related (Env.child env) (Env.child env')
  leave : ∀ {env env' : Env}, related env env' → related (Env.leave env) (Env.leave env')

/-- From `s` and `s'` two runs have come to `t` and `t'`: the chains are related, and both have printed
the same text. -/
structure Abreast (related : Env → Env → Prop) (s s' t t' : State) : Prop where
  env : related t.env t'.env
  output : ∃ more, t.output = s.output ++ more ∧ t'.output = s'.output ++ more

namespace Abreast

variable {related : Env → Env → Prop} {s s' t t' u u' : State}

theorem of_env {env env' : Env} (h : related env env') :
    Abreast related s s' { s with env := env } { s' with env := env' } :=
  ⟨h, "", by simp, by simp⟩

theorem trans (h : Abreast related s s' t t') (h' : Abreast related t t' u u') :
    Abreast related s s' u u' := by
  obtain ⟨more, ht, ht'⟩ := h.output
  obtain ⟨more', hu, hu'⟩ := h'.output
  refine ⟨h'.env, more ++ more', ?_, ?_⟩
  · rw [hu, ht, String.append_assoc]
  · rw [hu', ht', String.append_assoc]

end Abreast

/-- Both runs are done with the same value, or both halt in the same way. -/
inductive Together (related : Env → Env → Prop) (s s' : State) {α : Type} :
    EStateM.Result Halt State α → EStateM.Result Halt State α → Prop
  | ok {a : α} {t t' : State} (h : Abreast related s s' t t') :
      Together related s s' (.ok a t) (.ok a t')
  | error {h : Halt} {t t' : State} (ht : Abreast related s s' t t') :
      Together related s s' (.error h t) (.error h t')

theorem Together.trans {related : Env → Env → Prop} {s s' t t' : State} {α : Type}
    {r r' : EStateM.Result Halt State α} (h : Abreast related s s' t t')
    (h' : Together related t t' r r') : Together related s s' r r' := by
  cases h' with
  | ok hu => exact .ok (h.trans hu)
  | error hu => exact .error (h.trans hu)

/-- The run does the same from all related chains. -/
def Lockstep (related : Env → Env → Prop) {α : Type} (x : Run α) : Prop :=
  ∀ s s' : State, related s.env s'.env → Together related s s' (x s) (x s')

namespace Lockstep

variable {related : Env → Env → Prop} {α β : Type}

theorem outcome {x : Run α} (hx : Lockstep related x) (s s' : State) (h : related s.env s'.env) :
    ∃ ending t t', x.outcome s = (ending, t) ∧ x.outcome s' = (ending, t') ∧
      Abreast related s s' t t' := by
  have hends := hx s s' h
  unfold Run.outcome
  generalize x s = r at hends
  generalize x s' = r' at hends
  cases hends with
  | ok ht => exact ⟨_, _, _, rfl, rfl, ht⟩
  | error ht => exact ⟨_, _, _, rfl, rfl, ht⟩

theorem pure (a : α) : Lockstep related (Pure.pure a) := fun _ _ h => .ok (.of_env h)

theorem halt (h : Halt) : Lockstep related (Run.halt h : Run α) := fun _ _ h => .error (.of_env h)

theorem bind {x : Run α} {f : α → Run β} (hx : Lockstep related x)
    (hf : ∀ a, Lockstep related (f a)) : Lockstep related (x >>= f) := by
  intro s s' h
  show Together related s s' (EStateM.bind x f s) (EStateM.bind x f s')
  unfold EStateM.bind
  have hfirst := hx s s' h
  generalize x s = r at hfirst
  generalize x s' = r' at hfirst
  cases hfirst with
  | ok ht => exact .trans ht (hf _ _ _ ht.env)
  | error ht => exact .error ht

theorem print (text : String) : Lockstep related (Run.print text) := fun s s' h =>
  .ok ⟨h, text ++ "\n", by simp [String.append_assoc], by simp [String.append_assoc]⟩

theorem each {exec : Node → Run Unit} {nodes : List Node}
    (h : ∀ a ∈ nodes, Lockstep related (exec a)) : Lockstep related (Run.each exec nodes) := by
  induction nodes with
  | nil => exact pure ()
  | cons a nodes ih =>
    obtain ⟨ha, hnodes⟩ := List.forall_mem_cons.1 h
    exact bind ha fun _ => ih hnodes

theorem loop {c : Run Bool} {x : Run Unit} (hc : Lockstep related c) (hx : Lockstep related x)
    (rounds : Nat) : Lockstep related (Run.loop c x rounds) := by
  induction rounds with
  | zero => exact halt .unfinished
  | succ rounds ih =>
    refine bind hc fun b => ?_
    cases b with
    | true => exact bind hx fun _ => ih
    | false => exact pure ()

section
variable {names : String → Prop} (hr : Env.Indistinct names related)
include hr

theorem undefined (name : Token) (access : Access) :
    Lockstep related (Run.undefined name access : Run α) := by
  intro s s' h
  unfold Run.undefined
  rw [hr.file h]
  exact .error (.of_env h)

theorem get {name : Token} (hname : names name.lexeme) : Lockstep related (Run.get name) := by
  intro s s' h
  unfold Run.get
  rw [hr.get? h hname]
  cases Env.get? s'.env name.lexeme with
  | none => exact undefined hr name .get s s' h
  | some value => exact .ok (.of_env h)

theorem set {name : Token} (hname : names name.lexeme) (value : Value) :
    Lockstep related (Run.set name value) := by
  intro s s' h
  have hset := hr.set? value h hname
  unfold Run.set
  generalize Env.set? name.lexeme value s.env = r at hset
  generalize Env.set? name.lexeme value s'.env = r' at hset
  cases hset with
  | none => exact undefined hr name .set s s' h
  | some henv => exact .ok (.of_env henv)

theorem define {name : Token} (hname : names name.lexeme) (value : Value) :
    Lockstep related (Run.define name value) := fun _ _ h => .ok (.of_env (hr.define value h hname))

theorem inChild {x : Run Unit} (hx : Lockstep related x) : Lockstep related (Run.inChild x) := by
  intro s s' h
  have hbody := hx { s with env := Env.child s.env } { s' with env := Env.child s'.env } (hr.child h)
  unfold Run.inChild
  generalize x { s with env := Env.child s.env } = r at hbody
  generalize x { s' with env := Env.child s'.env } = r' at hbody
  cases hbody with
  | ok ht => exact .ok ⟨hr.leave ht.env, ht.output⟩
  | error ht => exact .error ⟨hr.leave ht.env, ht.output⟩

/-- Runs that use only the given names go in lockstep. -/
theorem of_within {file : Option String} {allowed : Mention → Prop} {x : Run α}
    (hnames : ∀ m, allowed m → ∀ name ∈ m.name?, names name.lexeme)
    (h : Run.Within file allowed x) : Lockstep related x := by
  induction h with
  | pure a => exact pure a
  | bind _ _ ihx ihf => exact bind ihx ihf
  | get h => exact get hr (hnames _ h _ rfl)
  | set h value => exact set hr (hnames _ h _ rfl) value
  | define h value => exact define hr (hnames _ h _ rfl) value
  | print text => exact print text
  | inChild _ ih => exact inChild hr ih
  | halt => exact halt _

end

end Lockstep

/-- All names that the tree reads, assigns or declares are among the given ones. -/
def Node.Names (names : String → Prop) (a : Node) : Prop :=
  ∀ m ∈ a.mentions, ∀ name ∈ m.name?, names name.lexeme

namespace Interpreter

variable {names : String → Prop} {related : Env → Env → Prop} (hr : Env.Indistinct names related)
  (i : Interpreter)
include hr

theorem lockstep_exec (levels : Nat) {a : Node} (h : a.Names names) :
    Lockstep related (i.exec levels a) :=
  .of_within hr (fun _ hm => hm) (i.within_exec levels h)

theorem lockstep_topLevel (levels : Nat) {a : Node} (h : a.Names names) :
    Lockstep related (i.topLevel levels a) := by
  intro s s' hs
  have hexec := i.lockstep_exec hr levels h s s' hs
  unfold topLevel
  generalize i.exec levels a s = r at hexec
  generalize i.exec levels a s' = r' at hexec
  cases hexec with
  | ok ht => exact .ok ht
  | @error h t t' ht => cases h <;> exact .error ht

theorem lockstep_interpret (levels : Nat) {program : List Node}
    (h : ∀ a ∈ program, a.Names names) : Lockstep related (i.interpret levels program) :=
  .each fun a ha => i.lockstep_topLevel hr levels (h a ha)

end Interpreter

/-! ## What was printed before -/

theorem Env.indistinct_eq : Env.Indistinct (fun _ => True) Eq where
  file h := by rw [h]
  get? h _ := by rw [h]
  set? {env env' x} v h _ := by
    rw [h]
    cases Env.set? x v env' with
    | none => exact .none
    | some after => exact .some rfl
  define v h _ := by rw [h]
  child h := by rw [h]
  leave h := by rw [h]

/-- What a program prints is added to what was printed before, and nothing else depends on that. -/
theorem Interpreter.outcome_output (i : Interpreter) (levels : Nat) (program : List Node) (env : Env)
    (output : String) :
    (i.interpret levels program).outcome ⟨env, output⟩ =
      (((i.interpret levels program).outcome ⟨env, ""⟩).1,
        ⟨((i.interpret levels program).outcome ⟨env, ""⟩).2.env,
          output ++ ((i.interpret levels program).outcome ⟨env, ""⟩).2.output⟩) := by
  have hnames : ∀ a ∈ program, a.Names fun _ => True := fun _ _ _ _ _ _ => trivial
  obtain ⟨ending, t, t', hrun, hrun', ht⟩ :=
    (i.lockstep_interpret Env.indistinct_eq levels hnames).outcome ⟨env, output⟩ ⟨env, ""⟩ rfl
  obtain ⟨more, hout, hout'⟩ := ht.output
  rw [String.empty_append] at hout'
  rw [hrun, hrun', hout', ← hout, ← ht.env]

end Lox
