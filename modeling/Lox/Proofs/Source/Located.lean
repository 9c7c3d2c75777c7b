import Lox.Proofs.Grammar.Origin
import Lox.Proofs.Repl.Beginning
import Lox.Proofs.Token.Lines

/-!
# Errors point into the source

`RunFault.Concerns t`: the fault is about the token `t`: the name that is not bound, or the operator
that does not fit its operands. A run whose tree is made of what tokens say fails only at one of them,
and in the file of its scopes (`Locates`): every action does, since the scopes that blocks add take
over the file of those around them (`Locates.of_within`).

Main statement (`runFresh_located`): an error of a source is in its file and on one of its lines; an
error of the parser is at a token of the source, and an error of a run is on the line of a token that
its fault concerns.
-/

set_option autoImplicit false

namespace Lox

/-- The fault is about the token. -/
def RunFault.Concerns (t : Token) : RunFault → Prop
  | undefined name _ => t.kind = .identifier ∧ t.lexeme = name
  | negation _ => t.lexeme = "-"
  | addition _ => t.lexeme = "+"
  | arithmetic op _ | unknownOperator op => t.lexeme = op.symbol
  | divisionByZero _ => t.lexeme = "/"
  | tooDeep => True

/-- The error is in the file, on the line of a token that it is about. -/
structure RunError.Located (file : Option String) (ts : List Token) (e : RunError) : Prop where
  file : e.file = file
  token : ∃ t ∈ ts, t.line = e.line ∧ e.fault.Concerns t

/-- A failing operator is the one that the fault is about. -/
theorem Op.concerns_misfit {op : Op} {a b : Value} {misfit : Misfit}
    (h : op.onValues a b = .error misfit) {t : Token} (ht : t.lexeme = op.symbol) (text : String) :
    (misfit.fault op text).Concerns t := by
  have hnumbers : ∀ x y : Float, op.onNumbers x y = .error misfit →
      (misfit.fault op text).Concerns t := by
    intro x y hxy
    unfold onNumbers at hxy
    split at hxy
    · cases hxy
    · cases hxy
    · split at hxy <;> cases hxy
      exact ht
    · cases hxy
    · cases hxy
    · cases hxy
    · cases hxy
    · cases hxy
      exact ht
  unfold onValues at h
  split at h
  · cases h
  · cases h
  · cases h
  · cases h
  · cases h
    exact ht
  · exact hnumbers _ _ h
  · cases h
    exact ht

/-! ## Tokens of operators -/

theorem Op.minus_of_ofUnary? {k : Kind} {op : Op} (h : ofUnary? k = some op) (hop : op ≠ not) :
    k = .minus := by
  cases k <;> cases h
  · rfl
  · exact absurd rfl hop

theorem Op.spelling_of_ofBinary? {k : Kind} {op : Op} (h : ofBinary? k = some op) :
    k ∈ Kind.marks ∧ k.spelling = op.symbol := by
  cases k <;> cases h <;> exact ⟨by decide, rfl⟩

/-! ## Files of scopes -/

namespace Env

/-- The chain has one scope more than `n`, all of the given file. -/
def In (file : Option String) (n : Nat) (env : Env) : Prop :=
  env.map Scope.file = List.replicate (n + 1) file

variable {file : Option String} {n : Nat} {env : Env}

theorem In.exists_cons (h : env.In file n) : ∃ scope outer, env = scope :: outer := by
  cases env with
  | nil => simp [In, List.replicate_succ] at h
  | cons scope outer => exact ⟨scope, outer, rfl⟩

theorem In.file_eq (h : env.In file n) : Env.file env = file := by
  obtain ⟨scope, outer, rfl⟩ := h.exists_cons
  rw [In, List.map_cons, List.replicate_succ] at h
  exact (List.cons.inj h).1

theorem In.define (h : env.In file n) (name : String) (value : Value) :
    (Env.define name value env).In file n := by
  obtain ⟨scope, outer, rfl⟩ := h.exists_cons
  exact h

theorem map_file_set? {name : String} {value : Value} {after : Env}
    (h : Env.set? name value env = some after) :
    after.map Scope.file = env.map Scope.file := by
  induction env generalizing after with
  | nil => cases h
  | cons scope outer ih =>
    unfold Env.set? at h
    split at h
    · cases h
      rfl
    · obtain ⟨rest, hrest, rfl⟩ := Option.map_eq_some_iff.1 h
      rw [List.map_cons, List.map_cons, ih hrest]

theorem In.set? (h : env.In file n) {name : String} {value : Value} {after : Env}
    (hset : Env.set? name value env = some after) : after.In file n :=
  (map_file_set? hset).trans h

theorem In.child (h : env.In file n) : (Env.child env).In file (n + 1) := by
  rw [In, Env.child, List.map_cons, List.replicate_succ, h.file_eq, h]
  rfl

theorem In.leave (h : env.In file (n + 1)) : (Env.leave env).In file n := by
  rw [In, Env.leave, List.map_tail, h]
  rfl

end Env

/-! ## Runs -/

/-- A run that halts with an error does so at one of the tokens. -/
def Halt.Located (file : Option String) (ts : List Token) (h : Halt) : Prop :=
  ∀ e, h = .error e → e.Located file ts

/-- In scopes of the file, the run keeps to such scopes, and halts only at one of the tokens. -/
def Locates (file : Option String) (ts : List Token) {α : Type} (x : Run α) : Prop :=
  ∀ (n : Nat) (s : State), s.env.In file n →
    Run.Ends (fun _ t => t.env.In file n) (fun h t => t.env.In file n ∧ h.Located file ts) (x s)

namespace Locates

variable {file : Option String} {ts : List Token} {α β : Type}

theorem pure (a : α) : Locates file ts (Pure.pure a) := fun _ _ h => .ok h

theorem bind {x : Run α} {f : α → Run β} (hx : Locates file ts x)
    (hf : ∀ a, Locates file ts (f a)) : Locates file ts (x >>= f) :=
  fun n s h => .bind (hx n s h) fun a t ht => hf a n t ht

theorem each {exec : Node → Run Unit} {nodes : List Node}
    (h : ∀ a ∈ nodes, Locates file ts (exec a)) : Locates file ts (Run.each exec nodes) := by
  induction nodes with
  | nil => exact pure ()
  | cons a nodes ih =>
    obtain ⟨ha, hnodes⟩ := List.forall_mem_cons.1 h
    exact bind ha fun _ => ih hnodes

theorem halt {h : Halt} (hh : h.Located file ts) : Locates file ts (Run.halt h : Run α) :=
  fun _ _ henv => .error ⟨henv, hh⟩

theorem undefined {name : Token} (h : name ∈ ts) (hk : name.kind = .identifier) (access : Access) :
    Locates file ts (Run.undefined name access : Run α) := by
  intro n s henv
  refine .error ⟨henv, ?_⟩
  intro e he
  cases he
  exact ⟨henv.file_eq, name, h, rfl, hk, rfl⟩

theorem inChild {x : Run Unit} (hx : Locates file ts x) : Locates file ts (Run.inChild x) := by
  intro n s h
  -- the new scope takes over the file, and it is gone again at the end
  refine .inChild ((hx (n + 1) { s with env := Env.child s.env } h.child).mono ?_ ?_)
  · exact fun _ t ht => ht.leave
  · exact fun _ t ht => ⟨ht.1.leave, ht.2⟩

/-- The ways to halt that come from tokens are located at them. -/
theorem located_of_within (hmarks : ∀ t ∈ ts, t.kind ∈ Kind.marks → t.lexeme = t.kind.spelling)
    {h : Halt} (hh : h.Within file (Mention.From ts)) : h.Located file ts := by
  intro e he
  cases hh with
  | tooDeep | unfinished | malformed => cases he
  | negation text hfrom hop =>
    cases he
    obtain ⟨t, ht, hunary, hline⟩ := hfrom
    have hminus := Op.minus_of_ofUnary? hunary hop
    have hlexeme := hmarks t ht (by rw [hminus]; decide)
    rw [hminus] at hlexeme
    exact ⟨rfl, t, ht, hline, hlexeme⟩
  | misfit text hfrom hm =>
    cases he
    obtain ⟨t, ht, hbinary, hline⟩ := hfrom
    obtain ⟨hmark, hspelling⟩ := Op.spelling_of_ofBinary? hbinary
    refine ⟨rfl, t, ht, hline, Op.concerns_misfit hm ?_ text⟩
    rw [hmarks t ht hmark, hspelling]

/-- Runs that are made of what the tokens say are located at them. -/
theorem of_within (hmarks : ∀ t ∈ ts, t.kind ∈ Kind.marks → t.lexeme = t.kind.spelling)
    {x : Run α} (h : Run.Within file (Mention.From ts) x) : Locates file ts x := by
  induction h with
  | pure a => exact pure a
  | bind _ _ ihx ihf => exact bind ihx ihf
  | print text => exact fun _ _ henv => .ok henv
  | define _ value => exact fun _ _ henv => .ok (henv.define _ value)
  | inChild _ ih => exact inChild ih
  | halt hh => exact halt (located_of_within hmarks hh)
  | @get name h =>
    intro n s henv
    unfold Run.get
    cases Env.get? s.env name.lexeme with
    | none => exact undefined h.1 h.2 .get n s henv
    | some value => exact .ok henv
  | @set name h value =>
    intro n s henv
    unfold Run.set
    cases hset : Env.set? name.lexeme value s.env with
    | none => exact undefined h.1 h.2 .set n s henv
    | some after => exact .ok (henv.set? hset)

end Locates

namespace Interpreter

variable (i : Interpreter) {ts : List Token}
  (hmarks : ∀ t ∈ ts, t.kind ∈ Kind.marks → t.lexeme = t.kind.spelling)
include hmarks

/-- A statement that is nested too deeply is an error on the line of its first token. -/
theorem locates_topLevel (levels : Nat) {a : Node} (ha : a.isStmt = true) (h : a.From ts) :
    Locates i.file ts (i.topLevel levels a) := by
  intro n s hs
  have hexec := Locates.of_within hmarks (i.within_exec levels h) n s hs
  unfold topLevel
  generalize i.exec levels a s = r at hexec
  cases hexec with
  | ok ht => exact .ok ht
  | @error halt t ht =>
    cases halt with
    | error | malformed | unfinished => exact .error ht
    | tooDeep =>
      refine .error ⟨ht.1, ?_⟩
      intro e he
      cases he
      obtain ⟨token, hmem, hline⟩ := h.line ha
      exact ⟨rfl, token, hmem, hline, trivial⟩

theorem interpret_located {levels : Nat} {program : List Node} (ha : ∀ a ∈ program, a.isStmt = true)
    (hfrom : ∀ a ∈ program, a.From ts) {n : Nat} {s t : State} (hs : s.env.In i.file n) {e : Error}
    (hrun : (i.interpret levels program).outcome s = (.error (.error e), t)) :
    ∃ err, e = .run err ∧ err.Located i.file ts := by
  have hlocates : Locates i.file ts (i.interpret levels program) :=
    .each fun a hmem => i.locates_topLevel hmarks levels (ha a hmem) (hfrom a hmem)
  rcases (hlocates n s hs).of_outcome hrun with ⟨_, hok, -⟩ | ⟨halt, hfail, -, hlocated⟩
  · cases hok
  · cases halt with
    | error err =>
      cases hfail
      exact ⟨err, rfl, hlocated err rfl⟩
    | malformed | tooDeep | unfinished => cases hfail

end Interpreter

/-! ## Sources -/

theorem RunError.line_report (e : RunError) : e.report.line = some e.line := by
  obtain ⟨fault, line, file⟩ := e
  cases fault <;> rfl

theorem RunError.file_report (e : RunError) : e.report.file = e.file := by
  obtain ⟨fault, line, file⟩ := e
  cases fault <;> rfl

theorem Env.in_globals (file : Option String) : (Interpreter.globals file).In file 0 := rfl

namespace Source

variable {text : String} {file : Option String}

/-- An error of a scanned source is at one of its tokens. -/
theorem run_located {ts : List Token} (hscan : scan text = .ok ts) {rounds : Nat} {e : Error}
    {t : State} (h : (⟨text, file⟩ : Source).runFresh rounds = (.error (.error e), t)) :
    (∃ err, e = .parse err file ∧ err.token ∈ ts) ∨ ∃ err, e = .run err ∧ err.Located file ts := by
  have hclose : Cursor.close ts = ts := by
    obtain ⟨us, -, rfl, -⟩ := scanFrom_break hscan
    exact Cursor.close_append rfl us
  unfold runFresh Source.run at h
  cases hparse : parse ts with
  | error err =>
    rw [program_of_parse_error hscan hparse] at h
    cases h
    exact .inl ⟨err, rfl, hclose ▸ parse_rejected_mem hparse⟩
  | ok program =>
    rw [program_ok_iff.2 ⟨ts, hscan, hparse⟩] at h
    have hstmts : ∀ a ∈ program, a.isStmt = true := fun a ha => (parse_shape hparse a ha).1
    have hfrom : ∀ a ∈ program, a.From ts := hclose ▸ parse_from hparse
    exact .inr (Interpreter.interpret_located ⟨file, rounds⟩ (fun _ => lexeme_scan hscan) hstmts
      hfrom (Env.in_globals file) h)

/-- An error of a source is in its file and on one of its lines. If the parser failed, it is at one of
the tokens; if the run failed, one of the tokens is on its line and is the name or the operator that
it is about. -/
theorem runFresh_located {rounds : Nat} {e : Error} {t : State}
    (h : (⟨text, file⟩ : Source).runFresh rounds = (.error (.error e), t)) :
    e.report.file = file ∧
      (∃ line, e.report.line = some line ∧ 1 ≤ line ∧ line ≤ 1 + Text.lineBreaks text.toList) ∧
      (∀ err f, e = .parse err f →
        ∃ ts, scan text = .ok ts ∧ err.token ∈ ts ∧ e.report.line = some err.token.line) ∧
      (∀ err, e = .run err → ∃ ts, scan text = .ok ts ∧
        ∃ token ∈ ts, e.report.line = some token.line ∧ err.fault.Concerns token) := by
  cases hscan : scan text with
  | error err =>
    unfold runFresh Source.run at h
    rw [program_of_scan_error hscan] at h
    cases h
    refine ⟨rfl, ⟨err.line, rfl, line_scan_error hscan⟩, ?_, ?_⟩
    · intro _ _ hparse
      cases hparse
    · intro _ hrun
      cases hrun
  | ok ts =>
    rcases run_located hscan h with ⟨err, rfl, hmem⟩ | ⟨err, rfl, hfile, token, hmem, hline, hfault⟩
    · refine ⟨rfl, ⟨err.token.line, rfl, line_scan hscan hmem⟩, ?_, ?_⟩
      · intro _ _ hparse
        cases hparse
        exact ⟨ts, rfl, hmem, rfl⟩
      · intro _ hrun
        cases hrun
    · have hreport : (Error.run err).report.line = some token.line := by
        rw [hline]
        exact err.line_report
      refine ⟨err.file_report.trans hfile, ⟨token.line, hreport, line_scan hscan hmem⟩, ?_, ?_⟩
      · intro _ _ hparse
        cases hparse
      · intro _ hrun
        cases hrun
        exact ⟨ts, rfl, token, hmem, hreport, hfault⟩

/-- A string over two lines, negated two lines below its end. -/
def brokenSource : String := "var s = \"a\nb\";\n\x7b print\n-s; \x7d"

def brokenTokens : List Token :=
  [⟨.varWord, "var", .nil, 1⟩, ⟨.identifier, "s", .nil, 1⟩, ⟨.equal, "=", .nil, 1⟩,
   ⟨.string, "\"a\nb\"", .str "a\nb", 1⟩, ⟨.semicolon, ";", .nil, 2⟩,
   ⟨.leftBrace, "\x7b", .nil, 3⟩, ⟨.printWord, "print", .nil, 3⟩, ⟨.minus, "-", .nil, 4⟩,
   ⟨.identifier, "s", .nil, 4⟩, ⟨.semicolon, ";", .nil, 4⟩, ⟨.rightBrace, "\x7d", .nil, 4⟩, .eof 4]

def brokenProgram : List Node :=
  [.varDecl ⟨.identifier, "s", .nil, 1⟩ (some (.literal (.str "a\nb"))),
   .block [.print (.unary .neg (.var ⟨.identifier, "s", .nil, 4⟩) 4) 3] 3]

def brokenState : State := ⟨Env.define "s" (.str "a\nb") (Interpreter.globals (some "f")), ""⟩

theorem runFresh_located_negation :
    (⟨brokenSource, some "f"⟩ : Source).runFresh 9 =
        (.error (.error (.run ⟨.negation "-s", 4, some "f"⟩)), brokenState) ∧
      ∃ ts, scan brokenSource = .ok ts ∧ ∃ token ∈ ts, token.line = 4 ∧ token.lexeme = "-" := by
  have hscan : scan brokenSource = .ok brokenTokens := by with_unfolding_all rfl
  have hprogram : (⟨brokenSource, some "f"⟩ : Source).program = .ok brokenProgram :=
    program_ok_iff.2 ⟨brokenTokens, hscan, rfl⟩
  have hinterpret : (Interpreter.interpret ⟨some "f", 9⟩ Interpreter.limit brokenProgram).outcome
      ⟨Interpreter.globals (some "f"), ""⟩ =
        (.error (.error (.run ⟨.negation "-s", 4, some "f"⟩)), brokenState) := rfl
  have hrun : (⟨brokenSource, some "f"⟩ : Source).runFresh 9 =
      (.error (.error (.run ⟨.negation "-s", 4, some "f"⟩)), brokenState) := by
    simp only [runFresh, Source.run, hprogram, hinterpret]
  obtain ⟨-, -, -, htoken⟩ := runFresh_located hrun
  obtain ⟨ts, hts, token, hmem, hline, hlexeme⟩ := htoken _ rfl
  exact ⟨hrun, ts, hts, token, hmem, (Option.some.inj hline).symm, hlexeme⟩

end Source

end Lox
