import Lox.CommandLine
import Lox.Proofs.Eval.Safety
import Lox.Proofs.Repl.Beginning

/-!
# How scripts end

A script ends with an exit code: one for a file that cannot be read as text (`Due.unreadable`), one
for a program that fails (`Due.failing`), and zero (`Due.done`). There are three ways to miss it
(`Slip`), in which the command ends without a code: the path has a null character in it, the file is
not valid UTF-8, or the program is to be dumped and one of its statements has too many levels.

* `Source.run_cases`: a run ends well, by an error of the language, or not at all.
* `Chunk.run_spec`: a chunk fails as its run does, unless the dump fails before, and it reports
  nothing by itself.

Main statement (`concludes_iff`): a script that ends does so with the exit code that is due,
and with a report if that is not zero, exactly if none of the three slips happens.
-/

set_option autoImplicit false

namespace Lox

/-! ## Runs of sources -/

theorem Value.over_true (v : Value) : v.Over fun _ => True := by
  cases v <;> trivial

theorem Source.isStmt_program {source : Source} {program : List Node}
    (h : source.program = .ok program) : ∀ a ∈ program, a.isStmt = true := by
  obtain ⟨ts, -, hparse⟩ := Source.program_ok_iff.1 h
  exact fun a ha => (parse_shape hparse a ha).1

/-- A source that runs comes to its end, fails by an error of the language, or goes on for too many
rounds. -/
theorem Source.run_cases (i : Interpreter) (source : Source) (s : State) :
    ∃ t, source.run i s = (.ok (), t) ∨ (∃ e, source.run i s = (.error (.error e), t)) ∨
      source.run i s = (.error .unfinished, t) := by
  unfold Source.run
  cases hprogram : source.program with
  | error e => exact ⟨s, .inr (.inl ⟨e, rfl⟩)⟩
  | ok program =>
    obtain ⟨ts, -, hparse⟩ := Source.program_ok_iff.1 hprogram
    have hleaves : ∀ a ∈ program, a.Leaves (Value.Over fun _ => True) fun _ => True :=
      parse_leaves trivial (fun _ => trivial) hparse fun t _ =>
        ⟨fun _ => t.literal.over_true, fun _ => trivial⟩
    have hrun := i.safe_interpret Interpreter.limit (isStmt_program hprogram) hleaves s
      fun _ _ b _ => b.2.over_true
    unfold Run.outcome
    dsimp only
    generalize i.interpret Interpreter.limit program s = r at hrun
    cases hrun with
    | @ok _ t => exact ⟨t, .inl rfl⟩
    | @error h t hh =>
      cases hh with
      | @error e => exact ⟨t, .inr (.inl ⟨.run e, rfl⟩)⟩
      | unfinished => exact ⟨t, .inr (.inr rfl)⟩

/-! ## Dumps -/

/-- Some statement has more levels than can be rendered. -/
def TooDeepToRender (program : List Node) : Prop := ∃ a ∈ program, Node.renderLimit < a.height

/-- Well-formed statements are rendered, up to one with too many levels. -/
theorem renderProgram_cases {program : List Node} (h : ∀ a ∈ program, a.isStmt = true) :
    ((renderProgram program).2 = none ∧ ¬ TooDeepToRender program) ∨
      (renderProgram program).2 = some .tooDeep ∧ TooDeepToRender program := by
  induction program with
  | nil => exact .inl ⟨rfl, by simp [TooDeepToRender]⟩
  | cons a program ih =>
    obtain ⟨ha, hprogram⟩ := List.forall_mem_cons.1 h
    have hrender := Node.render_eq Node.renderLimit 0 (.inr ha)
    unfold Node.within at hrender
    split at hrender
    · rename_i hheight
      have htail : (renderProgram (a :: program)).2 = (renderProgram program).2 := by
        simp [renderProgram, hrender]
      have hdeep : TooDeepToRender (a :: program) ↔ TooDeepToRender program := by
        simp [TooDeepToRender, Nat.not_lt.2 hheight]
      rw [htail, hdeep]
      exact ih hprogram
    · rename_i hheight
      refine .inr ⟨?_, a, List.mem_cons_self, Nat.lt_of_not_le hheight⟩
      simp [renderProgram, hrender]

/-- The program of the source is to be dumped and cannot be. -/
def Source.DumpFails (debug : Bool) (source : Source) : Prop :=
  debug = true ∧ ∃ program, source.program = .ok program ∧ TooDeepToRender program

/-! ## Chunks -/

/-- Nothing among the events is a report. -/
def Quiet (events : List Event) : Prop := ∀ event ∈ events, event.toError = ""

theorem Quiet.join_errors {events : List Event} (h : Quiet events) :
    String.join (events.map Event.toError) = "" := by
  induction events with
  | nil => rfl
  | cons event events ih =>
    obtain ⟨hevent, hevents⟩ := List.forall_mem_cons.1 h
    simp [String.join_cons, hevent, ih hevents]

namespace Chunk

/-- The failure of a run, if it fails. -/
def failureOf : Except Failure Unit → Option Failure
  | .ok _ => none
  | .error f => some f

variable (i : Interpreter) {debug : Bool} {source : Source} (env : Env)

theorem ofRun_spec {before : List Event} (hbefore : Quiet before)
    (result : Except Failure Unit × State) :
    (ofRun before result).failure = failureOf result.1 ∧ Quiet (ofRun before result).events := by
  obtain ⟨ending, t⟩ := result
  have hquiet : Quiet (before ++ [.printed t.output]) :=
    List.forall_mem_append.2 ⟨hbefore, by simp [Event.toError]⟩
  cases ending <;> exact ⟨rfl, hquiet⟩

/-- A program is dumped before it runs, and does not run if the dump fails. -/
theorem exists_dump {program : List Node} (h : source.program = .ok program) :
    ∃ text, run i true source env = match (renderProgram program).2 with
      | none => ofRun [.dump text] (source.run i ⟨env, ""⟩)
      | some fault => ⟨env, [.dump text], some fault.halt.failure⟩ := by
  cases htokens : source.tokens with
  | error e => simp [Source.program, htokens] at h
  | ok tokens =>
    simp only [run, htokens, h, dumpProgram, if_true]
    obtain ⟨tree, fault⟩ := renderProgram program
    cases fault <;> exact ⟨_, rfl⟩

/-- A chunk fails as its run does and reports nothing, unless it cannot be dumped. -/
theorem run_spec (h : ¬ source.DumpFails debug) :
    (run i debug source env).failure = failureOf (source.run i ⟨env, ""⟩).1 ∧
      Quiet (run i debug source env).events := by
  cases debug with
  | false => exact ofRun_spec (by simp [Quiet]) _
  | true =>
    cases hprogram : source.program with
    | error e => simp [run, hprogram, Source.run, failureOf, Quiet]
    | ok program =>
      obtain ⟨text, hrun⟩ := exists_dump i env hprogram
      rcases renderProgram_cases (Source.isStmt_program hprogram) with ⟨hnone, -⟩ | ⟨-, hdeep⟩
      · rw [hrun, hnone]
        exact ofRun_spec (by simp [Quiet, Event.toError]) _
      · exact absurd ⟨rfl, program, hprogram, hdeep⟩ h

theorem run_of_dumpFails (h : source.DumpFails debug) :
    ∃ text, run i debug source env = ⟨env, [.dump text], some .tooDeep⟩ := by
  obtain ⟨rfl, program, hprogram, hdeep⟩ := h
  obtain ⟨text, hrun⟩ := exists_dump i env hprogram
  rcases renderProgram_cases (Source.isStmt_program hprogram) with ⟨-, hshallow⟩ | ⟨hsome, -⟩
  · exact absurd hdeep hshallow
  · rw [hsome] at hrun
    exact ⟨text, hrun⟩

/-- How a script ends whose chunk does not fail. -/
theorem conclude_done {c : Chunk} (h : c.failure = none) (hquiet : Quiet c.events) :
    c.conclude.ending = .exit .ok ∧ c.conclude.errors = "" := by
  unfold conclude
  rw [h]
  exact ⟨rfl, hquiet.join_errors⟩

theorem conclude_error {c : Chunk} {e : Error} (h : c.failure = some (.error e))
    (hquiet : Quiet c.events) :
    c.conclude.ending = .exit .dataError ∧ c.conclude.errors = e.message ++ "\n" := by
  unfold conclude
  rw [h]
  refine ⟨rfl, ?_⟩
  simp [Transcript.errors, String.join_append, hquiet.join_errors, Event.toError]

end Chunk

/-! ## Scripts -/

namespace Script

variable (w : World) (path : String)

/-- The source of a script, if the path names a file that can be read as text. -/
def source? : Option Source :=
  if path.contains '\x00' then none
  else match w.read path with
    | .error _ => none
    | .ok bytes => (decodeScript bytes).map fun text => ⟨text, some path⟩

/-- The exit code that is due: for a file that cannot be read as text, for a program that fails, or
for one that comes to its end. -/
inductive Due : Exit → Prop
  | unreadable (h : source? w path = none) : Due .usage
  | failing {source : Source} {e : Error} {t : State} (h : source? w path = some source)
      (hrun : source.runFresh w.rounds = (.error (.error e), t)) : Due .dataError
  | done {source : Source} {t : State} (h : source? w path = some source)
      (hrun : source.runFresh w.rounds = (.ok (), t)) : Due .ok

/-- The script ends with the exit code that is due, and there is a report unless that is zero. -/
def Concludes (t : Transcript) : Prop :=
  ∃ code, t.ending = .exit code ∧ Due w path code ∧ (t.errors = "" ↔ code = .ok)

/-- What makes a script end without an exit code. -/
inductive Slip : Escape → Prop
  | nullInPath (h : path.contains '\x00' = true) : Slip .nullInPath
  | undecodable {bytes : ByteArray} (hpath : path.contains '\x00' = false)
      (hread : w.read path = .ok bytes) (h : ¬ bytes.IsValidUTF8) : Slip .undecodable
  | dump {source : Source} (h : source? w path = some source) (hdump : source.DumpFails w.debug) :
      Slip (.failure .tooDeep)

end Script

theorem decodeScript_eq_none_iff {bytes : ByteArray} :
    decodeScript bytes = none ↔ ¬ bytes.IsValidUTF8 := by
  simp [decodeScript, String.fromUTF8?]

section
variable {w : World} {path : String}

theorem Command.ofArgs_script (h : path ≠ "-h") (h' : path ≠ "--help") :
    ofArgs [path] = .script path := by
  simp [ofArgs, h, h']

/-- A script that can be read is run as one chunk. -/
theorem Command.run_of_source? {source : Source} (h : Script.source? w path = some source) :
    (script path).run w = (Chunk.run ⟨source.file, w.rounds⟩ w.debug source
      (Interpreter.globals source.file)).conclude := by
  unfold Script.source? at h
  split at h
  · cases h
  · rename_i hpath
    cases hread : w.read path with
    | error fault => simp [hread] at h
    | ok bytes =>
      rw [hread] at h
      obtain ⟨text, htext, rfl⟩ := Option.map_eq_some_iff.1 h
      simp [run, hpath, hread, runScript, htext]

namespace Script

theorem ending_of_slip {cause : Escape} (h : Slip w path cause) :
    ((Command.script path).run w).ending = .escaped cause := by
  cases h with
  | nullInPath h => simp [Command.run, h]
  | undecodable hpath hread h =>
    simp [Command.run, hpath, hread, runScript, decodeScript_eq_none_iff.2 h]
  | dump h hdump =>
    obtain ⟨text, hrun⟩ := Chunk.run_of_dumpFails ⟨_, w.rounds⟩ (Interpreter.globals _) hdump
    rw [Command.run_of_source? h, hrun]
    rfl

theorem concludes_unreadable (h : source? w path = none) (hslip : ∀ cause, ¬ Slip w path cause) :
    Concludes w path ((Command.script path).run w) := by
  have hpath : path.contains '\x00' = false := by
    rw [Bool.eq_false_iff]
    exact fun hpath => hslip _ (.nullInPath hpath)
  cases hread : w.read path with
  | error fault =>
    refine ⟨.usage, ?_, .unreadable h, ?_⟩
    · simp [Command.run, hpath, hread, runScript]
    · simp [Command.run, hpath, hread, runScript, Transcript.errors, Event.toError]
  | ok bytes =>
    have hdecode : decodeScript bytes = none := by simpa [source?, hpath, hread] using h
    exact absurd (.undecodable hpath hread (decodeScript_eq_none_iff.1 hdecode)) (hslip _)

theorem concludes_source {source : Source} (h : source? w path = some source)
    (hdump : ¬ source.DumpFails w.debug)
    (hends : ((Command.script path).run w).ending ≠ .escaped (.failure .unfinished)) :
    Concludes w path ((Command.script path).run w) := by
  have hchunk := Chunk.run_spec ⟨source.file, w.rounds⟩ (Interpreter.globals source.file) hdump
  obtain ⟨hfailure, hquiet⟩ := hchunk
  obtain ⟨t, hrun⟩ := source.run_cases ⟨source.file, w.rounds⟩ ⟨Interpreter.globals source.file, ""⟩
  rw [Command.run_of_source? h] at hends ⊢
  -- Only a run without an end would let something else than an error of the language through.
  rcases hrun with hrun | ⟨e, hrun⟩ | hrun <;> rw [hrun] at hfailure
  · obtain ⟨hending, herrors⟩ := Chunk.conclude_done hfailure hquiet
    exact ⟨.ok, hending, .done h hrun, by simp [herrors]⟩
  · obtain ⟨hending, herrors⟩ := Chunk.conclude_error hfailure hquiet
    exact ⟨.dataError, hending, .failing h hrun, by simp [herrors]⟩
  · refine absurd ?_ hends
    simp [Chunk.conclude, hfailure, Chunk.failureOf]

/-- A script that ends does so with the exit code that is due, and with a report unless that is
zero, but for the slips, in which it ends without a code. -/
theorem concludes_iff (hh : path ≠ "-h") (hhelp : path ≠ "--help")
    (hends : ((Command.ofArgs [path]).run w).ending ≠ .escaped (.failure .unfinished)) :
    (Concludes w path ((Command.ofArgs [path]).run w) ↔ ∀ cause, ¬ Slip w path cause) ∧
      ∀ cause, ((Command.ofArgs [path]).run w).ending = .escaped cause ↔ Slip w path cause := by
  rw [Command.ofArgs_script hh hhelp] at hends ⊢
  have hconcludes : (∀ cause, ¬ Slip w path cause) →
      Concludes w path ((Command.script path).run w) := by
    intro hslip
    cases h : source? w path with
    | none => exact concludes_unreadable h hslip
    | some source => exact concludes_source h (fun hdump => hslip _ (.dump h hdump)) hends
  refine ⟨⟨?_, hconcludes⟩, fun cause => ⟨fun hescaped => ?_, ending_of_slip⟩⟩
  · rintro ⟨code, hending, -⟩ cause hslip
    rw [ending_of_slip hslip] at hending
    cases hending
  · by_cases hslip : ∃ cause, Slip w path cause
    · obtain ⟨cause', hslip⟩ := hslip
      rw [ending_of_slip hslip] at hescaped
      cases hescaped
      exact hslip
    · obtain ⟨code, hending, -⟩ := hconcludes fun cause h => hslip ⟨cause, h⟩
      rw [hescaped] at hending
      cases hending

end Script

end

namespace Script

/-- A world with one file in it. -/
def worldOf (path : String) (bytes : ByteArray) (debug : Bool) : World where
  read other :=
    if other = path then .ok bytes else .error (.opening ⟨2, "No such file or directory"⟩)
  input := ""
  ending := .closed
  debug := debug
  rounds := 1

theorem read_worldOf (path : String) (bytes : ByteArray) (debug : Bool) :
    (worldOf path bytes debug).read path = .ok bytes := if_pos rfl

/-- A script that negates `nil`. -/
def negation : Source := ⟨"-nil;", some "/tmp/a"⟩

def negationWorld : World := worldOf "/tmp/a" "-nil;".toByteArray true

/-- The script is dumped, and then ends with its error. -/
theorem concludes_iff_negation :
    ((Command.ofArgs ["/tmp/a"]).run negationWorld).ending = .exit .dataError ∧
      Concludes negationWorld "/tmp/a" ((Command.ofArgs ["/tmp/a"]).run negationWorld) := by
  have hread : negationWorld.read "/tmp/a" = .ok "-nil;".toByteArray := read_worldOf _ _ _
  have hdecode : decodeScript "-nil;".toByteArray = some "-nil;" := rfl
  have hsource : source? negationWorld "/tmp/a" = some negation := by
    simp [source?, hread, hdecode, negation]
  have hprogram : negation.program = .ok [.exprStmt (.unary .neg (.literal .nil) 1) 1] := by
    refine Source.program_ok_iff.2 ⟨[⟨.minus, "-", .nil, 1⟩, ⟨.nilWord, "nil", .nil, 1⟩,
      ⟨.semicolon, ";", .nil, 1⟩, .eof 1], ?_, rfl⟩
    with_unfolding_all rfl
  have hdump : ¬ negation.DumpFails true := by
    rintro ⟨-, program, hprogram', a, ha, hheight⟩
    rw [hprogram] at hprogram'
    cases hprogram'
    rw [List.mem_singleton.1 ha] at hheight
    exact absurd hheight (by decide)
  have hending : ((Command.ofArgs ["/tmp/a"]).run negationWorld).ending = .exit .dataError := by
    have hchunk := Chunk.run_spec ⟨negation.file, 1⟩ (Interpreter.globals negation.file) hdump
    have hfailure : (Chunk.run ⟨negation.file, 1⟩ true negation
        (Interpreter.globals negation.file)).failure =
          some (.error (.run ⟨.negation "-nil", 1, negation.file⟩)) := by
      rw [hchunk.1, Source.run, hprogram]
      rfl
    rw [Command.ofArgs_script (by decide) (by decide), Command.run_of_source? hsource]
    exact (Chunk.conclude_error hfailure hchunk.2).1
  have hends : ((Command.ofArgs ["/tmp/a"]).run negationWorld).ending ≠
      .escaped (.failure .unfinished) := by
    intro hescaped
    rw [hending] at hescaped
    cases hescaped
  refine ⟨hending, (concludes_iff (by decide) (by decide) hends).1.2 ?_⟩
  rintro cause (hpath | ⟨hpath, hread', hbytes⟩ | ⟨h, hfails⟩)
  · simp at hpath
  · rw [hread] at hread'
    cases hread'
    rw [decodeScript_eq_none_iff.2 hbytes] at hdecode
    cases hdecode
  · rw [hsource] at h
    cases h
    exact hdump hfails

/-- The code of an unreadable file is due for one that is not valid UTF-8, but there is none. -/
theorem garbled_not_concludes :
    Due (worldOf "a" ⟨#[0xff]⟩ false) "a" .usage ∧
      ((Command.ofArgs ["a"]).run (worldOf "a" ⟨#[0xff]⟩ false)).ending = .escaped .undecodable ∧
      ¬ Concludes (worldOf "a" ⟨#[0xff]⟩ false) "a"
        ((Command.ofArgs ["a"]).run (worldOf "a" ⟨#[0xff]⟩ false)) := by
  have hdecode : decodeScript ⟨#[0xff]⟩ = none := rfl
  have hending :
      ((Command.ofArgs ["a"]).run (worldOf "a" ⟨#[0xff]⟩ false)).ending = .escaped .undecodable :=
    ending_of_slip
      (.undecodable (by simp) (read_worldOf _ _ _) (decodeScript_eq_none_iff.1 hdecode))
  refine ⟨.unreadable ?_, hending, ?_⟩
  · simp [source?, read_worldOf, hdecode]
  · rintro ⟨code, hexit, -⟩
    rw [hending] at hexit
    cases hexit

end Script

end Lox
