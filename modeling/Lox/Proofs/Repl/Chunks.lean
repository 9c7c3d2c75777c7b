import Lox.Proofs.Eval.Lockstep
import Lox.Proofs.Repl.Agreement

/-!
# Chunks of a conversation

The lines of a conversation fall into chunks. Lines wait (`Waits`) while they only stop too early; a
chunk is whole (`Whole`) when it waits no more, and all that came before its last line waited.

`Ledger`: what is true of a conversation whenever it prompts. The lines read are those of whole chunks,
in order, and of the buffer, which waits. The scopes and the text printed are those of the programs
among the chunks, each interpreted once, in order. Each chunk that failed has one report. Every line
that is taken keeps the ledger (`Ledger.wait`, `Ledger.clear`), so all of a conversation does
(`converse_ledger`).

Main statement (`run_ledger`): at every prompt of a conversation there is a ledger of the lines read so
far.
-/

set_option autoImplicit false

namespace Lox

namespace Event

def isPrompt : Event → Bool
  | prompt _ => true
  | _ => false

/-- The text of a report. -/
def report? : Event → Option String
  | report text => some text
  | _ => none

end Event

namespace Repl

/-! ## Chunks -/

/-- The source that lines make. -/
def sourceOf (lines : List String) : Source := ⟨"\n".intercalate lines, file⟩

/-- The lines only stop too early: in a string, or where the parser is at the end of source. -/
def Waits (lines : List String) : Prop :=
  (∃ e, scan ("\n".intercalate lines) = .error e ∧ e.fault.incomplete = true) ∨
    ∃ ts e, scan ("\n".intercalate lines) = .ok ts ∧ parse ts = .error e ∧ e.token.kind = .eof

/-- The lines do not wait for more, as all before the last of them did. -/
structure Whole (chunk : List String) : Prop where
  ne_nil : chunk ≠ []
  ends : ¬ Waits chunk
  waited : ∀ front, front <+: chunk → front ≠ [] → front ≠ chunk → Waits front

/-- The program of the lines, if they can be scanned and parsed. -/
def program? (lines : List String) : Option (List Node) := (sourceOf lines).program.toOption

/-- The state after programs, one after the other, that start in the state `s`. A program that fails
leaves what it did before. -/
def interpretAll (i : Interpreter) (s : State) (programs : List (List Node)) : State :=
  programs.foldl (fun s program => ((i.interpret Interpreter.limit program).outcome s).2) s

/-- The state after chunks that start in the state `s`. -/
def runAll (i : Interpreter) (s : State) (chunks : List (List String)) : State :=
  chunks.foldl (fun s chunk => ((sourceOf chunk).run i s).2) s

/-- How a chunk fails that starts in the state `s`, if it does. -/
def failure? (i : Interpreter) (s : State) (chunk : List String) : Option Error :=
  match (sourceOf chunk).run i s with
  | (.error (.error e), _) => some e
  | _ => none

/-- The errors of chunks, one after the other, that start in the state `s`. -/
def failures (i : Interpreter) : State → List (List String) → List Error
  | _, [] => []
  | s, chunk :: chunks =>
    (failure? i s chunk).toList ++ failures i ((sourceOf chunk).run i s).2 chunks

theorem waits_iff {lines : List String} :
    Waits lines ↔ ∃ e, (sourceOf lines).program = .error e ∧ e.incomplete = true := by
  unfold sourceOf
  constructor
  · rintro (⟨e, hscan, he⟩ | ⟨ts, e, hscan, hparse, he⟩)
    · exact ⟨.scan e file, Source.program_of_scan_error hscan, he⟩
    · exact ⟨.parse e file, Source.program_of_parse_error hscan hparse, beq_iff_eq.2 he⟩
  · rintro ⟨e, hprogram, he⟩
    cases hscan : scan ("\n".intercalate lines) with
    | error err =>
      rw [Source.program_of_scan_error hscan] at hprogram
      cases hprogram
      exact .inl ⟨err, hscan, he⟩
    | ok ts =>
      cases hparse : parse ts with
      | error err =>
        rw [Source.program_of_parse_error hscan hparse] at hprogram
        cases hprogram
        exact .inr ⟨ts, err, hscan, hparse, beq_iff_eq.1 he⟩
      | ok nodes =>
        rw [Source.program_ok_iff.2 ⟨ts, hscan, hparse⟩] at hprogram
        cases hprogram

section
variable (i : Interpreter)

/-- Running chunks is to interpret those that are programs. -/
theorem runAll_eq (s : State) (chunks : List (List String)) :
    runAll i s chunks = interpretAll i s (chunks.filterMap program?) := by
  unfold runAll
  induction chunks generalizing s with
  | nil => rfl
  | cons chunk chunks ih =>
    rw [List.foldl_cons, ih, List.filterMap_cons, program?, Source.run]
    cases (sourceOf chunk).program with
    | error e => rfl
    | ok program => rfl

theorem runAll_append (s : State) (chunks : List (List String)) (chunk : List String) :
    runAll i s (chunks ++ [chunk]) = ((sourceOf chunk).run i (runAll i s chunks)).2 := by
  simp [runAll]

theorem failures_append (s : State) (chunks : List (List String)) (chunk : List String) :
    failures i s (chunks ++ [chunk]) =
      failures i s chunks ++ (failure? i (runAll i s chunks) chunk).toList := by
  unfold runAll
  induction chunks generalizing s with
  | nil => simp [failures]
  | cons first chunks ih => simp [failures, ih]

/-- What was printed before a chunk stays, and its run does not depend on it. -/
theorem run_output (source : Source) (env : Env) (output : String) :
    source.run i ⟨env, output⟩ =
      ((source.run i ⟨env, ""⟩).1,
        ⟨(source.run i ⟨env, ""⟩).2.env, output ++ (source.run i ⟨env, ""⟩).2.output⟩) := by
  unfold Source.run
  cases source.program with
  | error e => simp
  | ok program => exact i.outcome_output Interpreter.limit program env output

end

/-! ## The ledger -/

/-- The account of a conversation in which the lines `read` were read and the events `shown` came
about: the lines of the whole `chunks` were cleared, and the rest waits in the buffer. -/
structure Ledger (rounds : Nat) (read : List String) (r : Repl) (shown : List Event)
    (chunks : List (List String)) : Prop where
  lines : read = chunks.flatten ++ r.buffer
  whole : ∀ chunk ∈ chunks, Whole chunk
  waits : ∀ front, front <+: r.buffer → front ≠ [] → Waits front
  state : interpretAll ⟨file, rounds⟩ ⟨Interpreter.globals file, ""⟩ (chunks.filterMap program?) =
    ⟨r.env, String.join (shown.map Event.toPrinted)⟩
  reports : shown.filterMap Event.report? =
    (failures ⟨file, rounds⟩ ⟨Interpreter.globals file, ""⟩ chunks).map (·.message ++ "\n")

/-- At the first prompt nothing has been read. -/
theorem ledger_start (rounds : Nat) : Ledger rounds [] start [.note banner] [] where
  lines := rfl
  whole := by simp
  waits front hfront hne := absurd (List.prefix_nil.1 hfront) hne
  state := rfl
  reports := rfl

/-- What comes of a line, by how the chunk runs that it makes with the waiting lines. -/
theorem feed_eq (rounds : Nat) (r : Repl) (line : String) :
    r.feed rounds false line =
      match (sourceOf (r.buffer ++ [line])).run ⟨file, rounds⟩ ⟨r.env, ""⟩ with
      | (.ok _, t) => .goOn ⟨t.env, []⟩ [.printed t.output]
      | (.error (.error e), t) =>
        if e.incomplete then .goOn ⟨t.env, r.buffer ++ [line]⟩ [.printed t.output]
        else .goOn ⟨t.env, []⟩ [.printed t.output, .report (e.message ++ "\n")]
      | (.error cause, t) => .escaped cause [.printed t.output] := by
  have hchunk : Chunk.run ⟨file, rounds⟩ false (r.source line) r.env =
      Chunk.ofRun [] ((sourceOf (r.buffer ++ [line])).run ⟨file, rounds⟩ ⟨r.env, ""⟩) := rfl
  unfold feed
  rw [hchunk]
  generalize (sourceOf (r.buffer ++ [line])).run ⟨file, rounds⟩ ⟨r.env, ""⟩ = result
  obtain ⟨ending, t⟩ := result
  cases ending with
  | ok => rfl
  | error f => cases f <;> rfl

/-- Only what cannot be parsed stops too early. -/
theorem program_of_incomplete {i : Interpreter} {source : Source} {s t : State} {e : Error}
    (h : source.run i s = (.error (.error e), t)) (he : e.incomplete = true) :
    source.program = .error e := by
  unfold Source.run at h
  cases hprogram : source.program with
  | error err =>
    rw [hprogram] at h
    cases h
    rfl
  | ok program =>
    simp only [hprogram, Run.outcome] at h
    cases hrun : i.interpret Interpreter.limit program s with
    | ok => simp [hrun] at h
    | error halt t =>
      rw [hrun] at h
      cases halt with
      | error err =>
        cases h
        cases he
      | malformed | tooDeep | unfinished => cases h

section
variable {rounds : Nat} {read : List String} {r next : Repl} {shown events : List Event}
  {chunks : List (List String)} {line : String}

/-- A line with which the chunk ends clears the buffer, after the one run of the chunk. -/
theorem feed_clears (hend : ¬ Waits (r.buffer ++ [line]))
    (hfeed : r.feed rounds false line = .goOn next events) (output : String) :
    next.buffer = [] ∧
      ((sourceOf (r.buffer ++ [line])).run ⟨file, rounds⟩ ⟨r.env, output⟩).2 =
        ⟨next.env, output ++ String.join (events.map Event.toPrinted)⟩ ∧
      events.filterMap Event.report? =
        (failure? ⟨file, rounds⟩ ⟨r.env, output⟩ (r.buffer ++ [line])).toList.map
          (·.message ++ "\n") := by
  rw [feed_eq] at hfeed
  unfold failure?
  rw [run_output]
  cases hrun : (sourceOf (r.buffer ++ [line])).run ⟨file, rounds⟩ ⟨r.env, ""⟩ with
  | mk ending t =>
    rw [hrun] at hfeed
    cases ending with
    | ok =>
      cases hfeed
      refine ⟨rfl, ?_, rfl⟩
      simp [Event.toPrinted, String.join_cons]
    | error f =>
      cases f with
      | malformed | tooDeep | unfinished => cases hfeed
      | error e =>
        have he : e.incomplete = false := by
          rw [Bool.eq_false_iff]
          intro he
          exact hend (waits_iff.2 ⟨e, program_of_incomplete hrun he, he⟩)
        simp only [he, Bool.false_eq_true, if_false] at hfeed
        cases hfeed
        refine ⟨rfl, ?_, rfl⟩
        simp [Event.toPrinted, String.join_cons]

theorem Ledger.wait (h : Ledger rounds read r shown chunks) (hwait : Waits (r.buffer ++ [line]))
    (hfeed : r.feed rounds false line = .goOn next events) :
    Ledger rounds (read ++ [line]) next (shown ++ .prompt r.prompt :: events) chunks := by
  obtain ⟨e, hprogram, he⟩ := waits_iff.1 hwait
  rw [feed_incomplete hprogram he] at hfeed
  cases hfeed
  refine ⟨?_, h.whole, ?_, ?_, ?_⟩
  · rw [h.lines, List.append_assoc]
  · intro front hfront hne
    rcases List.prefix_concat_iff.1 hfront with rfl | hfront
    · exact hwait
    · exact h.waits front hfront hne
  · rw [h.state]
    simp [Event.toPrinted, String.join_append, String.join_cons]
  · rw [← h.reports]
    simp [Event.report?]

theorem Ledger.clear (h : Ledger rounds read r shown chunks) (hend : ¬ Waits (r.buffer ++ [line]))
    (hfeed : r.feed rounds false line = .goOn next events) :
    Ledger rounds (read ++ [line]) next (shown ++ .prompt r.prompt :: events)
      (chunks ++ [r.buffer ++ [line]]) := by
  obtain ⟨hbuffer, hstate, hreports⟩ :=
    feed_clears hend hfeed (String.join (shown.map Event.toPrinted))
  have hbefore : runAll ⟨file, rounds⟩ ⟨Interpreter.globals file, ""⟩ chunks =
      ⟨r.env, String.join (shown.map Event.toPrinted)⟩ := (runAll_eq _ _ _).trans h.state
  refine ⟨?_, ?_, ?_, ?_, ?_⟩
  · rw [h.lines, hbuffer]
    simp
  · refine List.forall_mem_append.2 ⟨h.whole, List.forall_mem_singleton.2 ⟨by simp, hend, ?_⟩⟩
    -- the beginnings of the chunk, but for the chunk itself, are those of the buffer
    intro front hfront hne hshort
    exact h.waits front ((List.prefix_concat_iff.1 hfront).resolve_left hshort) hne
  · intro front hfront hne
    rw [hbuffer] at hfront
    exact absurd (List.prefix_nil.1 hfront) hne
  · rw [← runAll_eq, runAll_append, hbefore, hstate]
    simp [Event.toPrinted, String.join_append, String.join_cons]
  · rw [failures_append, hbefore, List.map_append, ← h.reports, ← hreports, List.filterMap_append]
    rfl

/-- Every line that the conversation goes on after keeps the ledger. -/
theorem Ledger.turn (h : Ledger rounds read r shown chunks)
    (hturn : r.turn rounds false line = .goOn next events) :
    ∃ chunks', Ledger rounds (read ++ [line]) next (shown ++ .prompt r.prompt :: events) chunks' := by
  have hfeed : r.feed rounds false line = .goOn next events := by
    unfold Repl.turn at hturn
    split at hturn
    · cases hturn
    · exact hturn
  by_cases hwait : Waits (r.buffer ++ [line])
  · exact ⟨chunks, h.wait hwait hfeed⟩
  · exact ⟨_, h.clear hwait hfeed⟩

end

/-! ## Conversations -/

/-- What a turn shows. -/
def Turn.events : Turn → List Event
  | .leave => []
  | .goOn _ events | .escaped _ events => events

theorem quiet_turn (rounds : Nat) (r : Repl) (line : String) :
    ∀ e ∈ (r.turn rounds false line).events, e.isPrompt = false := by
  unfold turn
  split
  · simp [Turn.events]
  · rw [feed_eq]
    cases (sourceOf (r.buffer ++ [line])).run ⟨file, rounds⟩ ⟨r.env, ""⟩ with
    | mk ending t =>
      cases ending with
      | ok => simp [Turn.events, Event.isPrompt]
      | error f =>
        cases f with
        | malformed | tooDeep | unfinished => simp [Turn.events, Event.isPrompt]
        | error e =>
          dsimp only
          split <;> simp [Turn.events, Event.isPrompt]

theorem not_prompt_of_quiet {events front back : List Event} {p : String}
    (hquiet : ∀ e ∈ events, e.isPrompt = false) : events ≠ front ++ .prompt p :: back := by
  intro h
  have hprompt : Event.prompt p ∈ events := by
    rw [h]
    exact List.mem_append_right _ List.mem_cons_self
  cases hquiet _ hprompt

/-- A prompt that comes after events without prompts. -/
theorem exists_front {events shown front back : List Event} {p : String}
    (hquiet : ∀ e ∈ events, e.isPrompt = false)
    (h : events ++ shown = front ++ .prompt p :: back) :
    ∃ more, front = events ++ more ∧ shown = more ++ .prompt p :: back := by
  rcases List.append_eq_append_iff.1 h with hmore | ⟨rest, hevents, hrest⟩
  · exact hmore
  · cases rest with
    | nil =>
      rw [List.append_nil] at hevents
      exact ⟨[], by rw [hevents, List.append_nil], hrest.symm⟩
    | cons e rest =>
      obtain ⟨rfl, -⟩ := List.cons.inj hrest
      exact absurd hevents (not_prompt_of_quiet hquiet)

theorem converse_eq (rounds : Nat) (ending : EndOfInput) (r : Repl) (lines : List String) :
    ∃ events, (r.converse rounds false ending lines).events = .prompt r.prompt :: events := by
  cases lines with
  | nil => exact ⟨_, rfl⟩
  | cons line lines =>
    unfold converse
    cases r.turn rounds false line <;> exact ⟨_, rfl⟩

/-- From a prompt on, the ledger is kept up to every later one. -/
theorem converse_ledger {rounds : Nat} {ending : EndOfInput} {lines read : List String} {r : Repl}
    {shown front back : List Event} {chunks : List (List String)} {p : String}
    (h : Ledger rounds read r shown chunks)
    (hprompt : (r.converse rounds false ending lines).events = front ++ .prompt p :: back) :
    ∃ more rest r' chunks', lines = more ++ rest ∧ r.after? rounds false more = some r' ∧
      p = r'.prompt ∧ front.countP Event.isPrompt = more.length ∧
      Ledger rounds (read ++ more) r' (shown ++ front) chunks' := by
  cases front with
  | nil =>
    obtain ⟨events, hevents⟩ := converse_eq rounds ending r lines
    rw [hevents] at hprompt
    cases hprompt
    exact ⟨[], lines, r, chunks, rfl, rfl, rfl, rfl, by simpa using h⟩
  | cons first front =>
    cases lines with
    | nil =>
      obtain ⟨-, hfront⟩ := List.cons.inj hprompt
      exact absurd hfront (not_prompt_of_quiet (by cases ending <;> simp [farewell, Event.isPrompt]))
    | cons line lines =>
      have hquiet := quiet_turn rounds r line
      unfold converse at hprompt
      cases hturn : r.turn rounds false line with
      | leave =>
        rw [hturn] at hprompt hquiet
        obtain ⟨-, hfront⟩ := List.cons.inj hprompt
        exact absurd hfront (not_prompt_of_quiet hquiet)
      | escaped cause events =>
        rw [hturn] at hprompt hquiet
        obtain ⟨-, hfront⟩ := List.cons.inj hprompt
        exact absurd hfront (not_prompt_of_quiet hquiet)
      | goOn next events =>
        rw [hturn] at hprompt hquiet
        change ∀ e ∈ events, e.isPrompt = false at hquiet
        obtain ⟨rfl, hfront⟩ := List.cons.inj hprompt
        -- no prompt comes within the turn, so this one is a prompt of the rest
        obtain ⟨front', rfl, hlater⟩ := exists_front hquiet hfront
        obtain ⟨chunks', hnext⟩ := h.turn hturn
        obtain ⟨more, rest, r', chunks'', rfl, hafter, hp, hcount, hledger⟩ :=
          converse_ledger hnext hlater
        refine ⟨line :: more, rest, r', chunks'', rfl, ?_, hp, ?_, ?_⟩
        · rw [after?, hturn]
          exact hafter
        · have hnone : events.countP Event.isPrompt = 0 := by simpa [List.countP_eq_zero] using hquiet
          rw [List.countP_cons_of_pos rfl, List.countP_append, hnone, hcount, List.length_cons]
          omega
        · simpa using hledger

/-- At every prompt of a conversation, the lines read so far are those of chunks that have ended, in
order, and of the buffer, which is empty or only stops too early. The scopes and what programs have
printed are what comes of the programs among the chunks, each run once, in order; and the reports so
far are one for each chunk that failed. -/
theorem run_ledger (rounds : Nat) (ending : EndOfInput) (lines : List String)
    {front back : List Event} {p : String}
    (h : (run rounds false ending lines).events = front ++ .prompt p :: back) :
    ∃ read rest r chunks, lines = read ++ rest ∧ start.after? rounds false read = some r ∧
      p = r.prompt ∧ front.countP Event.isPrompt = read.length ∧
      (r.buffer = [] ∨ Waits r.buffer) ∧ Ledger rounds read r front chunks := by
  have hbanner : ∀ e ∈ [Event.note banner], e.isPrompt = false := by simp [Event.isPrompt]
  obtain ⟨front, rfl, hprompt⟩ := exists_front hbanner h
  obtain ⟨read, rest, r, chunks, hlines, hafter, hp, hcount, hledger⟩ :=
    converse_ledger (ledger_start rounds) hprompt
  refine ⟨read, rest, r, chunks, hlines, hafter, hp, ?_, ?_, hledger⟩
  · rw [List.countP_append, hcount]
    simp [Event.isPrompt]
  · by_cases hempty : r.buffer = []
    · exact .inl hempty
    · exact .inr (hledger.waits r.buffer (List.prefix_refl _) hempty)

/-- A string over two lines and a negation that fails, and then a block that is not closed. -/
def failingLines : List String := ["print \"a", "b\"; -nil;", "\x7b"]

def failingTokens : List Token :=
  [⟨.printWord, "print", .nil, 1⟩, ⟨.string, "\"a\nb\"", .str "a\nb", 1⟩, ⟨.semicolon, ";", .nil, 2⟩,
   ⟨.minus, "-", .nil, 2⟩, ⟨.nilWord, "nil", .nil, 2⟩, ⟨.semicolon, ";", .nil, 2⟩, .eof 2]

def failingProgram : List Node :=
  [.print (.literal (.str "a\nb")) 1, .exprStmt (.unary .neg (.literal .nil) 2) 2]

def failingReport : String :=
  "[line 2] Error interpreter: operand of unary '-' must be a number: -nil in <stdin>\n"

/-- What is shown before the last prompt. -/
def failingFront : List Event :=
  [.note banner, .prompt "> ", .printed "", .prompt ". ", .printed "a\nb\n",
   .report failingReport, .prompt "> ", .printed ""]

theorem run_ledger_failing :
    (run 9 false .closed failingLines).events = failingFront ++ .prompt ". " :: [.note "\n"] ∧
      Waits ["\x7b"] ∧
      ∃ chunks, chunks.flatten = ["print \"a", "b\"; -nil;"] ∧
        Ledger 9 failingLines ⟨start.env, ["\x7b"]⟩ failingFront chunks := by
  have hopen : start.turn 9 false "print \"a" =
      .goOn ⟨start.env, ["print \"a"]⟩ [.printed ""] := by
    have hscan : scan "print \"a" = .error ⟨.unterminated, 1⟩ := by with_unfolding_all rfl
    rw [turn_eq_feed (by decide)]
    exact feed_incomplete (Source.program_of_scan_error hscan) rfl
  have hfail : (⟨start.env, ["print \"a"]⟩ : Repl).turn 9 false "b\"; -nil;" =
      .goOn start [.printed "a\nb\n", .report failingReport] := by
    have hscan : scan "print \"a\nb\"; -nil;" = .ok failingTokens := by with_unfolding_all rfl
    have hprogram : (sourceOf ["print \"a", "b\"; -nil;"]).program = .ok failingProgram :=
      Source.program_ok_iff.2 ⟨failingTokens, hscan, rfl⟩
    have hrun : (Interpreter.interpret ⟨file, 9⟩ Interpreter.limit failingProgram).outcome
        ⟨start.env, ""⟩ =
          (.error (.error (.run ⟨.negation "-nil", 2, file⟩)), ⟨start.env, "a\nb\n"⟩) := rfl
    rw [turn_eq_feed (by decide), feed_eq]
    simp only [List.cons_append, List.nil_append, Source.run, hprogram, hrun]
    rfl
  have hblock : start.turn 9 false "\x7b" = .goOn ⟨start.env, ["\x7b"]⟩ [.printed ""] := by
    have hscan : scan "\x7b" = .ok [⟨.leftBrace, "\x7b", .nil, 1⟩, .eof 1] := by
      with_unfolding_all rfl
    rw [turn_eq_feed (by decide)]
    exact feed_incomplete (Source.program_of_parse_error hscan rfl) rfl
  have hevents : (run 9 false .closed failingLines).events =
      failingFront ++ .prompt ". " :: [.note "\n"] := by
    simp only [run, failingLines, converse, hopen, hfail, hblock]
    rfl
  obtain ⟨read, rest, r, chunks, hlines, hafter, -, hcount, hwaits, hledger⟩ :=
    run_ledger 9 .closed failingLines hevents
  have hlength : read.length = failingLines.length := hcount.symm
  obtain rfl : failingLines = read := by
    rw [hlines, List.length_append] at hlength
    obtain rfl : rest = [] := List.eq_nil_of_length_eq_zero (by omega)
    rw [hlines, List.append_nil]
  simp only [failingLines, after?, hopen, hfail, hblock, Option.some.injEq] at hafter
  subst hafter
  refine ⟨hevents, hwaits.resolve_left (by simp), chunks, ?_, hledger⟩
  have hread : ["print \"a", "b\"; -nil;"] ++ ["\x7b"] = chunks.flatten ++ ["\x7b"] := hledger.lines
  exact (List.append_cancel_right hread).symm

end Repl

end Lox
