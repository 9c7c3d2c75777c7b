import Lox.Proofs.Eval.Mirror
import Lox.Proofs.Repl.Beginning
import Lox.Repl

/-!
# Conversations and scripts

A conversation does what the script of its lines does. After each line the waiting lines are a
beginning of what is left of the script, so they only stop too early, and nothing happens, or they
are a program, which runs at once (`program_beginning`); what is left is then the rest of the script.
The invariant of `converse_agrees`: the waiting lines and those to come make a program that runs from
the bindings of the conversation, and the waiting lines alone do not make one.

Main statement (`run_agrees`): if the script runs without an error, the conversation reports none,
prints the same, ends with the same bindings, and no line waits at its end.
-/

set_option autoImplicit false

namespace Lox

namespace Repl

/-- The state after the given lines, if none of them ends the conversation. -/
def after? (rounds : Nat) (debug : Bool) : Repl → List String → Option Repl
  | r, [] => some r
  | r, line :: lines =>
    match r.turn rounds debug line with
    | .goOn next _ => after? rounds debug next lines
    | .leave | .escaped _ _ => none

/-- Words that end a conversation. -/
def parting : List (List Char) := ["exit".toList, "quit".toList]

section
variable {rounds : Nat} {r : Repl} {line : String}

theorem turn_eq_feed {debug : Bool} (h : Text.strip line.toList ∉ parting) :
    r.turn rounds debug line = r.feed rounds debug line := by
  have hleaves : r.leaves line = false := by
    have hword : (Text.strip line.toList == "exit".toList ||
        Text.strip line.toList == "quit".toList) = false := by
      simpa [parting] using h
    simp only [leaves, hword, Bool.and_false]
  unfold turn
  rw [hleaves]
  rfl

theorem feed_incomplete {e : Error} (h : (r.source line).program = .error e)
    (he : e.incomplete = true) :
    r.feed rounds false line = .goOn ⟨r.env, r.buffer ++ [line]⟩ [.printed ""] := by
  simp [feed, Chunk.run, Source.run, h, Chunk.ofRun, he]

theorem feed_program {nodes : List Node} {t : State} (h : (r.source line).program = .ok nodes)
    (hrun : Interpreter.interpret ⟨file, rounds⟩ Interpreter.limit nodes ⟨r.env, ""⟩ = .ok () t) :
    r.feed rounds false line = .goOn ⟨t.env, []⟩ [.printed t.output] := by
  simp [feed, Chunk.run, Source.run, h, Run.outcome, hrun, Chunk.ofRun]

end

/-- A transcript that goes on to the end of input, reports no error, and in which programs print the
given text. -/
structure Calm (t : Transcript) (text : String) : Prop where
  ending : t.ending = .exit .ok
  silent : ∀ message, .report message ∉ t.events
  printed : String.join (t.events.map Event.toPrinted) = text

theorem Calm.after {t : Transcript} {text : String} (h : Calm t text) (events : List Event)
    (hs : ∀ message, .report message ∉ events) :
    Calm (t.after events) (String.join (events.map Event.toPrinted) ++ text) := by
  refine ⟨h.ending, fun message hm => ?_, ?_⟩
  · rcases List.mem_append.1 hm with hm | hm
    · exact hs message hm
    · exact h.silent message hm
  · show String.join ((events ++ t.events).map Event.toPrinted) = _
    rw [List.map_append, String.join_append, h.printed]

theorem Calm.turn {t : Transcript} {text : String} (h : Calm t text) (prompt printed : String) :
    Calm (t.after [.prompt prompt, .printed printed]) (printed ++ text) := by
  have := h.after [.prompt prompt, .printed printed] (by simp)
  simpa [Event.toPrinted, String.join_cons] using this

/-- A conversation over lines that, after the waiting ones, make a program that runs. -/
theorem converse_agrees {rounds : Nat} (ending : EndOfInput) {script : Option String}
    {lines : List String} (hlines : ∀ l ∈ lines, '\n' ∉ l.toList)
    (hparting : ∀ l ∈ lines, Text.strip l.toList ∉ parting)
    (helse : ∀ l ∈ lines, Kind.ofWord (firstWord l.toList) ≠ .elseWord) {r : Repl}
    {nodes : List Node} {s t : State}
    (hprogram : (⟨"\n".intercalate (r.buffer ++ lines), file⟩ : Source).program = .ok nodes)
    (hrun : Interpreter.interpret ⟨script, rounds⟩ Interpreter.limit nodes s = .ok () t)
    (henv : s.env.map Scope.bindings = r.env.map Scope.bindings)
    (hwait : r.buffer = [] ∨
      ∃ e, (⟨"\n".intercalate r.buffer, file⟩ : Source).program = .error e) :
    ∃ final text, r.after? rounds false lines = some final ∧ final.buffer = [] ∧
      t.env.map Scope.bindings = final.env.map Scope.bindings ∧ t.output = s.output ++ text ∧
      Calm (r.converse rounds false ending lines) text := by
  induction lines generalizing r nodes s t with
  | nil =>
    rw [List.append_nil] at hprogram
    have hbuffer : r.buffer = [] := by
      rcases hwait with h | ⟨e, h⟩
      · exact h
      · rw [hprogram] at h
        cases h
    rw [hbuffer, String.intercalate_nil, Source.program_empty] at hprogram
    cases hprogram
    cases hrun
    refine ⟨r, "", rfl, hbuffer, henv, by simp, rfl, ?_, ?_⟩
    · cases ending <;> simp [converse, farewell]
    · cases ending <;> simp [converse, farewell, Event.toPrinted]
  | cons line lines ih =>
    obtain ⟨hline, hlines⟩ := List.forall_mem_cons.1 hlines
    obtain ⟨hpart, hparting⟩ := List.forall_mem_cons.1 hparting
    obtain ⟨-, helse⟩ := List.forall_mem_cons.1 helse
    have hturn : r.turn rounds false line = r.feed rounds false line := turn_eq_feed hpart
    rw [List.append_cons] at hprogram
    have hbegin : (∃ e, (r.source line).program = .error e ∧ e.incomplete = true) ∨
        ∃ as bs f, (r.source line).program = .ok as ∧
          (⟨"\n".intercalate lines, file⟩ : Source).program = .ok (bs.map (Node.relabel f)) ∧
          nodes = as ++ bs :=
      program_beginning (by simp) hlines helse hprogram
    rcases hbegin with ⟨e, hearly, he⟩ | ⟨as, bs, f, has, hbs, rfl⟩
    · -- the lines wait for more, and nothing has happened
      have hfeed : r.feed rounds false line = .goOn ⟨r.env, r.buffer ++ [line]⟩ [.printed ""] :=
        feed_incomplete hearly he
      obtain ⟨final, text, hafter, hbuffer, hfinal, hout, hcalm⟩ :=
        ih hlines hparting helse (r := ⟨r.env, r.buffer ++ [line]⟩) hprogram hrun henv
          (.inr ⟨e, hearly⟩)
      refine ⟨final, text, ?_, hbuffer, hfinal, hout, ?_⟩
      · rw [after?, hturn, hfeed]
        exact hafter
      · rw [converse, hturn, hfeed]
        simpa using hcalm.turn r.prompt ""
    · -- the lines are run, and the rest of the script is left
      obtain ⟨m, hm, ht⟩ := Interpreter.interpret_append_ok_iff.1 hrun
      have hlike : Alike s.output s ⟨r.env, ""⟩ := ⟨henv, by simp⟩
      have hchunk : Mirrors s.output (Interpreter.interpret ⟨script, rounds⟩ Interpreter.limit as)
          (Interpreter.interpret ⟨file, rounds⟩ Interpreter.limit (as.map (Node.relabel id))) :=
        Interpreter.mirrors_interpret (i := ⟨script, rounds⟩) (j := ⟨file, rounds⟩) rfl id _ as
      rw [Node.map_relabel_id] at hchunk
      obtain ⟨m', hm', hmm⟩ := hchunk hlike hm
      have hrest : Mirrors "" (Interpreter.interpret ⟨script, rounds⟩ Interpreter.limit bs)
          (Interpreter.interpret ⟨script, rounds⟩ Interpreter.limit (bs.map (Node.relabel f))) :=
        Interpreter.mirrors_interpret rfl f Interpreter.limit bs
      obtain ⟨t', ht', htt⟩ := hrest ⟨rfl, by simp⟩ ht
      have hfeed : r.feed rounds false line = .goOn ⟨m'.env, []⟩ [.printed m'.output] :=
        feed_program has hm'
      obtain ⟨final, text, hafter, hbuffer, hfinal, hout, hcalm⟩ :=
        ih hlines hparting helse (r := ⟨m'.env, []⟩) hbs ht' hmm.env (.inl rfl)
      refine ⟨final, m'.output ++ text, ?_, hbuffer, htt.env.trans hfinal, ?_, ?_⟩
      · rw [after?, hturn, hfeed]
        exact hafter
      · rw [htt.output, String.empty_append, hout, hmm.output, String.append_assoc]
      · rw [converse, hturn, hfeed]
        exact hcalm.turn r.prompt m'.output

/-- If the script of the lines runs without an error, the conversation over them reports none, prints
the same text, and ends with the same bindings and no line waiting. -/
theorem run_agrees (rounds : Nat) (ending : EndOfInput) (script : Option String)
    {lines : List String} {s : State} (hlines : ∀ l ∈ lines, '\n' ∉ l.toList)
    (hparting : ∀ l ∈ lines, Text.strip l.toList ∉ parting)
    (helse : ∀ l ∈ lines, Kind.ofWord (firstWord l.toList) ≠ .elseWord)
    (hrun : (⟨"\n".intercalate lines, script⟩ : Source).runFresh rounds = (.ok (), s)) :
    ∃ final, start.after? rounds false lines = some final ∧ final.buffer = [] ∧
      final.env.map Scope.bindings = s.env.map Scope.bindings ∧
      (run rounds false ending lines).ending = .exit .ok ∧
      (∀ message, .report message ∉ (run rounds false ending lines).events) ∧
      String.join ((run rounds false ending lines).events.map Event.toPrinted) = s.output := by
  unfold Source.runFresh Source.run at hrun
  cases hprogram : (⟨"\n".intercalate lines, script⟩ : Source).program with
  | error e => simp [hprogram] at hrun
  | ok nodes =>
    simp only [hprogram, Run.outcome] at hrun
    cases hr : Interpreter.interpret ⟨script, rounds⟩ Interpreter.limit nodes
        ⟨Interpreter.globals script, ""⟩ with
    | error h t => simp [hr] at hrun
    | ok u t =>
      obtain rfl : t = s := by simpa [hr] using hrun
      have hprogram' : (⟨"\n".intercalate (start.buffer ++ lines), file⟩ : Source).program =
          .ok nodes := Source.program_ok_iff.2 (Source.program_ok_iff.1 hprogram)
      obtain ⟨final, text, hafter, hbuffer, hfinal, hout, hcalm⟩ :=
        converse_agrees ending hlines hparting helse hprogram' hr rfl (.inl rfl)
      have hcalm' : Calm (run rounds false ending lines) t.output := by
        have := hcalm.after [.note banner] (by simp)
        rw [hout, run]
        simpa [Event.toPrinted, String.join_cons] using this
      exact ⟨final, hafter, hbuffer, hfinal.symm, hcalm'.ending, hcalm'.silent, hcalm'.printed⟩

/-- A string that goes on in the second line, and after it a block that ends in the fourth. -/
def waitingLines : List String := ["var s = \"a", "b\"; // c", "\x7b print", "s; \x7d"]

def waitingTokens : List Token :=
  [⟨.varWord, "var", .nil, 1⟩, ⟨.identifier, "s", .nil, 1⟩, ⟨.equal, "=", .nil, 1⟩,
   ⟨.string, "\"a\nb\"", .str "a\nb", 1⟩, ⟨.semicolon, ";", .nil, 2⟩,
   ⟨.leftBrace, "\x7b", .nil, 3⟩, ⟨.printWord, "print", .nil, 3⟩, ⟨.identifier, "s", .nil, 4⟩,
   ⟨.semicolon, ";", .nil, 4⟩, ⟨.rightBrace, "\x7d", .nil, 4⟩, .eof 4]

def waitingProgram : List Node :=
  [.varDecl ⟨.identifier, "s", .nil, 1⟩ (some (.literal (.str "a\nb"))),
   .block [.print (.var ⟨.identifier, "s", .nil, 4⟩) 3] 3]

/-- What the script of the waiting lines leaves. -/
def waitingState : State := ⟨Env.define "s" (.str "a\nb") (Interpreter.globals none), "a\nb\n"⟩

theorem run_agrees_waiting :
    (∀ l ∈ waitingLines, '\n' ∉ l.toList) ∧
      (∀ l ∈ waitingLines, Text.strip l.toList ∉ parting) ∧
      (∀ l ∈ waitingLines, Kind.ofWord (firstWord l.toList) ≠ .elseWord) ∧
      (⟨"\n".intercalate waitingLines, none⟩ : Source).runFresh 9 = (.ok (), waitingState) ∧
      ∃ final, start.after? 9 false waitingLines = some final ∧ final.buffer = [] ∧
        final.env.map Scope.bindings = waitingState.env.map Scope.bindings ∧
        (run 9 false .closed waitingLines).ending = .exit .ok ∧
        (∀ message, .report message ∉ (run 9 false .closed waitingLines).events) ∧
        String.join ((run 9 false .closed waitingLines).events.map Event.toPrinted) =
          "a\nb\n" := by
  have hlines : ∀ l ∈ waitingLines, '\n' ∉ l.toList := by decide
  have hparting : ∀ l ∈ waitingLines, Text.strip l.toList ∉ parting := by decide
  have helse : ∀ l ∈ waitingLines, Kind.ofWord (firstWord l.toList) ≠ .elseWord := by decide
  have hscan : scan ("\n".intercalate waitingLines) = .ok waitingTokens := by
    with_unfolding_all rfl
  have hprogram : (⟨"\n".intercalate waitingLines, none⟩ : Source).program = .ok waitingProgram :=
    Source.program_ok_iff.2 ⟨waitingTokens, hscan, rfl⟩
  have hinterpret : Interpreter.interpret ⟨none, 9⟩ Interpreter.limit waitingProgram
      ⟨Interpreter.globals none, ""⟩ = .ok () waitingState := rfl
  have hrun : (⟨"\n".intercalate waitingLines, none⟩ : Source).runFresh 9 =
      (.ok (), waitingState) := by
    simp only [Source.runFresh, Source.run, hprogram, Run.outcome, hinterpret]
  exact ⟨hlines, hparting, helse, hrun, run_agrees 9 .closed none hlines hparting helse hrun⟩

end Repl

end Lox
