import Lox.Proofs.Eval.Lines
import Lox.Proofs.Eval.Safety
import Lox.Proofs.Grammar.Lines
import Lox.Proofs.Repl.Beginning
import Lox.Proofs.Token.Layout

/-!
# Layout does not change meaning

A source written again with the same lexemes in another layout has the same tokens but for their
lines (`scan_layout`), the parser only copies lines (`parseWithin_relabel_eq`), and a run only
reports them (`agrees_interpret`). So the two sources print the same, leave the same scopes behind,
and end in the same way: errors differ in nothing but their lines (`Error.SameButLine`).

Main statement (`run_layout`).
-/

set_option autoImplicit false

namespace Lox

/-- The error without its line. -/
def Error.unlined : Error → Error
  | scan e file => scan ⟨e.fault, 0⟩ file
  | parse e file => parse (e.relabel fun _ => 0) file
  | run e => run (e.relabel fun _ => 0)

/-- The errors are of the same category, say the same, and have the same cause in the same file: the
same name and access to it, or the same rejected token, but for lines. -/
structure Error.SameButLine (e e' : Error) : Prop where
  category : e.category = e'.category
  detail : e.report.detail = e'.report.detail
  cause : e.unlined = e'.unlined

/-- Both runs succeed, neither ends in its rounds, or their errors are the same but for lines. -/
inductive SameEnd : Except Failure Unit → Except Failure Unit → Prop
  | done : SameEnd (.ok ()) (.ok ())
  | unfinished : SameEnd (.error .unfinished) (.error .unfinished)
  | error {e e' : Error} (h : e.SameButLine e') :
      SameEnd (.error (.error e)) (.error (.error e'))

namespace Error

theorem category_unlined (e : Error) : e.unlined.category = e.category := by cases e <;> rfl

theorem detail_unlined (e : Error) : e.unlined.report.detail = e.report.detail := by
  cases e with
  | scan | parse => rfl
  | run e =>
    obtain ⟨fault, line, file⟩ := e
    cases fault <;> rfl

theorem SameButLine.of_unlined {e e' : Error} (h : e.unlined = e'.unlined) : e.SameButLine e' where
  category := by rw [← category_unlined, h, category_unlined]
  detail := by rw [← detail_unlined, h, detail_unlined]
  cause := h

end Error

/-- Tokens that are the same but for lines are parsed alike. -/
theorem parse_unlined {ts ts' : List Token} (h : ts'.map Token.unlined = ts.map Token.unlined)
    (hts : ts ≠ []) :
    ((∃ as as', parse ts = .ok as ∧ parse ts' = .ok as' ∧
      as'.map (Node.relabel fun _ => 0) = as.map (Node.relabel fun _ => 0)) ∨
    ∃ e e', parse ts = .error e ∧ parse ts' = .error e' ∧
      (e'.relabel fun _ => 0) = e.relabel fun _ => 0) := by
  have hts' : ts' ≠ [] := by
    rintro rfl
    exact hts (List.map_eq_nil_iff.1 h.symm)
  have hparse := parseWithin_relabel_eq (fun _ => 0) Parse.limit hts
  have hparse' := parseWithin_relabel_eq (fun _ => 0) Parse.limit hts'
  change parseWithin _ (ts'.map Token.unlined) = _ at hparse'
  rw [h] at hparse'
  have heq := hparse'.symm.trans hparse
  unfold parse
  cases hr : parseWithin Parse.limit ts with
  | ok as =>
    cases hr' : parseWithin Parse.limit ts' with
    | ok as' =>
      rw [hr, hr'] at heq
      exact .inl ⟨as, as', rfl, rfl, Except.ok.inj heq⟩
    | error e' =>
      rw [hr, hr'] at heq
      cases heq
  | error e =>
    cases hr' : parseWithin Parse.limit ts' with
    | ok as' =>
      rw [hr, hr'] at heq
      cases heq
    | error e' =>
      rw [hr, hr'] at heq
      exact .inr ⟨e, e', rfl, rfl, Except.error.inj heq⟩

/-- Programs that can be parsed and are the same but for lines run alike. -/
theorem outcome_unlined {ts ts' : List Token} {as as' : List Node} (hparse : parse ts = .ok as)
    (hparse' : parse ts' = .ok as')
    (h : as'.map (Node.relabel fun _ => 0) = as.map (Node.relabel fun _ => 0))
    (i : Interpreter) (levels : Nat) (s : State) :
    ((i.interpret levels as').outcome s).2 = ((i.interpret levels as).outcome s).2 ∧
      SameEnd ((i.interpret levels as).outcome s).1 ((i.interpret levels as').outcome s).1 := by
  have hends : Halt.relabelEnd (fun _ => 0) (i.interpret levels as s) =
      Halt.relabelEnd (fun _ => 0) (i.interpret levels as' s) := by
    rw [← i.agrees_interpret rfl levels as s, ← i.agrees_interpret rfl levels as' s, h]
  have hsafe : ∀ {ts : List Token} {as : List Node}, parse ts = .ok as →
      Safe (fun _ => True) Halt.Expected (fun _ => True) (i.interpret levels as) := by
    intro ts as hparse
    have hleaves : ∀ a ∈ as, a.Leaves (Value.Over fun _ => True) fun _ => True :=
      parse_leaves trivial (fun _ => trivial) hparse fun t _ =>
        ⟨fun _ => by cases t.literal <;> trivial, fun _ => trivial⟩
    exact i.safe_interpret levels (fun a ha => (parse_shape hparse a ha).1) hleaves
  have hover : Env.Over (fun _ => True) s.env := by
    intro scope _ binding _
    cases binding.2 <;> trivial
  have hr := hsafe hparse s hover
  have hr' := hsafe hparse' s hover
  unfold Run.outcome
  generalize i.interpret levels as s = r at hends hr
  generalize i.interpret levels as' s = r' at hends hr'
  cases hr with
  | ok =>
    cases hr' with
    | ok =>
      cases hends
      exact ⟨rfl, .done⟩
    | error => cases hends
  | error hh =>
    cases hr' with
    | ok => cases hends
    | error hh' =>
      cases hh with
      | @error e =>
        cases hh' with
        | @error e' =>
          injection hends with hhalt hstate
          refine ⟨hstate.symm, .error (.of_unlined ?_)⟩
          exact congrArg Error.run (Halt.error.inj hhalt)
        | unfinished => cases hends
      | unfinished =>
        cases hh' with
        | error => cases hends
        | unfinished =>
          cases hends
          exact ⟨rfl, .unfinished⟩

/-- A source written again in another layout has the same tokens but for lines. Run on its own in the
same file it prints the same and leaves the same bindings, and it ends in the same way. -/
theorem run_layout {source text : String} {ts : List Token} (hscan : scan source = .ok ts)
    (hlayout : Layout (ts.dropLast.map (·.lexeme.toList)) text.toList) :
    (∃ ts', scan text = .ok ts' ∧ ts'.map Token.unlined = ts.map Token.unlined) ∧
      ∀ (rounds : Nat) (file : Option String),
        (Source.runFresh rounds ⟨text, file⟩).2 = (Source.runFresh rounds ⟨source, file⟩).2 ∧
          SameEnd (Source.runFresh rounds ⟨source, file⟩).1
            (Source.runFresh rounds ⟨text, file⟩).1 := by
  obtain ⟨ts', hscan', hsame⟩ := scan_layout hscan hlayout
  refine ⟨⟨ts', hscan', hsame⟩, fun rounds file => ?_⟩
  have hne : ts ≠ [] := by
    obtain ⟨segments, hcuts, hmarked⟩ := scanFrom_ok_iff.1 hscan
    obtain ⟨us, line, rfl, -⟩ := hmarked.gives hcuts.holds
    simp
  unfold Source.runFresh Source.run
  rcases parse_unlined hsame hne with ⟨as, as', hparse, hparse', has⟩ | ⟨e, e', hparse, hparse', he⟩
  · rw [Source.program_ok_iff.2 ⟨ts, hscan, hparse⟩, Source.program_ok_iff.2 ⟨ts', hscan', hparse'⟩]
    exact outcome_unlined hparse hparse' has _ _ _
  · rw [Source.program_of_parse_error hscan hparse, Source.program_of_parse_error hscan' hparse']
    exact ⟨rfl, .error (.of_unlined (congrArg (Error.parse · file) he.symm))⟩

/-- A division by a string over two lines. -/
def crampedSource : String := "x/\"a\nb\";"

/-- The same lexemes over five lines, with a comment in front of the slash. -/
def spreadSource : String := "\n\tx //one\n/ \"a\nb\"\r\n;"

def crampedTokens : List Token :=
  [⟨.identifier, "x", .nil, 1⟩, ⟨.slash, "/", .nil, 1⟩, ⟨.string, "\"a\nb\"", .str "a\nb", 1⟩,
   ⟨.semicolon, ";", .nil, 2⟩, Token.eof 2]

theorem run_layout_spread :
    scan crampedSource = .ok crampedTokens ∧
      Layout (crampedTokens.dropLast.map (·.lexeme.toList)) spreadSource.toList ∧
      (∃ ts', scan spreadSource = .ok ts' ∧
        ts'.map Token.unlined = crampedTokens.map Token.unlined) ∧
      SameEnd (Source.runFresh 1 ⟨crampedSource, none⟩).1
        (Source.runFresh 1 ⟨spreadSource, none⟩).1 := by
  have hscan : scan crampedSource = .ok crampedTokens := by with_unfolding_all rfl
  have hlayout :
      Layout (crampedTokens.dropLast.map (·.lexeme.toList)) spreadSource.toList := by
    have hcomment : Filler ('/' :: '/' :: ("one".toList ++ ['\n'])) := .comment (by decide) .nil
    have hfeed : Gap ['\r', '\n'] :=
      ⟨'\r', ['\n'], rfl, by simp [isWhite], .white (by simp [isWhite]) .nil⟩
    have hmargin : Gap ['\n', '\t'] :=
      ⟨'\n', ['\t'], rfl, by simp [isWhite], .white (by simp [isWhite]) .nil⟩
    have hspaced : Spaced ["x".toList, "/".toList, "\"a\nb\"".toList, ";".toList]
        ("x".toList ++ " //one\n".toList ++
          ("/".toList ++ [' '] ++ ("\"a\nb\"".toList ++ ['\r', '\n'] ++ ";".toList))) :=
      .cons ⟨' ', _, rfl, .inl rfl, hcomment⟩
        (.cons ⟨' ', [], rfl, .inl rfl, .nil⟩ (.cons hfeed .last))
    exact ⟨['\n', '\t'], _, [], by decide, .inr hmargin, hspaced, .inl rfl⟩
  obtain ⟨htokens, hrun⟩ := run_layout hscan hlayout
  exact ⟨hscan, hlayout, htokens, (hrun 1 none).2⟩

end Lox
