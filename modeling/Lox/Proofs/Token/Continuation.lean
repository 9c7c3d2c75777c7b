import Lox.Source
import Lox.Proofs.Token.Places

/-!
# Source that goes on

What more text does to a source.

* After a source that is scanned, a line feed and more text are scanned as the text alone is, on
  later lines (`tokens_join`).
* What cannot be scanned stays so, but for an open string, which more text may close: the segments
  before the fault are the same (`Splits.extend`), and what begins with the fault still begins with
  one (`ScanFault.Begins.extend`).

Main statements (`tokens_join`, `scan_incomplete_iff`).
-/

set_option autoImplicit false

namespace Lox

open Segment Text

/-! ## Faults that stay -/

theorem Segment.EndsAt.append {s : Segment} {after : List Char} (h : s.EndsAt after)
    (hne : after ≠ []) (more : List Char) : s.EndsAt (after ++ more) := by
  obtain ⟨d, after, rfl⟩ := List.exists_cons_of_ne_nil hne
  exact endsAt_cons.2 (endsAt_cons.1 h)

/-- More text changes nothing about the segments before a text that is not empty. -/
theorem Splits.extend {segments : List Segment} {rest : List Char} (h : Splits segments rest)
    (hne : rest ≠ []) (more : List Char) : Splits segments (rest ++ more) := by
  induction segments with
  | nil => exact splits_nil
  | cons s segments ih =>
    obtain ⟨hvalid, hend, hsplits⟩ := splits_cons.1 h
    refine splits_cons.2 ⟨hvalid, ?_, ih hsplits⟩
    rw [← List.append_assoc]
    exact hend.append (by simp [hne]) more

/-- A number at the end of a text goes on for as long as more text has digits and points. -/
theorem exists_number_append {number : List Char} (h : Shape.number.Holds number)
    (more : List Char) :
    ∃ grown after, number ++ more = number ++ grown ++ after ∧
      Shape.number.Holds (number ++ grown) ∧
      (⟨.number, number ++ grown⟩ : Segment).EndsAt after := by
  obtain ⟨c, digits, rfl, hc, hdigits⟩ := h
  refine ⟨more.takeWhile isNumberPart, more.dropWhile isNumberPart, ?_, ?_, ?_⟩
  · rw [List.append_assoc, List.takeWhile_append_dropWhile]
  · refine ⟨c, digits ++ more.takeWhile isNumberPart, rfl, hc, fun d hd => ?_⟩
    rcases List.mem_append.1 hd with hd | hd
    · exact hdigits d hd
    · exact isNumberPart_iff.1 (List.mem_takeWhile_imp hd)
  · intro d hd
    have hstop := List.head?_dropWhile_not isNumberPart more
    rw [Option.mem_def.1 hd] at hstop
    exact hstop

/-- A text that begins with a fault begins with one whatever follows, unless the fault is a string
without an end. -/
theorem ScanFault.Begins.extend {fault : ScanFault} {text : List Char} (h : fault.Begins text)
    (hfault : fault.incomplete = false) (more : List Char) :
    ∃ fault' : ScanFault, fault'.Begins (text ++ more) ∧ fault'.incomplete = false := by
  cases fault with
  | unterminated => cases hfault
  | stray c =>
    obtain ⟨after, rfl, hc⟩ := h
    exact ⟨.stray c, ⟨after ++ more, rfl, hc⟩, rfl⟩
  | invalidNumber number =>
    obtain ⟨after, rfl, hnumber, hend, hcount⟩ := h
    -- At the end of the text the number may grow, which keeps its points; elsewhere it has its end.
    by_cases hafter : after = []
    · subst hafter
      obtain ⟨grown, after, hsource, hgrown, hend'⟩ := exists_number_append hnumber more
      refine ⟨.invalidNumber (number ++ grown), ⟨after, ?_, hgrown, hend', ?_⟩, rfl⟩
      · rw [List.append_nil, hsource]
      · rw [List.count_append]
        omega
    · have hend' := hend.append hafter more
      refine ⟨.invalidNumber number, ⟨after ++ more, ?_, hnumber, hend', hcount⟩, rfl⟩
      rw [List.append_assoc]

/-- A source that fails, but for an open string, fails on the same line whatever follows. -/
theorem scanFrom_extend_error {line : Int} {source : List Char} {e : ScanError}
    (h : scanFrom line source = .error e) (he : e.fault.incomplete = false) (more : List Char) :
    ∃ e', scanFrom line (source ++ more) = .error e' ∧ e'.fault.incomplete = false ∧
      e'.line = e.line := by
  obtain ⟨segments, rest, rfl, hsplits, hbegins, hline⟩ := scanFrom_error_iff.1 h
  obtain ⟨fault, hbegins', hfault⟩ := hbegins.extend he more
  refine ⟨⟨fault, e.line⟩, scanFrom_error_iff.2 ⟨segments, rest ++ more, ?_, ?_, hbegins', hline⟩,
    hfault, rfl⟩
  · rw [List.append_assoc]
  · exact hsplits.extend hbegins.ne_nil more

/-! ## Strings that are closed -/

theorem eq_unterminated {fault : ScanFault} (h : fault.incomplete = true) :
    fault = .unterminated := by
  cases fault with
  | unterminated => rfl
  | invalidNumber | stray => cases h

theorem Splits.scans {segments : List Segment} (h : Splits segments []) (line : Int) :
    ∃ ts, scanFrom line (textOf segments) = .ok ts := by
  obtain ⟨ts, hmarked⟩ := (Marked.exists_iff line).2 fun s hs => (h.valid s hs).points
  exact ⟨ts, scanFrom_ok_iff.2 ⟨segments, h.cuts, hmarked⟩⟩

/-- A line feed and a quote complete a source that ends in an open string. -/
theorem scanFrom_close {line : Int} {source : List Char} {e : ScanError}
    (h : scanFrom line source = .error e) (he : e.fault.incomplete = true) :
    ∃ ts, scanFrom line (source ++ ['\n', '"']) = .ok ts := by
  obtain ⟨segments, rest, rfl, hsplits, hbegins, -⟩ := scanFrom_error_iff.1 h
  rw [eq_unterminated he] at hbegins
  obtain ⟨body, rfl, hbody⟩ := hbegins
  have hvalid : (⟨.string, '"' :: (body ++ ['\n'] ++ ['"'])⟩ : Segment).Valid :=
    ⟨⟨body ++ ['\n'], rfl, by simp [hbody]⟩, nofun⟩
  have hclosed : Splits (segments ++ [⟨.string, '"' :: (body ++ ['\n'] ++ ['"'])⟩]) [] := by
    refine splits_append.2 ⟨?_, splits_cons.2 ⟨hvalid, endsAt_nil _, splits_nil⟩⟩
    simpa using hsplits.extend (by simp) ['\n', '"']
  obtain ⟨ts, hts⟩ := hclosed.scans line
  exact ⟨ts, by simpa using hts⟩

/-- The flag of an error tells whether more lines can mend it. If they cannot, nothing can, and the
error stays on its line. -/
theorem scan_incomplete_iff {source : String} {e : ScanError} (h : scan source = .error e) :
    (e.fault.incomplete = true ↔ ∃ more ts, scan (source ++ "\n" ++ more) = .ok ts) ∧
      (e.fault.incomplete = false → ∀ more,
        (∃ e', scan (source ++ more) = .error e' ∧ e'.fault.incomplete = false ∧ e'.line = e.line) ∧
        ∃ e', scan (source ++ "\n" ++ more) = .error e' ∧ e'.fault.incomplete = false ∧
          e'.line = e.line) := by
  have hstays : e.fault.incomplete = false → ∀ more : String,
      ∃ e', scan (source ++ more) = .error e' ∧ e'.fault.incomplete = false ∧ e'.line = e.line := by
    intro he more
    unfold scan
    rw [String.toList_append]
    exact scanFrom_extend_error h he more.toList
  refine ⟨⟨fun he => ?_, ?_⟩, fun he more => ⟨hstays he more, ?_⟩⟩
  · obtain ⟨ts, hts⟩ := scanFrom_close h he
    exact ⟨"\"", ts, by simpa [scan] using hts⟩
  · rintro ⟨more, ts, hok⟩
    by_contra he
    obtain ⟨e', herror, -⟩ := hstays (by simpa using he) ("\n" ++ more)
    rw [← String.append_assoc, hok] at herror
    cases herror
  · rw [String.append_assoc]
    exact hstays he ("\n" ++ more)

/-- A number with two points at the end can grow and stays wrong; an open string can be closed. -/
theorem scan_incomplete_iff_number :
    scan "a\n1.2." = .error ⟨.invalidNumber "1.2.".toList, 2⟩ ∧
      (∀ more, ∃ e, scan ("a\n1.2." ++ more) = .error e ∧ e.fault.incomplete = false ∧ e.line = 2) ∧
      scan "// \"\n\"b" = .error ⟨.unterminated, 2⟩ ∧
      ∃ more ts, scan ("// \"\n\"b" ++ "\n" ++ more) = .ok ts := by
  have hnumber : scan "a\n1.2." = .error ⟨.invalidNumber "1.2.".toList, 2⟩ := by
    with_unfolding_all rfl
  have hstring : scan "// \"\n\"b" = .error ⟨.unterminated, 2⟩ := by with_unfolding_all rfl
  exact ⟨hnumber, fun more => ((scan_incomplete_iff hnumber).2 rfl more).1, hstring,
    (scan_incomplete_iff hstring).1.1 rfl⟩

/-! ## Sources in a row -/

/-- Where a text starts changes the line of its error and nothing else. -/
theorem scanFrom_shift_error (k : Int) {line : Int} {source : List Char} {e : ScanError}
    (h : scanFrom line source = .error e) :
    scanFrom (line + k) source = .error ⟨e.fault, e.line + k⟩ := by
  obtain ⟨segments, rest, hsource, hsplits, hbegins, hline⟩ := scanFrom_error_iff.1 h
  refine scanFrom_error_iff.2 ⟨segments, rest, hsource, hsplits, hbegins, ?_⟩
  rw [hline, Int.add_right_comm]

theorem Source.tokens_ok_iff {source : Source} {ts : List Token} :
    source.tokens = .ok ts ↔ scan source.text = .ok ts := by
  unfold tokens
  cases scan source.text <;> simp

theorem Source.tokens_error_iff {source : Source} {e : Error} :
    source.tokens = .error e ↔
      ∃ err, scan source.text = .error err ∧ e = .scan err source.file := by
  unfold tokens
  cases scan source.text <;> simp [eq_comm]

/-- After a source that is scanned, a line feed and more text give the tokens of the source without
its end, and then those of the text, or its error, further down by the lines of the source. -/
theorem tokens_join {a : String} {as : List Token} (ha : scan a = .ok as) (b : String)
    (file : Option String) :
    ∃ us, NoEof us ∧ as = us ++ [Token.eof (1 + lineBreaks a.toList)] ∧
      (∀ bs, (⟨b, file⟩ : Source).tokens = .ok bs → (⟨a ++ "\n" ++ b, file⟩ : Source).tokens =
        .ok (us ++ bs.map (Token.relabel (· + (1 + lineBreaks a.toList))))) ∧
      ∀ e, (⟨b, file⟩ : Source).tokens = .error e → ∃ fault line, e = .scan ⟨fault, line⟩ file ∧
        (⟨a ++ "\n" ++ b, file⟩ : Source).tokens =
          .error (.scan ⟨fault, line + (1 + lineBreaks a.toList)⟩ file) := by
  obtain ⟨us, hus, has, hbreak⟩ := scanFrom_break ha
  have hjoin : scan (a ++ "\n" ++ b) =
      (scanFrom (1 + (1 + lineBreaks a.toList)) b.toList).map (us ++ ·) := by
    have htext : (a ++ "\n" ++ b).toList = a.toList ++ '\n' :: b.toList := by simp
    rw [scan, htext, hbreak, Int.add_comm 1 (1 + _)]
  refine ⟨us, hus, has, fun bs hb => ?_, fun e hb => ?_⟩
  · have hbs : scanFrom 1 b.toList = .ok bs := Source.tokens_ok_iff.1 hb
    rw [Source.tokens_ok_iff, hjoin, scanFrom_shift _ hbs]
    rfl
  · obtain ⟨err, herr, rfl⟩ := Source.tokens_error_iff.1 hb
    refine ⟨err.fault, err.line, rfl, Source.tokens_error_iff.2 ⟨_, ?_, rfl⟩⟩
    rw [hjoin, scanFrom_shift_error _ herr]
    rfl

/-- A comment ends at the line feed, and what follows is two lines below. -/
theorem tokens_join_comment :
    scan "x\n//\"" = .ok [⟨.identifier, "x", .nil, 1⟩, .eof 2] ∧
      (⟨"x\n//\"" ++ "\n" ++ "y", some "f"⟩ : Source).tokens =
        .ok [⟨.identifier, "x", .nil, 1⟩, ⟨.identifier, "y", .nil, 3⟩, .eof 3] ∧
      (⟨"x\n//\"" ++ "\n" ++ "@", some "f"⟩ : Source).tokens =
        .error (.scan ⟨.stray '@', 3⟩ (some "f")) := by
  have hx : scan "x\n//\"" = .ok [⟨.identifier, "x", .nil, 1⟩, .eof 2] := by with_unfolding_all rfl
  have hy : (⟨"y", some "f"⟩ : Source).tokens = .ok [⟨.identifier, "y", .nil, 1⟩, .eof 1] :=
    Source.tokens_ok_iff.2 (by with_unfolding_all rfl)
  have hstray : (⟨"@", some "f"⟩ : Source).tokens = .error (.scan ⟨.stray '@', 1⟩ (some "f")) :=
    Source.tokens_error_iff.2 ⟨_, by with_unfolding_all rfl, rfl⟩
  refine ⟨hx, ?_, ?_⟩
  · obtain ⟨us, -, hus, hok, -⟩ := tokens_join hx "y" (some "f")
    have hend : [⟨.identifier, "x", .nil, 1⟩] ++ [Token.eof 2] = us ++ [Token.eof 2] := hus
    rw [← List.append_cancel_right hend] at hok
    exact hok _ hy
  · obtain ⟨us, -, -, -, herror⟩ := tokens_join hx "@" (some "f")
    obtain ⟨fault, line, he, hjoined⟩ := herror _ hstray
    cases he
    exact hjoined

end Lox
