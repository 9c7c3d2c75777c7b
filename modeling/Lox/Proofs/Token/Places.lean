import Lox.Proofs.Syntax.Cutting
import Lox.Proofs.Token.Lines
import Lox.Proofs.Token.Numeral

/-!
# Where tokens and errors stand

A source that cannot be scanned is cut up to the text that is at fault. `ScanFault.Begins` says what
that text is: a string without an end, a number with two points, or a character that starts no
segment. `scanFrom_error_iff`: the scanner fails at the first such text, on the line where it
begins, and in no other way.

`placed` gives each segment the number of characters before it, and `lineAt` the line of a place in
a source.

Main statement (`scan_places`): every token is on the line of the first character of its segment,
the end of source is on the last line, and an error is on the line of the first character of the
text at fault.
-/

set_option autoImplicit false

namespace Lox

open Segment Text

/-! ## Texts at fault -/

/-- No segment starts with the character. -/
def StartsNothing (c : Char) : Prop :=
  ∀ (shape : Shape) (more : List Char), ¬ shape.Holds (c :: more)

/-- The text begins with what the fault is about. -/
def ScanFault.Begins : ScanFault → List Char → Prop
  | unterminated, text => ∃ body, text = '"' :: body ∧ '"' ∉ body
  | invalidNumber number, text =>
    ∃ after, text = number ++ after ∧ Shape.number.Holds number ∧
      (⟨.number, number⟩ : Segment).EndsAt after ∧ 1 < number.count '.'
  | stray c, text => ∃ after, text = c :: after ∧ StartsNothing c

theorem ScanFault.Begins.ne_nil {fault : ScanFault} {text : List Char} (h : fault.Begins text) :
    text ≠ [] := by
  cases fault with
  | unterminated =>
    obtain ⟨body, rfl, -⟩ := h
    simp
  | invalidNumber number =>
    obtain ⟨after, rfl, hnumber, -⟩ := h
    simp [hnumber.ne_nil]
  | stray c =>
    obtain ⟨after, rfl, -⟩ := h
    simp

theorem cutString_eq_error_iff {c : Char} {rest : List Char} {fault : ScanFault} :
    cutString c rest = .error fault ↔ fault = .unterminated ∧ '"' ∉ rest := by
  have hdrop : rest.dropWhile (!isQuote ·) = [] ↔ '"' ∉ rest := by
    simp only [List.dropWhile_eq_nil_iff, isQuote, Bool.not_eq_true', beq_eq_false_iff_ne]
    exact ⟨fun h hquote => h _ hquote rfl, fun h d hd hquote => h (hquote ▸ hd)⟩
  unfold cutString
  split
  · rename_i hnil
    simp [hdrop.1 hnil, eq_comm]
  · rename_i hcons
    have hquote : '"' ∈ rest := by
      by_contra hquote
      rw [hdrop.2 hquote] at hcons
      cases hcons
    simp [hquote]

/-- A mark of two characters starts with a mark of one. -/
theorem mark_of_mark_cons {c : Char} {more : List Char} (h : Shape.mark.Holds (c :: more)) :
    Shape.mark.Holds [c] := by
  obtain ⟨k, hk, hspell⟩ := h
  have hfirst : ∀ k ∈ Kind.marks, (Kind.ofMark? (k.spelling.toList.take 1)).isSome = true := by
    decide
  have hone := hfirst k hk
  rw [hspell] at hone
  exact isSome_ofMark?_iff.1 hone

theorem mark_of_comment_cons {c : Char} {more : List Char} (h : Shape.comment.Holds (c :: more)) :
    Shape.mark.Holds [c] := by
  obtain ⟨body, hbody, -⟩ := h
  cases hbody
  exact ⟨.slash, by decide, rfl⟩

theorem cutMark?_eq_none_iff {c : Char} {rest : List Char} :
    cutMark? c rest = none ↔ ¬ Shape.mark.Holds [c] := by
  unfold cutMark?
  split
  · rename_i htwo
    simp [mark_of_mark_cons (isSome_ofMark?_iff.1 htwo)]
  · split
    · rename_i hone
      simp [isSome_ofMark?_iff.1 hone]
    · rename_i hone
      simpa [isSome_ofMark?_iff] using hone

theorem ofStart_eq_string {c : Char} (h : Shape.ofStart c = .string) : c = '"' := by
  unfold Shape.ofStart at h
  split at h
  · rename_i hquote
    simpa [isQuote] using hquote
  · repeat' split at h
    all_goals cases h

theorem ofStart_ne_comment (c : Char) : Shape.ofStart c ≠ .comment := by
  unfold Shape.ofStart
  repeat' split
  all_goals decide

theorem not_startsNothing_quote : ¬ StartsNothing '"' := fun h =>
  h .string ['"'] ⟨[], rfl, List.not_mem_nil⟩

/-- A character that could only start a mark, and starts none, starts nothing. -/
theorem startsNothing_of_not_mark {c : Char} (hstart : Shape.ofStart c = .mark)
    (hmark : ¬ Shape.mark.Holds [c]) : StartsNothing c := by
  intro shape more h
  have hfamily := h.family_eq.trans hstart
  cases shape with
  | mark => exact hmark (mark_of_mark_cons h)
  | comment => exact hmark (mark_of_comment_cons h)
  | string | number | word | newline | blank => cases hfamily

/-- Nothing is cut off where a string has no end, or at a character that starts no segment. -/
theorem cut_eq_error {c : Char} {rest : List Char} {fault : ScanFault}
    (h : cut c rest = .error fault) : fault.Begins (c :: rest) := by
  rw [cut_eq] at h
  cases hstart : Shape.ofStart c <;> rw [hstart] at h
  case string =>
    obtain ⟨rfl, hrest⟩ := cutString_eq_error_iff.1 h
    exact ⟨rest, by rw [ofStart_eq_string hstart], hrest⟩
  case number | word | newline | blank => cases h
  case comment => exact absurd hstart (ofStart_ne_comment c)
  case mark =>
    -- A comment is cut here as well, as it starts like a mark.
    dsimp only at h
    split at h
    · cases h
    · cases hmark : cutMark? c rest with
      | some found => simp [hmark] at h
      | none =>
        rw [hmark] at h
        cases h
        exact ⟨rest, rfl, startsNothing_of_not_mark hstart (cutMark?_eq_none_iff.1 hmark)⟩

theorem cut_of_startsNothing {c : Char} (h : StartsNothing c) (rest : List Char) :
    cut c rest = .error (.stray c) := by
  cases hcut : cut c rest with
  | ok found =>
    obtain ⟨more, htext, -⟩ := cut_eq_ok hcut
    exact absurd (htext ▸ (cut_sound hcut).1) (h _ more)
  | error fault =>
    have hbegins := cut_eq_error hcut
    cases fault with
    | unterminated =>
      obtain ⟨body, hbody, -⟩ := hbegins
      cases hbody
      exact absurd h not_startsNothing_quote
    | invalidNumber number =>
      obtain ⟨after, hsource, hnumber, -⟩ := hbegins
      obtain ⟨d, more, rfl⟩ := List.exists_cons_of_ne_nil hnumber.ne_nil
      cases hsource
      exact absurd hnumber (h _ more)
    | stray d =>
      obtain ⟨after, hsource, -⟩ := hbegins
      cases hsource
      rfl

theorem token?_eq_error_iff {line : Int} {s : Segment} {fault : ScanFault} :
    s.token? line = .error fault ↔
      s.shape = .number ∧ fault = .invalidNumber s.text ∧ 1 < s.text.count '.' := by
  obtain ⟨shape, text⟩ := s
  cases shape with
  | number =>
    by_cases hcount : text.count '.' ≤ 1
    · simp [token?, Number.ofLiteral?, hcount]
    · simp [token?, Number.ofLiteral?, hcount, Nat.lt_of_not_le hcount, eq_comm]
  | string | word | comment | mark | newline | blank => simp [token?]

/-- A text that begins with a fault fails by it. -/
theorem scanFrom_of_begins {fault : ScanFault} {text : List Char} (h : fault.Begins text)
    (line : Int) : scanFrom line text = .error ⟨fault, line⟩ := by
  cases fault with
  | unterminated =>
    obtain ⟨body, rfl, hbody⟩ := h
    have hcut : cut '"' body = .error .unterminated := cutString_eq_error_iff.2 ⟨rfl, hbody⟩
    rw [scanFrom_cons, hcut]
  | invalidNumber number =>
    obtain ⟨after, rfl, hnumber, hend, hcount⟩ := h
    obtain ⟨c, more, rfl⟩ := List.exists_cons_of_ne_nil hnumber.ne_nil
    have htoken : (⟨.number, c :: more⟩ : Segment).token? line =
        .error (.invalidNumber (c :: more)) := token?_eq_error_iff.2 ⟨rfl, rfl, hcount⟩
    rw [List.cons_append, scanFrom_cons, cut_complete hnumber hend]
    simp only [htoken]
  | stray c =>
    obtain ⟨after, rfl, hc⟩ := h
    rw [scanFrom_cons, cut_of_startsNothing hc]

/-! ## Where scanning fails -/

/-- A segment that is cut and has its token is valid, and ends where the rest starts. -/
theorem valid_of_cut {line : Int} {c : Char} {rest after : List Char} {s : Segment}
    {token : Option Token} (hcut : cut c rest = .ok (s, after))
    (htoken : s.token? line = .ok token) :
    s.Valid ∧ s.EndsAt after ∧ c :: rest = s.text ++ after := by
  obtain ⟨hholds, hsource, hend⟩ := cut_sound hcut
  exact ⟨⟨hholds, (token?_isOk_iff line).1 ⟨token, htoken⟩⟩, hend, hsource⟩

/-- Segments that the source is cut into are passed, and the rest is scanned on the line on which it
begins. -/
theorem scanFrom_splits (line : Int) {segments : List Segment} {rest : List Char}
    (h : Splits segments rest) :
    ∃ tokens, scanFrom line (textOf segments ++ rest) =
      (scanFrom (line + lineBreaks (textOf segments)) rest).map (tokens ++ ·) := by
  induction segments generalizing line with
  | nil =>
    refine ⟨[], ?_⟩
    simp only [textOf_nil, lineBreaks_nil, List.nil_append, Int.natCast_zero, Int.add_zero]
    cases scanFrom line rest <;> rfl
  | cons s segments ih =>
    obtain ⟨hvalid, hend, hsplits⟩ := splits_cons.1 h
    obtain ⟨token, htoken⟩ := (token?_isOk_iff line).2 hvalid.points
    obtain ⟨c, source, hsource, hcut⟩ := cut_of_longest (longest_iff.2 ⟨hvalid.holds, hend⟩)
    obtain ⟨tokens, htokens⟩ := ih (line + lineBreaks s.text) hsplits
    have hline : line + lineBreaks s.text + lineBreaks (textOf segments) =
        line + (lineBreaks (s.text ++ textOf segments) : Nat) := by
      rw [lineBreaks_append]
      omega
    refine ⟨token.toList ++ tokens, ?_⟩
    rw [textOf_cons, List.append_assoc, hsource, scanFrom_cons, hcut]
    simp only [htoken, htokens, hline]
    cases scanFrom (line + lineBreaks (s.text ++ textOf segments)) rest with
    | error e => rfl
    | ok more => exact congrArg Except.ok (List.append_assoc _ _ _).symm

/-- The scanner fails at the first text that begins with a fault. -/
theorem scanFrom_error_iff {line : Int} {source : List Char} {e : ScanError} :
    scanFrom line source = .error e ↔
      ∃ segments rest, source = textOf segments ++ rest ∧ Splits segments rest ∧
        e.fault.Begins rest ∧ e.line = line + lineBreaks (textOf segments) := by
  constructor
  · intro h
    fun_induction scanFrom line source with
    | case1 | case5 => cases h
    | case2 line c rest fault hcut =>
      cases h
      exact ⟨[], c :: rest, rfl, splits_nil, cut_eq_error hcut, by simp⟩
    | case3 line c rest s after hcut fault htoken =>
      -- The segment is cut, but it is a number that has no value.
      cases h
      obtain ⟨hholds, hsource, hend⟩ := cut_sound hcut
      obtain ⟨hshape, rfl, hcount⟩ := token?_eq_error_iff.1 htoken
      obtain ⟨shape, text⟩ := s
      cases hshape
      exact ⟨[], c :: rest, rfl, splits_nil, ⟨after, hsource, hholds, hend, hcount⟩, by simp⟩
    | case4 line c rest s after hcut token htoken e' hrest ih =>
      cases h
      obtain ⟨segments, rest', rfl, hsplits, hbegins, hline⟩ := ih hrest
      obtain ⟨hvalid, hend, hsource⟩ := valid_of_cut hcut htoken
      refine ⟨s :: segments, rest', ?_, ⟨hvalid, hend, hsplits⟩, hbegins, ?_⟩
      · rw [hsource, textOf_cons, List.append_assoc]
      · rw [hline, textOf_cons, lineBreaks_append]
        omega
  · rintro ⟨segments, rest, rfl, hsplits, hbegins, hline⟩
    obtain ⟨tokens, hscan⟩ := scanFrom_splits line hsplits
    rw [hscan, scanFrom_of_begins hbegins, ← hline]
    rfl

/-! ## Places -/

/-- Segments with the number of characters before each, where `start` characters are before the
first. -/
def placed (start : Nat) : List Segment → List (Nat × Segment)
  | [] => []
  | s :: segments => (start, s) :: placed (start + s.text.length) segments

/-- The line of the source that the character at an offset is on. -/
def lineAt (source : List Char) (offset : Nat) : Int := 1 + lineBreaks (source.take offset)

@[simp] theorem lineAt_length (before after : List Char) :
    lineAt (before ++ after) before.length = 1 + lineBreaks before := by
  simp [lineAt]

/-- The token of a segment of a source, on the line of its first character. -/
def Segment.StandsIn (source : List Char) (place : Nat × Segment) (t : Token) : Prop :=
  place.2.text <+: source.drop place.1 ∧ place.2.Gives t ∧ t.line = lineAt source place.1

theorem Marked.stands (before : List Char) {line : Int} {segments : List Segment} {ts : List Token}
    (h : Marked line segments ts) (hline : line = 1 + lineBreaks before)
    (hs : ∀ s ∈ segments, s.shape.Holds s.text) :
    ∃ us, ts = us ++ [Token.eof (1 + lineBreaks (before ++ textOf segments))] ∧
      List.Forall₂ (Segment.StandsIn (before ++ textOf segments))
        ((placed before.length segments).filter (·.2.shape.isToken)) us := by
  -- The text already passed grows with each segment, and the line is always that of its end.
  induction h generalizing before with
  | @nil line => exact ⟨[], by simp [hline], .nil⟩
  | @cons line s token segments ts h _ ih =>
    obtain ⟨hhead, hrest⟩ := List.forall_mem_cons.1 hs
    have hnext : line + lineBreaks s.text = 1 + (lineBreaks (before ++ s.text) : Nat) := by
      rw [hline, lineBreaks_append]
      omega
    obtain ⟨us, rfl, hstands⟩ := ih (before ++ s.text) hnext hrest
    rw [List.length_append, List.append_assoc] at hstands
    rcases gives_of_token? hhead h with ⟨hshape, rfl⟩ | ⟨hshape, t, rfl, ht⟩
    · exact ⟨us, by simp, by simpa [placed, hshape] using hstands⟩
    · refine ⟨t :: us, by simp, ?_⟩
      have hplace : Segment.StandsIn (before ++ (s.text ++ textOf segments))
          (before.length, s) t := by
        refine ⟨by simp, ht, ?_⟩
        rw [line_token? h, hline, lineAt_length]
      simpa [placed, hshape] using List.Forall₂.cons hplace hstands

/-- Tokens and errors are on the lines on which their texts begin. -/
theorem scan_places (source : String) :
    (∀ ts, scan source = .ok ts → ∃ segments us, Cuts source.toList segments ∧
      ts = us ++ [Token.eof (1 + lineBreaks source.toList)] ∧
      List.Forall₂ (Segment.StandsIn source.toList)
        ((placed 0 segments).filter (·.2.shape.isToken)) us) ∧
    ∀ e, scan source = .error e → ∃ segments offset,
      Splits segments (source.toList.drop offset) ∧ textOf segments = source.toList.take offset ∧
      e.fault.Begins (source.toList.drop offset) ∧ e.line = lineAt source.toList offset := by
  constructor
  · intro ts h
    obtain ⟨segments, hcuts, hmarked⟩ := scanFrom_ok_iff.1 h
    obtain ⟨us, hts, hstands⟩ := hmarked.stands [] (by simp) hcuts.holds
    rw [List.nil_append, hcuts.textOf_eq] at hts hstands
    exact ⟨segments, us, hcuts, hts, hstands⟩
  · intro e h
    obtain ⟨segments, rest, hsource, hsplits, hbegins, hline⟩ := scanFrom_error_iff.1 h
    refine ⟨segments, (textOf segments).length, ?_, ?_, ?_, ?_⟩
    · rwa [hsource, List.drop_left]
    · rw [hsource, List.take_left]
    · rwa [hsource, List.drop_left]
    · rw [hline, hsource, lineAt_length]

/-- A text on the third line, after a string over two lines and a comment. -/
def onThirdLine (text : String) : String := "\"a\nb\" //\"\n" ++ text

theorem scan_places_broken :
    (∃ segments, Cuts (onThirdLine "x").toList segments ∧
      List.Forall₂ (Segment.StandsIn (onThirdLine "x").toList)
        ((placed 0 segments).filter (·.2.shape.isToken))
        [⟨.string, "\"a\nb\"", .str "a\nb", 1⟩, ⟨.identifier, "x", .nil, 3⟩]) ∧
    ∃ segments offset, Splits segments ((onThirdLine "1.2.3").toList.drop offset) ∧
      textOf segments = (onThirdLine "1.2.3").toList.take offset ∧
      (ScanFault.invalidNumber "1.2.3".toList).Begins ((onThirdLine "1.2.3").toList.drop offset) ∧
      3 = lineAt (onThirdLine "1.2.3").toList offset := by
  have hok : scan (onThirdLine "x") =
      .ok ([⟨.string, "\"a\nb\"", .str "a\nb", 1⟩, ⟨.identifier, "x", .nil, 3⟩] ++ [.eof 3]) := by
    with_unfolding_all rfl
  have herror : scan (onThirdLine "1.2.3") = .error ⟨.invalidNumber "1.2.3".toList, 3⟩ := by
    with_unfolding_all rfl
  refine ⟨?_, (scan_places _).2 _ herror⟩
  obtain ⟨segments, us, hcuts, hus, hstands⟩ := (scan_places _).1 _ hok
  rw [(List.append_inj' hus rfl).1]
  exact ⟨segments, hcuts, hstands⟩

end Lox
