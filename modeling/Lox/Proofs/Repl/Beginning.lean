import Lox.Proofs.Grammar.Completion
import Lox.Proofs.Grammar.Relabel
import Lox.Source

/-!
# Beginnings of programs

What the first lines of a program are by themselves: they only stop too early, or they are a program,
and then so is the rest, with other lines (`program_beginning`). Nothing else can happen, since an
error elsewhere than at the end is an error of the whole, and since no line of the rest starts with
an `else`.
-/

set_option autoImplicit false

namespace Lox

open Segment Text

theorem scanFrom_beginning {line : Int} {a b : List Char} {ts : List Token}
    (h : scanFrom line (a ++ '\n' :: b) = .ok ts) :
    (∃ e, scanFrom line a = .error e ∧ e.fault.incomplete = true) ∨
      ∃ us vs e e' line', scanFrom line a = .ok (us ++ [e]) ∧
        scanFrom line' b = .ok (vs ++ [e']) ∧ ts = us ++ vs ++ [e'] ∧ NoEof us ∧ NoEof vs ∧
        e.kind = .eof ∧ e'.kind = .eof := by
  cases ha : scanFrom line a with
  | error e =>
    cases he : e.fault.incomplete with
    | true => exact .inl ⟨e, rfl, he⟩
    | false =>
      rw [scanFrom_break_error ha he b] at h
      cases h
  | ok ts' =>
    obtain ⟨us, hus, rfl, hbreak⟩ := scanFrom_break ha
    rw [hbreak b] at h
    cases hb : scanFrom (line + lineBreaks a + 1) b with
    | error e =>
      rw [hb] at h
      cases h
    | ok ws =>
      rw [hb] at h
      cases h
      obtain ⟨vs, hvs, rfl, -⟩ := scanFrom_break hb
      exact .inr ⟨us, vs, _, _, _, rfl, hb, (List.append_assoc _ _ _).symm, hus, hvs, rfl, rfl⟩

theorem parse_beginning {us vs : List Token} {e e' : Token} {nodes : List Node} (hus : NoEof us)
    (he : e.kind = .eof) (he' : e'.kind = .eof) (helse : ∀ t ∈ vs.head?, t.kind ≠ .elseWord)
    (h : parse (us ++ vs ++ [e']) = .ok nodes) :
    (∃ err, parse (us ++ [e]) = .error err ∧ err.token.kind = .eof) ∨
      ∃ as bs, parse (us ++ [e]) = .ok as ∧ parse (vs ++ [e']) = .ok bs ∧ nodes = as ++ bs := by
  cases ha : parse (us ++ [e]) with
  | error err =>
    by_cases hk : err.token.kind = .eof
    · exact .inl ⟨err, rfl, hk⟩
    · have hfinal : ∃ err', parse (us ++ vs ++ [e']) = .error err' ∧
          (err.fault ≠ .invalidTarget → err' = err) := error_final hus he ha hk he'
      obtain ⟨err', herr, -⟩ := hfinal
      rw [herr] at h
      cases h
  | ok as =>
    have hseq : parse (us ++ vs ++ [e']) = (parse (vs ++ [e'])).map (as ++ ·) :=
      parseWithin_sequence hus he he' ha helse
    rw [hseq] at h
    cases hb : parse (vs ++ [e']) with
    | error err =>
      rw [hb] at h
      cases h
    | ok bs =>
      rw [hb] at h
      cases h
      exact .inr ⟨as, bs, rfl, rfl, rfl⟩

namespace Source

variable {text : String} {file : Option String}

theorem program_of_scan_error {e : ScanError} (h : scan text = .error e) :
    (⟨text, file⟩ : Source).program = .error (.scan e file) := by
  simp only [program, Source.tokens, h]

theorem program_of_parse_error {tokens : List Token} {e : ParseError}
    (hs : scan text = .ok tokens) (hp : parse tokens = .error e) :
    (⟨text, file⟩ : Source).program = .error (.parse e file) := by
  simp only [program, Source.tokens, hs, hp]

theorem program_ok_iff {nodes : List Node} :
    (⟨text, file⟩ : Source).program = .ok nodes ↔
      ∃ tokens, scan text = .ok tokens ∧ parse tokens = .ok nodes := by
  cases hs : scan text with
  | error e => simp [program_of_scan_error hs]
  | ok tokens =>
    cases hp : parse tokens with
    | error e => simp [program_of_parse_error hs hp, hp]
    | ok nodes => simp [program, Source.tokens, hs, hp]

theorem program_empty : (⟨"", file⟩ : Source).program = .ok [] :=
  program_ok_iff.2 ⟨[Token.eof 1], by rw [scan, String.toList_empty, scanFrom], rfl⟩

end Source

/-- The first lines of a program only stop too early, or they and the rest are programs. -/
theorem program_beginning {front back : List String} {nodes : List Node} {file file' : Option String}
    (hfront : front ≠ []) (hlines : ∀ l ∈ back, '\n' ∉ l.toList)
    (helse : ∀ l ∈ back, Kind.ofWord (firstWord l.toList) ≠ .elseWord)
    (h : (⟨"\n".intercalate (front ++ back), file⟩ : Source).program = .ok nodes) :
    (∃ e, (⟨"\n".intercalate front, file'⟩ : Source).program = .error e ∧ e.incomplete = true) ∨
      ∃ as bs f, (⟨"\n".intercalate front, file'⟩ : Source).program = .ok as ∧
        (⟨"\n".intercalate back, file'⟩ : Source).program = .ok (bs.map (Node.relabel f)) ∧
        nodes = as ++ bs := by
  obtain ⟨tokens, hscan, hparse⟩ := Source.program_ok_iff.1 h
  by_cases hback : back = []
  · subst hback
    rw [List.append_nil] at hscan
    refine .inr ⟨nodes, [], id, Source.program_ok_iff.2 ⟨tokens, hscan, hparse⟩, ?_, by simp⟩
    rw [String.intercalate_nil]
    exact Source.program_empty
  have htext : ("\n".intercalate (front ++ back)).toList =
      ("\n".intercalate front).toList ++ '\n' :: ("\n".intercalate back).toList := by
    rw [String.intercalate_append_of_ne_nil hfront hback]
    simp
  rw [scan, htext] at hscan
  rcases scanFrom_beginning hscan with ⟨e, hfail, he⟩ |
    ⟨us, vs, e, e', line, hus, hvs, rfl, hnoeof, hnoeof', he, he'⟩
  · exact .inl ⟨_, Source.program_of_scan_error hfail, he⟩
  have hhead : ∀ t ∈ vs.head?, t.kind ≠ .elseWord := by
    intro t ht hk
    obtain ⟨rest, rfl⟩ := List.head?_eq_some_iff.1 ht
    rw [String.toList_intercalate] at hvs
    have hlines' : ∀ l ∈ back.map String.toList, '\n' ∉ l := by simpa using hlines
    obtain ⟨l, hl, hword⟩ := exists_firstWord hlines' hvs (by rw [hk]; decide)
    obtain ⟨line, hline, rfl⟩ := List.mem_map.1 hl
    exact helse line hline (hword.trans hk)
  rcases parse_beginning hnoeof he he' hhead hparse with ⟨err, herr, hk⟩ | ⟨as, bs, has, hbs, rfl⟩
  · refine .inl ⟨.parse err file', ?_, by simp [Error.incomplete, hk]⟩
    exact Source.program_of_parse_error hus herr
  · refine .inr ⟨as, bs, (· + (1 - line)), Source.program_ok_iff.2 ⟨_, hus, has⟩, ?_, rfl⟩
    have hshift := scanFrom_shift (1 - line) hvs
    rw [show line + (1 - line) = 1 by omega, List.map_append] at hshift
    have he'' : (e'.relabel (· + (1 - line))).kind = .eof := he'
    exact Source.program_ok_iff.2 ⟨_, hshift, parseWithin_relabel hnoeof' he' he'' _ hbs⟩

end Lox
