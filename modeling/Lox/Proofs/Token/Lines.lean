import Lox.Proofs.Token.Breaks

/-!
# Lines of tokens

Every token of a source but its end is the token of a segment of it (`exists_segment`). So it stands
on a line of the source, as an error of the scanner does (`line_scan`, `line_scan_error`), and a mark
is spelled as its kind (`lexeme_scan`).
-/

set_option autoImplicit false

namespace Lox

open Segment Text

/-- The token of a segment has the line on which it starts. -/
theorem line_token? {line : Int} {s : Segment} {t : Token} (h : s.token? line = .ok (some t)) :
    t.line = line := by
  obtain ⟨shape, text⟩ := s
  cases shape with
  | string | word =>
    cases h
    rfl
  | number =>
    simp only [token?] at h
    split at h <;> cases h
    rfl
  | mark =>
    obtain ⟨k, -, rfl⟩ := Option.map_eq_some_iff.1 (Except.ok.inj h)
    rfl
  | comment | newline | blank => cases h

/-- Only marks have the kind of a mark, and they are written as it is spelled. -/
theorem lexeme_token? {line : Int} {s : Segment} {t : Token} (h : s.token? line = .ok (some t))
    (hk : t.kind ∈ Kind.marks) : t.lexeme = t.kind.spelling := by
  obtain ⟨shape, text⟩ := s
  cases shape with
  | string =>
    cases h
    simp [Kind.marks] at hk
  | number =>
    simp only [token?] at h
    split at h <;> cases h
    simp [Kind.marks] at hk
  | word =>
    cases h
    have hmem := Kind.ofWord_mem text
    have hdisjoint : ∀ k ∈ Kind.identifier :: Kind.reserved, k ∉ Kind.marks := by decide
    exact absurd hk (hdisjoint _ hmem)
  | mark =>
    obtain ⟨k, hmark, rfl⟩ := Option.map_eq_some_iff.1 (Except.ok.inj h)
    have hspelling : k.spelling.toList = text := by simpa using List.find?_some hmark
    show String.ofList text = k.spelling
    rw [← hspelling, String.ofList_toList]
  | comment | newline | blank => cases h

/-- A token of a source is its end, or that of a segment on one of its lines. -/
theorem exists_segment {line : Int} {source : List Char} {ts : List Token} {t : Token}
    (h : scanFrom line source = .ok ts) (ht : t ∈ ts) :
    t = .eof (line + lineBreaks source) ∨ ∃ (s : Segment) (start : Int),
      s.token? start = .ok (some t) ∧ line ≤ start ∧ start ≤ line + lineBreaks source := by
  fun_induction scanFrom line source generalizing ts with
  | case1 line =>
    cases h
    rw [List.mem_singleton.1 ht]
    simp
  | case2 | case3 | case4 => cases h
  | case5 line c rest segment after hcut token htoken tokens hrest ih =>
    cases h
    have hbreaks := lineBreaks_cut hcut
    rcases List.mem_append.1 ht with ht | ht
    · rw [Option.mem_toList.1 ht] at htoken
      exact .inr ⟨segment, line, htoken, by omega, by omega⟩
    · rcases ih hrest ht with rfl | ⟨s, start, htoken', hle, hle'⟩
      · left
        congr 1
        omega
      · exact .inr ⟨s, start, htoken', by omega, by omega⟩

variable {source : String} {ts : List Token} {t : Token}

/-- Tokens stand on lines of the source. -/
theorem line_scan (h : scan source = .ok ts) (ht : t ∈ ts) :
    1 ≤ t.line ∧ t.line ≤ 1 + lineBreaks source.toList := by
  rcases exists_segment h ht with rfl | ⟨s, start, htoken, hle, hle'⟩
  · simp only [Token.eof]
    omega
  · rw [line_token? htoken]
    exact ⟨hle, hle'⟩

/-- Marks are written as their kind is spelled. -/
theorem lexeme_scan (h : scan source = .ok ts) (ht : t ∈ ts) (hk : t.kind ∈ Kind.marks) :
    t.lexeme = t.kind.spelling := by
  rcases exists_segment h ht with rfl | ⟨s, start, htoken, -⟩
  · simp [Token.eof, Kind.marks] at hk
  · exact lexeme_token? htoken hk

/-- What cannot be scanned starts on a line of the source. -/
theorem line_scan_error {line : Int} {source : List Char} {e : ScanError}
    (h : scanFrom line source = .error e) :
    line ≤ e.line ∧ e.line ≤ line + lineBreaks source := by
  fun_induction scanFrom line source with
  | case1 | case5 => cases h
  | case2 | case3 =>
    cases h
    dsimp only
    omega
  | case4 line c rest segment after hcut token htoken error hrest ih =>
    cases h
    have hbreaks := lineBreaks_cut hcut
    have hrest := ih hrest
    omega

end Lox
