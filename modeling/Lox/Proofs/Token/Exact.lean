import Mathlib.Data.List.Forall2
import Lox.Proofs.Token.Longest

/-!
# The tokens of segments

`Marked`: the tokens of a list of segments, line by line. `scanFrom_ok_iff`: a source is scanned if it
is cut up to its end and every segment has its token. `Segment.Gives` says what the token of a segment
is, whatever its line.

Main statement (`scan_exact`): the scanner succeeds if the whole source is cut up by longest match and
no number has two points; its tokens are those of the segments, one by one, and then the end of source.
-/

set_option autoImplicit false

namespace Lox

open Segment Text

/-- Segments that start on line `line` have the tokens `ts`, the end of source among them. -/
inductive Marked : Int → List Segment → List Token → Prop
  | nil {line : Int} : Marked line [] [Token.eof line]
  | cons {line : Int} {s : Segment} {token : Option Token} {segments : List Segment}
      {ts : List Token} (h : s.token? line = .ok token)
      (t : Marked (line + lineBreaks s.text) segments ts) :
      Marked line (s :: segments) (token.toList ++ ts)

/-- A source is scanned if it is cut up to its end and every segment has its token. -/
theorem scanFrom_ok_iff {line : Int} {source : List Char} {ts : List Token} :
    scanFrom line source = .ok ts ↔ ∃ segments, Cuts source segments ∧ Marked line segments ts := by
  constructor
  · intro h
    fun_induction scanFrom line source generalizing ts with
    | case1 line =>
      cases h
      exact ⟨[], .nil, .nil⟩
    | case2 | case3 | case4 => cases h
    | case5 line c rest s after hcut token htoken tokens hrest ih =>
      cases h
      obtain ⟨segments, hcuts, hmarked⟩ := ih hrest
      exact ⟨s :: segments, .of_cut hcut hcuts, .cons htoken hmarked⟩
  · rintro ⟨segments, hcuts, hmarked⟩
    induction hcuts generalizing line ts with
    | nil =>
      cases hmarked
      rw [scanFrom]
    | @cons s after segments hs _ ih =>
      cases hmarked with
      | @cons _ _ token _ ts htoken hmarked =>
        obtain ⟨c, rest, hsource, hcut⟩ := cut_of_longest hs
        simp only [hsource, scanFrom_cons, hcut, htoken, ih hmarked]
        rfl

/-- Whether segments of this shape are tokens. -/
def Shape.isToken : Shape → Bool
  | .string | .number | .word | .mark => true
  | .comment | .newline | .blank => false

/-- The digits write the number `x`, with a point among them or without. -/
def Number.Writes (text : List Char) (x : Float) : Prop :=
  ('.' ∉ text ∧ x = ofDecimal (digitsValue text) 0) ∨
    ∃ whole fraction, text = whole ++ '.' :: fraction ∧ '.' ∉ whole ∧ '.' ∉ fraction ∧
      x = ofDecimal (digitsValue (whole ++ fraction)) (-(fraction.length : Int))

/-- The token `t` is that of the segment `s`, whatever its line. -/
def Segment.Gives (s : Segment) (t : Token) : Prop :=
  t.lexeme = String.ofList s.text ∧
    match s.shape with
    | .string => t.kind = .string ∧
        ∃ body, s.text = '"' :: (body ++ ['"']) ∧ t.literal = .str (String.ofList body)
    | .number => t.kind = .number ∧ ∃ x, Number.Writes s.text x ∧ t.literal = .num x
    | .word => t.literal = .nil ∧
        ((t.kind ∈ Kind.reserved ∧ t.kind.key = Kind.upperCase s.text) ∨
          t.kind = .identifier ∧ ∀ k ∈ Kind.reserved, k.key ≠ Kind.upperCase s.text)
    | .mark => t.literal = .nil ∧ t.kind ∈ Kind.marks ∧ t.kind.spelling.toList = s.text
    | .comment | .newline | .blank => False

theorem Number.ofLiteral?_eq_some {text : List Char} {x : Float} (h : ofLiteral? text = some x) :
    Writes text x := by
  unfold ofLiteral? at h
  split at h
  · rename_i hcount
    cases h
    by_cases hpoint : '.' ∈ text
    · right
      obtain ⟨whole, fraction, rfl, hwhole⟩ := List.eq_append_cons_of_mem hpoint
      have hfraction : '.' ∉ fraction := by
        rw [List.count_append, List.count_cons_self] at hcount
        exact List.count_eq_zero.1 (by omega)
      have hstop : ('.' != '.') = false := rfl
      have hpart : ∀ d ∈ whole, (d != '.') = true := fun d hd => by
        rw [bne_iff_ne]
        rintro rfl
        exact hwhole hd
      refine ⟨whole, fraction, rfl, hwhole, hfraction, ?_⟩
      rw [takeWhile_append_stop (p := (· != '.')) hstop,
        dropWhile_append_stop (p := (· != '.')) hstop, List.takeWhile_eq_self_iff.2 hpart,
        List.dropWhile_eq_nil_iff.2 hpart]
      rfl
    · left
      have hpart : ∀ d ∈ text, (d != '.') = true := fun d hd => by
        rw [bne_iff_ne]
        rintro rfl
        exact hpoint hd
      refine ⟨hpoint, ?_⟩
      rw [List.takeWhile_eq_self_iff.2 hpart, List.dropWhile_eq_nil_iff.2 hpart]
      simp
  · cases h

/-- The token of a segment is as its shape says; the other segments have none. -/
theorem gives_of_token? {s : Segment} {line : Int} {token : Option Token}
    (hs : s.shape.Holds s.text) (h : s.token? line = .ok token) :
    (s.shape.isToken = false ∧ token = none) ∨
      s.shape.isToken = true ∧ ∃ t, token = some t ∧ s.Gives t := by
  obtain ⟨shape, text⟩ := s
  cases shape with
  | comment | newline | blank =>
    cases h
    exact .inl ⟨rfl, rfl⟩
  | string =>
    cases h
    obtain ⟨body, rfl, -⟩ := hs
    refine .inr ⟨rfl, _, rfl, rfl, rfl, body, rfl, ?_⟩
    simp
  | number =>
    simp only [token?] at h
    split at h <;> cases h
    rename_i x hx
    exact .inr ⟨rfl, _, rfl, rfl, rfl, x, Number.ofLiteral?_eq_some hx, rfl⟩
  | word =>
    cases h
    refine .inr ⟨rfl, _, rfl, rfl, rfl, ?_⟩
    show (Kind.ofWord text ∈ Kind.reserved ∧ (Kind.ofWord text).key = _) ∨
      Kind.ofWord text = .identifier ∧ _
    unfold Kind.ofWord
    cases hword : Kind.reserved.find? (·.key == Kind.upperCase text) with
    | none => exact .inr ⟨rfl, by simpa using hword⟩
    | some k =>
      exact .inl ⟨List.mem_of_find?_eq_some hword, by simpa using List.find?_some hword⟩
  | mark =>
    obtain ⟨k, hk⟩ := Option.isSome_iff_exists.1 (isSome_ofMark?_iff.2 hs)
    simp only [token?, hk, Option.map_some] at h
    cases h
    have hspell : k.spelling.toList = text := by simpa using List.find?_some hk
    exact .inr ⟨rfl, _, rfl, rfl, rfl, Kind.mem_marks_of_ofMark? hk, hspell⟩

theorem token?_isOk_iff (line : Int) {s : Segment} :
    (∃ token, s.token? line = .ok token) ↔ (s.shape = .number → s.text.count '.' ≤ 1) := by
  obtain ⟨shape, text⟩ := s
  cases shape <;> simp [token?]
  by_cases hcount : text.count '.' ≤ 1 <;> simp [Number.ofLiteral?, hcount]

namespace Marked

variable {line : Int} {segments : List Segment} {ts : List Token}

/-- Segments have tokens if no number among them has two points. -/
theorem exists_iff (line : Int) {segments : List Segment} : (∃ ts, Marked line segments ts) ↔
    ∀ s ∈ segments, s.shape = .number → s.text.count '.' ≤ 1 := by
  induction segments generalizing line with
  | nil => simpa using ⟨_, nil⟩
  | cons s segments ih =>
    rw [List.forall_mem_cons, ← token?_isOk_iff line, ← ih]
    constructor
    · rintro ⟨_, _ | ⟨h, t⟩⟩
      exact ⟨⟨_, h⟩, _, t⟩
    · rintro ⟨⟨token, h⟩, ts, t⟩
      exact ⟨_, .cons h t⟩

/-- The tokens are those of the segments one by one, and then the end of source. -/
theorem gives (h : Marked line segments ts) (hs : ∀ s ∈ segments, s.shape.Holds s.text) :
    ∃ us line', ts = us ++ [Token.eof line'] ∧ NoEof us ∧
      List.Forall₂ Segment.Gives (segments.filter (·.shape.isToken)) us := by
  induction h with
  | @nil line => exact ⟨[], line, rfl, by simp [NoEof], .nil⟩
  | @cons line s token segments ts h _ ih =>
    obtain ⟨hhead, hrest⟩ := List.forall_mem_cons.1 hs
    obtain ⟨us, line', rfl, heof, hgives⟩ := ih hrest
    rcases gives_of_token? hhead h with ⟨hshape, rfl⟩ | ⟨hshape, t, rfl, ht⟩
    · exact ⟨us, line', rfl, heof, by simpa [hshape] using hgives⟩
    · refine ⟨t :: us, line', rfl, List.forall_mem_cons.2 ⟨kind_token?_ne_eof h, heof⟩, ?_⟩
      simpa [hshape] using List.Forall₂.cons ht hgives

end Marked

/-- The scanner cuts off the longest segment each time and passes over nothing. -/
theorem scan_exact (source : String) :
    ((∃ ts, scan source = .ok ts) ↔
      ∃ segments, Cuts source.toList segments ∧
        ∀ s ∈ segments, s.shape = .number → s.text.count '.' ≤ 1) ∧
    ∀ segments ts, Cuts source.toList segments → scan source = .ok ts →
      ∃ us line, ts = us ++ [Token.eof line] ∧ NoEof us ∧
        List.Forall₂ Segment.Gives (segments.filter (·.shape.isToken)) us := by
  refine ⟨⟨?_, ?_⟩, ?_⟩
  · rintro ⟨ts, h⟩
    obtain ⟨segments, hcuts, hmarked⟩ := scanFrom_ok_iff.1 h
    exact ⟨segments, hcuts, (Marked.exists_iff 1).1 ⟨ts, hmarked⟩⟩
  · rintro ⟨segments, hcuts, hnumbers⟩
    obtain ⟨ts, hmarked⟩ := (Marked.exists_iff 1).2 hnumbers
    exact ⟨ts, scanFrom_ok_iff.2 ⟨segments, hcuts, hmarked⟩⟩
  · intro segments ts hcuts h
    obtain ⟨segments', hcuts', hmarked⟩ := scanFrom_ok_iff.1 h
    obtain rfl := hcuts.unique hcuts'
    exact hmarked.gives hcuts.holds

/-- Marks and a comment that share a start, a string over two lines, a reserved word in capitals, and
a number before a word. -/
def mixedSource : String := "X1!==/ //a\"\n\"b//\nc\">=AND 1.5e."

def mixedSegments : List Segment :=
  [⟨.word, "X1".toList⟩, ⟨.mark, "!=".toList⟩, ⟨.mark, "=".toList⟩, ⟨.mark, "/".toList⟩,
   ⟨.blank, " ".toList⟩, ⟨.comment, "//a\"".toList⟩, ⟨.newline, "\n".toList⟩,
   ⟨.string, "\"b//\nc\"".toList⟩, ⟨.mark, ">=".toList⟩, ⟨.word, "AND".toList⟩,
   ⟨.blank, " ".toList⟩, ⟨.number, "1.5".toList⟩, ⟨.word, "e".toList⟩, ⟨.mark, ".".toList⟩]

def mixedTokens : List Token :=
  [⟨.identifier, "X1", .nil, 1⟩, ⟨.bangEqual, "!=", .nil, 1⟩, ⟨.equal, "=", .nil, 1⟩,
   ⟨.slash, "/", .nil, 1⟩, ⟨.string, "\"b//\nc\"", .str "b//\nc", 2⟩,
   ⟨.greaterEqual, ">=", .nil, 3⟩, ⟨.andWord, "AND", .nil, 3⟩,
   ⟨.number, "1.5", .num (Number.ofDecimal 15 (-1)), 3⟩, ⟨.identifier, "e", .nil, 3⟩,
   ⟨.dot, ".", .nil, 3⟩]

theorem scan_exact_mixed :
    Cuts mixedSource.toList mixedSegments ∧
      (∀ s ∈ mixedSegments, s.shape = .number → s.text.count '.' ≤ 1) ∧
      scan mixedSource = .ok (mixedTokens ++ [Token.eof 3]) ∧
      ∃ us line, mixedTokens ++ [Token.eof 3] = us ++ [Token.eof line] ∧ NoEof us ∧
        List.Forall₂ Segment.Gives (mixedSegments.filter (·.shape.isToken)) us := by
  have hcuts : Cuts mixedSource.toList mixedSegments := by
    repeat refine Cuts.of_cut rfl ?_
    exact .nil
  have hscan : scan mixedSource = .ok (mixedTokens ++ [Token.eof 3]) := by
    with_unfolding_all rfl
  exact ⟨hcuts, by decide, hscan, (scan_exact mixedSource).2 _ _ hcuts hscan⟩

end Lox
