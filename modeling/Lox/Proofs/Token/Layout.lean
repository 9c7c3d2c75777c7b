import Lox.Proofs.Token.Exact

/-!
# Layout

The same lexemes may be written with other blanks, line feeds and comments between them. `Layout`
tells the texts that do so: what stands between two lexemes starts with a blank or a line feed, and
comments in it end in a line feed. A token ends at such a character (`growsBy_delimiter`), so the
text is cut into the same tokens (`Cuts.of_layout`), and nothing but their lines can change
(`Marked.unlined`).

Main statement (`scan_layout`).
-/

set_option autoImplicit false

namespace Lox

open Segment Text

/-! ## Texts with the same lexemes -/

def isWhite (c : Char) : Prop := c = ' ' ∨ c = '\t' ∨ c = '\r' ∨ c = '\n'

/-- White characters, with comments among them that end in a line feed. -/
inductive Filler : List Char → Prop
  | nil : Filler []
  | white {c : Char} {rest : List Char} (hc : isWhite c) (h : Filler rest) : Filler (c :: rest)
  | comment {body rest : List Char} (hbody : '\n' ∉ body) (h : Filler rest) :
      Filler ('/' :: '/' :: (body ++ '\n' :: rest))

/-- What may stand between two lexemes: not nothing, and no comment without a white character before
it. -/
def Gap (text : List Char) : Prop := ∃ c rest, text = c :: rest ∧ isWhite c ∧ Filler rest

/-- What may stand before the first lexeme and after the last one. -/
def Margin (text : List Char) : Prop := text = [] ∨ Gap text

/-- The text is made of the lexemes with gaps between them. -/
inductive Spaced : List (List Char) → List Char → Prop
  | nil : Spaced [] []
  | last {lexeme : List Char} : Spaced [lexeme] lexeme
  | cons {lexeme next gap text : List Char} {more : List (List Char)} (hgap : Gap gap)
      (h : Spaced (next :: more) text) : Spaced (lexeme :: next :: more) (lexeme ++ gap ++ text)

/-- The text is made of the lexemes with gaps between them and margins around them. -/
def Layout (lexemes : List (List Char)) (text : List Char) : Prop :=
  ∃ before body after, text = before ++ body ++ after ∧ Margin before ∧ Spaced lexemes body ∧
    Margin after

/-! ## Segments of such texts -/

/-- Characters that end any token. -/
def delimiters : List Char := [' ', '\t', '\r', '\n', ')', ';']

theorem mem_delimiters_of_isWhite {c : Char} (h : isWhite c) : c ∈ delimiters := by
  rcases h with rfl | rfl | rfl | rfl <;> decide

/-- A mark of two characters ends in an equals sign. -/
theorem growsBy_mark {text : List Char} {d : Char} (h : Shape.mark.Holds text) (hequal : d ≠ '=')
    (hslash : d ≠ '/') : Segment.growsBy ⟨.mark, text⟩ d = false := by
  have hmark : (Kind.ofMark? (text ++ [d])).isSome = false := by
    have hpair : ∀ k ∈ Kind.marks,
        k.spelling.toList.length = 1 ∨ k.spelling.toList.getLast? = some '=' := by decide
    refine Bool.eq_false_iff.2 fun hsome => ?_
    obtain ⟨k, hk, hspell⟩ := isSome_ofMark?_iff.1 hsome
    have hend := hpair k hk
    rw [hspell] at hend
    rcases hend with hone | hlast
    · exact h.ne_nil (List.eq_nil_of_length_eq_zero (by simpa using hone))
    · exact hequal (by simpa using hlast)
  show ((Kind.ofMark? (text ++ [d])).isSome || text == ['/'] && d == '/') = false
  rw [hmark, beq_false_of_ne hslash, Bool.and_false, Bool.or_false]

theorem growsBy_delimiter {s : Segment} {d : Char} (hs : s.shape.Holds s.text)
    (htoken : s.shape.isToken = true) (hd : d ∈ delimiters) : s.growsBy d = false := by
  obtain ⟨shape, text⟩ := s
  cases shape with
  | string => rfl
  | number =>
    have hnone : delimiters.any isNumberPart = false := by decide
    exact Bool.eq_false_iff.2 (List.any_eq_false.1 hnone d hd)
  | word =>
    have hnone : delimiters.any isWordPart = false := by decide
    exact Bool.eq_false_iff.2 (List.any_eq_false.1 hnone d hd)
  | mark =>
    apply growsBy_mark hs
    · rintro rfl
      exact absurd hd (by decide)
    · rintro rfl
      exact absurd hd (by decide)
  | comment | newline | blank => cases htoken

namespace Cuts

variable {text : List Char} {segments : List Segment}

theorem piece {shape : Shape} {found : List Char} (hfound : shape.Holds found)
    (hend : Segment.EndsAt ⟨shape, found⟩ text) (h : Cuts text segments) :
    Cuts (found ++ text) (⟨shape, found⟩ :: segments) :=
  .cons (s := ⟨shape, found⟩) (longest_iff.2 ⟨hfound, hend⟩) h

/-- The segments that are tokens are the same after one more blank. -/
theorem space {c : Char} (hc : isSpace c = true) (h : Cuts text segments) :
    ∃ segments', Cuts (c :: text) segments' ∧
      segments'.filter (·.shape.isToken) = segments.filter (·.shape.isToken) := by
  have hblank : Shape.blank.Holds [c] := ⟨by simp, by simpa using isSpace_iff.1 hc⟩
  cases h with
  | nil => exact ⟨_, piece hblank (endsAt_nil _) .nil, rfl⟩
  | @cons s after segments hs ht =>
    obtain ⟨hholds, hend⟩ := longest_iff.1 hs
    by_cases hshape : s.shape = .blank
    · -- The blank joins the blanks that follow it.
      obtain ⟨shape, text⟩ := s
      obtain rfl : shape = .blank := hshape
      have hjoined : Shape.blank.Holds (c :: text) :=
        ⟨by simp, List.forall_mem_cons.2 ⟨isSpace_iff.1 hc, hholds.2⟩⟩
      exact ⟨_, piece hjoined hend ht, rfl⟩
    · obtain ⟨d, more, hd⟩ := List.exists_cons_of_ne_nil hholds.ne_nil
      have hstop : isSpace d = false := by
        refine Bool.eq_false_iff.2 fun hspace => hshape ?_
        have hfamily := (hd ▸ hholds).family_eq
        rcases isSpace_iff.1 hspace with rfl | rfl | rfl <;> cases hs : s.shape <;>
          rw [hs] at hfamily <;> first | rfl | exact absurd hfamily (by decide)
      refine ⟨_, piece hblank ?_ (.cons hs ht), rfl⟩
      rw [hd]
      exact endsAt_cons.2 hstop

theorem newline (h : Cuts text segments) : Cuts ('\n' :: text) (⟨.newline, ['\n']⟩ :: segments) :=
  piece (show Shape.newline.Holds ['\n'] from rfl) (fun _ _ => rfl) h

theorem comment {body : List Char} (hbody : '\n' ∉ body) (h : Cuts ('\n' :: text) segments) :
    Cuts ('/' :: '/' :: (body ++ '\n' :: text)) (⟨.comment, '/' :: '/' :: body⟩ :: segments) :=
  piece (show Shape.comment.Holds ('/' :: '/' :: body) from ⟨body, rfl, hbody⟩)
    (endsAt_cons.2 rfl) h

theorem token {u : Segment} (hu : u.shape.Holds u.text) (htoken : u.shape.isToken = true)
    (hend : ∀ d ∈ text.head?, d ∈ delimiters) (h : Cuts text segments) :
    Cuts (u.text ++ text) (u :: segments) :=
  .cons (longest_iff.2 ⟨hu, fun d hd => growsBy_delimiter hu htoken (hend d hd)⟩) h

/-- White characters and comments add no tokens. -/
theorem filler {w : List Char} (hw : Filler w) (h : Cuts text segments) :
    ∃ segments', Cuts (w ++ text) segments' ∧
      segments'.filter (·.shape.isToken) = segments.filter (·.shape.isToken) := by
  induction hw with
  | nil => exact ⟨segments, h, rfl⟩
  | white hc _ ih =>
    obtain ⟨segments', hcuts, hsame⟩ := ih
    rcases hc with rfl | rfl | rfl | rfl
    · obtain ⟨more, hmore, hmore'⟩ := hcuts.space (c := ' ') rfl
      exact ⟨more, hmore, hmore'.trans hsame⟩
    · obtain ⟨more, hmore, hmore'⟩ := hcuts.space (c := '\t') rfl
      exact ⟨more, hmore, hmore'.trans hsame⟩
    · obtain ⟨more, hmore, hmore'⟩ := hcuts.space (c := '\r') rfl
      exact ⟨more, hmore, hmore'.trans hsame⟩
    · exact ⟨_, hcuts.newline, hsame⟩
  | @comment body rest hbody _ ih =>
    obtain ⟨segments', hcuts, hsame⟩ := ih
    refine ⟨⟨.comment, '/' :: '/' :: body⟩ :: ⟨.newline, ['\n']⟩ :: segments', ?_, hsame⟩
    simpa using hcuts.newline.comment hbody

end Cuts

theorem Margin.filler {text : List Char} (h : Margin text) : Filler text := by
  rcases h with rfl | ⟨c, rest, rfl, hc, h⟩
  · exact .nil
  · exact .white hc h

theorem Margin.head {text : List Char} (h : Margin text) : ∀ d ∈ text.head?, d ∈ delimiters := by
  rcases h with rfl | ⟨c, rest, rfl, hc, -⟩
  · simp
  · simpa using mem_delimiters_of_isWhite hc

theorem Cuts.of_spaced {us : List Segment} {body after : List Char}
    (hholds : ∀ u ∈ us, u.shape.Holds u.text) (htoken : ∀ u ∈ us, u.shape.isToken = true)
    (h : Spaced (us.map (·.text)) body) (hafter : Margin after) :
    ∃ segments, Cuts (body ++ after) segments ∧ segments.filter (·.shape.isToken) = us := by
  obtain ⟨rest, hrest, hnone⟩ := Cuts.filler hafter.filler .nil
  rw [List.append_nil] at hrest
  induction us generalizing body with
  | nil =>
    cases h
    exact ⟨rest, hrest, hnone⟩
  | cons u us ih =>
    obtain ⟨hu, hus⟩ := List.forall_mem_cons.1 hholds
    obtain ⟨hutoken, hustoken⟩ := List.forall_mem_cons.1 htoken
    cases us with
    | nil =>
      cases h
      exact ⟨u :: rest, hrest.token hu hutoken hafter.head, by simp [hutoken, hnone]⟩
    | cons v vs =>
      cases h with
      | @cons _ _ gap body _ hgap h =>
        obtain ⟨segments, hcuts, hsame⟩ := ih hus hustoken h
        obtain ⟨segments', hcuts', hsame'⟩ := hcuts.filler (Margin.filler (.inr hgap))
        have hhead : ∀ d ∈ (gap ++ (body ++ after)).head?, d ∈ delimiters := by
          obtain ⟨c, more, rfl, hc, -⟩ := hgap
          simpa using mem_delimiters_of_isWhite hc
        have htokens := hcuts'.token hu hutoken hhead
        refine ⟨u :: segments', by simpa using htokens, ?_⟩
        simp [hutoken, hsame', hsame]

/-- Lexemes of tokens with gaps between them and margins around them are cut into these tokens. -/
theorem Cuts.of_layout {us : List Segment} {text : List Char}
    (hholds : ∀ u ∈ us, u.shape.Holds u.text) (htoken : ∀ u ∈ us, u.shape.isToken = true)
    (h : Layout (us.map (·.text)) text) :
    ∃ segments, Cuts text segments ∧ segments.filter (·.shape.isToken) = us := by
  obtain ⟨before, body, after, rfl, hbefore, hbody, hafter⟩ := h
  obtain ⟨segments, hcuts, hsame⟩ := Cuts.of_spaced hholds htoken hbody hafter
  obtain ⟨segments', hcuts', hsame'⟩ := hcuts.filler hbefore.filler
  rw [← List.append_assoc] at hcuts'
  exact ⟨segments', hcuts', hsame'.trans hsame⟩

/-! ## Tokens of such texts -/

/-- The token without its line. -/
def Token.unlined (t : Token) : Token := t.relabel fun _ => 0

theorem Segment.token?_relabel (f : Int → Int) (line : Int) (s : Segment) :
    s.token? (f line) = (s.token? line).map (Option.map (Token.relabel f)) := by
  unfold token?
  cases s.shape with
  | number => cases Number.ofLiteral? s.text <;> rfl
  | mark => cases Kind.ofMark? s.text <;> rfl
  | string | word | comment | newline | blank => rfl

/-- The token of a segment, without its line. -/
def Segment.plain? (s : Segment) : Option Token := (s.token? 0).toOption.join

/-- But for their lines, the tokens depend only on the segments that are tokens. -/
theorem Marked.unlined {line : Int} {segments : List Segment} {ts : List Token}
    (h : Marked line segments ts) :
    ts.map Token.unlined =
      (segments.filter (·.shape.isToken)).filterMap Segment.plain? ++ [Token.eof 0] := by
  induction h with
  | nil => rfl
  | @cons line s token segments ts h _ ih =>
    have hplain : s.plain? = token.map Token.unlined := by
      unfold Segment.plain?
      rw [s.token?_relabel (fun _ => 0) line, h]
      rfl
    rw [List.map_append, ih]
    cases hshape : s.shape.isToken with
    | true =>
      cases token <;> simp [hshape, hplain]
    | false =>
      obtain rfl : token = none := by
        obtain ⟨shape, text⟩ := s
        cases shape <;> cases hshape <;> cases h <;> rfl
      simp [hshape]

theorem lexemes_of_gives {us : List Segment} {ts : List Token}
    (h : List.Forall₂ Segment.Gives us ts) : ts.map (·.lexeme.toList) = us.map (·.text) := by
  induction h with
  | nil => rfl
  | cons hgives _ ih => rw [List.map_cons, List.map_cons, hgives.1, String.toList_ofList, ih]

/-- A text with the lexemes of a source, in any layout, has the tokens of the source but for their
lines. -/
theorem scan_layout {source text : String} {ts : List Token} (hscan : scan source = .ok ts)
    (hlayout : Layout (ts.dropLast.map (·.lexeme.toList)) text.toList) :
    ∃ ts', scan text = .ok ts' ∧ ts'.map Token.unlined = ts.map Token.unlined := by
  obtain ⟨segments, hcuts, hmarked⟩ := scanFrom_ok_iff.1 hscan
  obtain ⟨us, line, rfl, -, hgives⟩ := hmarked.gives hcuts.holds
  rw [List.dropLast_concat, lexemes_of_gives hgives] at hlayout
  have hholds : ∀ u ∈ segments.filter (·.shape.isToken), u.shape.Holds u.text :=
    fun u hu => hcuts.holds u (List.mem_of_mem_filter hu)
  have htoken : ∀ u ∈ segments.filter (·.shape.isToken), u.shape.isToken = true :=
    fun u hu => (List.mem_filter.1 hu).2
  obtain ⟨segments', hcuts', hsame⟩ := Cuts.of_layout hholds htoken hlayout
  have hnumbers : ∀ s ∈ segments', s.shape = .number → s.text.count '.' ≤ 1 := by
    intro s hs hshape
    have hmem : s ∈ segments.filter (·.shape.isToken) := by
      rw [← hsame]
      exact List.mem_filter.2 ⟨hs, by rw [hshape]; rfl⟩
    exact (Marked.exists_iff 1).1 ⟨_, hmarked⟩ s (List.mem_of_mem_filter hmem) hshape
  obtain ⟨ts', hmarked'⟩ := (Marked.exists_iff 1).2 hnumbers
  refine ⟨ts', scanFrom_ok_iff.2 ⟨segments', hcuts', hmarked'⟩, ?_⟩
  rw [hmarked'.unlined, hmarked.unlined, hsame]

end Lox
