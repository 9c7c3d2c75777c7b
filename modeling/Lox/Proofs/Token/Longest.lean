import Mathlib.Data.List.TakeWhile
import Mathlib.Tactic.Tauto
import Lox.Proofs.Token.Breaks

/-!
# Longest segments

`Shape.Holds` says which texts have a shape, one shape at a time, and `Segment.Longest` which segment
is the longest prefix of a source with a shape. `Cuts` is the source cut from the left in this way.

* `longest_iff`: a segment is the longest one if the next character does not go on with it
  (`Segment.EndsAt`).
* `cut_sound`, `cut_complete`: the scanner cuts exactly such segments, so the order in which it tries
  the shapes does not matter.
* `Cuts.unique`: a source is cut up in one way.
-/

set_option autoImplicit false

namespace Lox

open Segment Text

/-! ## Shapes -/

/-- The texts of a shape. -/
def Shape.Holds : Shape → List Char → Prop
  | .string, text => ∃ body, text = '"' :: (body ++ ['"']) ∧ '"' ∉ body
  | .number, text =>
    ∃ c more, text = c :: more ∧ isDigit c = true ∧ ∀ d ∈ more, isDigit d = true ∨ d = '.'
  | .word, text =>
    ∃ c more, text = c :: more ∧ (c.isAlpha = true ∨ c = '_') ∧
      ∀ d ∈ more, d.isAlphanum = true ∨ d = '_'
  | .comment, text => ∃ body, text = '/' :: '/' :: body ∧ '\n' ∉ body
  | .mark, text => ∃ k ∈ Kind.marks, k.spelling.toList = text
  | .newline, text => text = ['\n']
  | .blank, text => text ≠ [] ∧ ∀ c ∈ text, c = ' ' ∨ c = '\t' ∨ c = '\r'

/-- The segment is the longest prefix of the source that has a shape. -/
structure Segment.Longest (s : Segment) (source : List Char) : Prop where
  holds : s.shape.Holds s.text
  begins : s.text <+: source
  longest : ∀ text, text <+: source → (∃ shape : Shape, shape.Holds text) →
    text.length ≤ s.text.length

/-- The source is cut into the segments from the left, each time by the longest one. -/
inductive Cuts : List Char → List Segment → Prop
  | nil : Cuts [] []
  | cons {s : Segment} {after : List Char} {segments : List Segment}
      (h : s.Longest (s.text ++ after)) (t : Cuts after segments) :
      Cuts (s.text ++ after) (s :: segments)

/-- The shape of the segments that start with `c`; comments are counted among the marks. -/
def Shape.ofStart (c : Char) : Shape :=
  if isQuote c then .string
  else if isDigit c then .number
  else if isWordStart c then .word
  else if c == '\n' then .newline
  else if isSpace c then .blank
  else .mark

/-- The shape that a first character tells. -/
def Shape.family : Shape → Shape
  | .comment => .mark
  | shape => shape

theorem isWordStart_iff {c : Char} : isWordStart c = true ↔ c.isAlpha = true ∨ c = '_' := by
  simp [isWordStart]

theorem isWordPart_iff {c : Char} : isWordPart c = true ↔ c.isAlphanum = true ∨ c = '_' := by
  simp [isWordPart]

theorem isNumberPart_iff {c : Char} : isNumberPart c = true ↔ isDigit c = true ∨ c = '.' := by
  simp [isNumberPart]

theorem isSpace_iff {c : Char} : isSpace c = true ↔ c = ' ' ∨ c = '\t' ∨ c = '\r' := by
  simp only [isSpace, Bool.or_eq_true, beq_iff_eq]
  tauto

/-- Words are of ASCII letters, and no such letter is a digit. -/
theorem isDigit_of_isWordStart {c : Char} (h : isWordStart c = true) : isDigit c = false := by
  have hsmall : c.toNat < 128 := by
    rcases isWordStart_iff.1 h with h | rfl
    · delta Char.isAlpha Char.isUpper Char.isLower at h
      simp only [Bool.or_eq_true, Bool.and_eq_true, decide_eq_true_eq,
        UInt32.le_iff_toNat_le] at h
      have : c.toNat = c.val.toNat := rfl
      have : 'Z'.val.toNat = 90 := rfl
      have : 'z'.val.toNat = 122 := rfl
      omega
    · decide
  have hascii : ∀ n < 128, isWordStart (Char.ofNat n) = true → isDigit (Char.ofNat n) = false := by
    decide +kernel
  have := hascii c.toNat hsmall
  rw [Char.ofNat_toNat] at this
  exact this h

theorem Shape.Holds.ne_nil {shape : Shape} {text : List Char} (h : shape.Holds text) :
    text ≠ [] := by
  cases shape with
  | string => obtain ⟨_, rfl, -⟩ := h; simp
  | number | word => obtain ⟨_, _, rfl, -⟩ := h; simp
  | comment => obtain ⟨_, rfl, -⟩ := h; simp
  | mark =>
    obtain ⟨k, hk, rfl⟩ := h
    revert k
    decide
  | newline => rw [show text = ['\n'] from h]; simp
  | blank => exact h.1

/-- The first character of a segment tells its shape. -/
theorem Shape.Holds.family_eq {shape : Shape} {c : Char} {more : List Char}
    (h : shape.Holds (c :: more)) : shape.family = ofStart c := by
  cases shape with
  | string =>
    obtain ⟨_, h, -⟩ := h
    cases h
    rfl
  | number =>
    obtain ⟨_, _, h, hc, -⟩ := h
    cases h
    have hq : isQuote c = false := by
      cases hq : isQuote c with
      | false => rfl
      | true =>
        obtain rfl : c = '"' := by simpa [isQuote] using hq
        revert hc
        decide
    simp [family, ofStart, hq, hc]
  | word =>
    obtain ⟨_, _, h, hc, -⟩ := h
    cases h
    have hs := isWordStart_iff.2 hc
    have hq : isQuote c = false := by
      cases hq : isQuote c with
      | false => rfl
      | true =>
        obtain rfl : c = '"' := by simpa [isQuote] using hq
        revert hs
        decide
    simp [family, ofStart, hq, hs, isDigit_of_isWordStart hs]
  | comment =>
    obtain ⟨_, h, -⟩ := h
    cases h
    decide
  | mark =>
    obtain ⟨k, hk, h⟩ := h
    have hmarks : ∀ k ∈ Kind.marks, k.spelling.toList.head?.map ofStart = some .mark := by decide
    have hstart := hmarks k hk
    rw [h] at hstart
    exact (Option.some.inj hstart).symm
  | newline =>
    obtain ⟨rfl, -⟩ := List.cons.inj h
    decide
  | blank =>
    rcases h.2 c List.mem_cons_self with rfl | rfl | rfl <;> decide

/-! ## Where a segment ends -/

/-- Whether a segment goes on with the character `d`. -/
def Segment.growsBy (s : Segment) (d : Char) : Bool :=
  match s.shape with
  | .string | .newline => false
  | .number => isNumberPart d
  | .word => isWordPart d
  | .comment => d != '\n'
  | .mark => (Kind.ofMark? (s.text ++ [d])).isSome || s.text == ['/'] && d == '/'
  | .blank => isSpace d

/-- The segment does not go on with what follows it. -/
def Segment.EndsAt (s : Segment) (after : List Char) : Prop :=
  ∀ d ∈ after.head?, s.growsBy d = false

@[simp] theorem endsAt_nil (s : Segment) : s.EndsAt [] := by simp [EndsAt]

@[simp] theorem endsAt_cons {s : Segment} {d : Char} {after : List Char} :
    s.EndsAt (d :: after) ↔ s.growsBy d = false := by
  simp [EndsAt]

theorem isSome_ofMark?_iff {text : List Char} :
    (Kind.ofMark? text).isSome = true ↔ Shape.mark.Holds text := by
  simp [Kind.ofMark?, Shape.Holds]

theorem length_mark {text : List Char} (h : Shape.mark.Holds text) :
    text.length = 1 ∨ text.length = 2 := by
  obtain ⟨k, hk, rfl⟩ := h
  revert k
  decide

theorem not_mark_slashes {more : List Char} : ¬ Shape.mark.Holds ('/' :: '/' :: more) := by
  rintro ⟨k, hk, hspell⟩
  have hlone : ∀ k ∈ Kind.marks, k.spelling.toList.take 2 ≠ ['/', '/'] := by decide
  exact hlone k hk (by rw [hspell]; rfl)

/-- A segment of one shape goes on with a character if a longer one of any shape does. -/
theorem Shape.Holds.growsBy {shape shape' : Shape} {text more : List Char} {d : Char}
    (h : shape.Holds text) (h' : shape'.Holds (text ++ d :: more)) :
    Segment.growsBy ⟨shape, text⟩ d = true := by
  obtain ⟨c, rest, rfl⟩ := List.exists_cons_of_ne_nil h.ne_nil
  have hfamily : shape'.family = shape.family := h'.family_eq.trans h.family_eq.symm
  cases shape with
  | string =>
    obtain rfl : shape' = .string := by cases shape' <;> first | rfl | cases hfamily
    obtain ⟨body, hbody, -⟩ := h
    obtain ⟨body', htext, hquote⟩ := h'
    obtain ⟨rfl, rfl⟩ := List.cons.inj hbody
    -- the closing quote of the shorter string would stand inside the longer one
    have hinside := congrArg List.dropLast (List.cons.inj htext).2
    rw [List.dropLast_concat] at hinside
    exact absurd (by rw [← hinside]; simp [List.dropLast_append_of_ne_nil]) hquote
  | number =>
    obtain rfl : shape' = .number := by cases shape' <;> first | rfl | cases hfamily
    obtain ⟨_, _, h', -, hparts⟩ := h'
    cases h'
    exact isNumberPart_iff.2 (hparts d (by simp))
  | word =>
    obtain rfl : shape' = .word := by cases shape' <;> first | rfl | cases hfamily
    obtain ⟨_, _, h', -, hparts⟩ := h'
    cases h'
    exact isWordPart_iff.2 (hparts d (by simp))
  | blank =>
    obtain rfl : shape' = .blank := by cases shape' <;> first | rfl | cases hfamily
    exact isSpace_iff.2 (h'.2 d (by simp))
  | newline =>
    obtain rfl : shape' = .newline := by cases shape' <;> first | rfl | cases hfamily
    have := congrArg List.length (show c :: rest ++ d :: more = ['\n'] from h')
    simp at this
  | comment =>
    obtain ⟨body, hbody, -⟩ := h
    cases hbody
    cases shape' with
    | comment =>
      obtain ⟨body', h', hbreak⟩ := h'
      cases h'
      simp only [Segment.growsBy, bne_iff_ne]
      rintro rfl
      exact hbreak (by simp)
    | mark => exact absurd h' not_mark_slashes
    | _ => cases hfamily
  | mark =>
    simp only [Segment.growsBy, Bool.or_eq_true, Bool.and_eq_true, beq_iff_eq]
    cases shape' with
    | mark =>
      have hlen := length_mark h'
      simp only [List.length_append, List.length_cons] at hlen
      obtain ⟨rfl, rfl⟩ : rest = [] ∧ more = [] := by
        constructor <;> apply List.eq_nil_of_length_eq_zero <;> omega
      exact .inl (isSome_ofMark?_iff.2 h')
    | comment =>
      obtain ⟨body, hbody, -⟩ := h'
      obtain ⟨k, hk, hspell⟩ := h
      obtain ⟨rfl, hbody⟩ := List.cons.inj hbody
      have hslash : ∀ k ∈ Kind.marks, k.spelling.toList.head? = some '/' →
          k.spelling.toList = ['/'] := by decide
      have htext := hslash k hk (by rw [hspell]; rfl)
      rw [hspell] at htext
      obtain rfl : rest = [] := by simpa using htext
      obtain ⟨rfl, -⟩ : d = '/' ∧ more = body := by simpa using hbody
      exact .inr ⟨rfl, rfl⟩
    | _ => cases hfamily

/-- A segment that goes on with a character is not the longest one. -/
theorem Shape.Holds.grow {shape : Shape} {text : List Char} {d : Char} (h : shape.Holds text)
    (hd : Segment.growsBy ⟨shape, text⟩ d = true) : ∃ shape' : Shape, shape'.Holds (text ++ [d]) := by
  cases shape with
  | string | newline => cases hd
  | number =>
    obtain ⟨c, more, rfl, hc, hparts⟩ := h
    refine ⟨.number, c, more ++ [d], rfl, hc, fun x hx => ?_⟩
    rcases List.mem_append.1 hx with hx | hx
    · exact hparts x hx
    · rw [List.mem_singleton.1 hx]
      exact isNumberPart_iff.1 hd
  | word =>
    obtain ⟨c, more, rfl, hc, hparts⟩ := h
    refine ⟨.word, c, more ++ [d], rfl, hc, fun x hx => ?_⟩
    rcases List.mem_append.1 hx with hx | hx
    · exact hparts x hx
    · rw [List.mem_singleton.1 hx]
      exact isWordPart_iff.1 hd
  | comment =>
    obtain ⟨body, rfl, hbreak⟩ := h
    refine ⟨.comment, body ++ [d], rfl, fun hx => ?_⟩
    rcases List.mem_append.1 hx with hx | hx
    · exact hbreak hx
    · rw [← List.mem_singleton.1 hx] at hd
      cases hd
  | mark =>
    simp only [Segment.growsBy, Bool.or_eq_true, Bool.and_eq_true, beq_iff_eq] at hd
    rcases hd with hd | ⟨rfl, rfl⟩
    · exact ⟨.mark, isSome_ofMark?_iff.1 hd⟩
    · exact ⟨.comment, [], rfl, List.not_mem_nil⟩
  | blank =>
    refine ⟨.blank, by simp, fun x hx => ?_⟩
    rcases List.mem_append.1 hx with hx | hx
    · exact h.2 x hx
    · rw [List.mem_singleton.1 hx]
      exact isSpace_iff.1 hd

/-- The longest segment is the one that does not go on with the next character. -/
theorem longest_iff {s : Segment} {after : List Char} :
    s.Longest (s.text ++ after) ↔ s.shape.Holds s.text ∧ s.EndsAt after := by
  constructor
  · intro h
    refine ⟨h.holds, fun d hd => ?_⟩
    obtain ⟨more, rfl⟩ := List.head?_eq_some_iff.1 hd
    cases hg : s.growsBy d with
    | false => rfl
    | true =>
      have := h.longest (s.text ++ [d]) (by simp) (h.holds.grow hg)
      rw [List.length_append, List.length_singleton] at this
      omega
  · rintro ⟨h, hend⟩
    refine ⟨h, List.prefix_append _ _, fun text htext ⟨shape, hshape⟩ => ?_⟩
    by_contra hlt
    -- a longer text goes on with the character after the segment
    obtain ⟨tail, htail⟩ : s.text <+: text :=
      List.prefix_of_prefix_length_le (List.prefix_append _ _) htext (by omega)
    cases tail with
    | nil =>
      rw [List.append_nil] at htail
      exact hlt (Nat.le_of_eq (by rw [htail]))
    | cons d more =>
      subst htail
      have hd : d ∈ after.head? := by
        rw [List.prefix_append_right_inj] at htext
        obtain ⟨rest, rfl⟩ := htext
        rfl
      have := h.growsBy hshape
      rw [hend d hd] at this
      cases this

/-! ## Cuts -/

/-- A cut by the shape that the first character tells. -/
theorem cut_eq (c : Char) (rest : List Char) :
    cut c rest = match Shape.ofStart c with
      | .string => cutString c rest
      | .number => .ok (run .number isNumberPart c rest)
      | .word => .ok (run .word isWordPart c rest)
      | .newline => .ok (⟨.newline, [c]⟩, rest)
      | .blank => .ok (run .blank isSpace c rest)
      | _ =>
        if c == '/' && rest.head? == some '/' then .ok (run .comment (· != '\n') c rest)
        else match cutMark? c rest with
          | some found => .ok found
          | none => .error (.stray c) := by
  by_cases hc : c = '/'
  · subst hc
    rfl
  · have hc : (c == '/') = false := beq_false_of_ne hc
    unfold cut Shape.ofStart
    simp only [hc, Bool.false_and, Bool.false_eq_true, if_false]
    split
    · rfl
    · split
      · rfl
      · split
        · rfl
        · split
          · rfl
          · split <;> rfl

theorem run_eq_iff {shape : Shape} {part : Char → Bool} {c : Char} {rest after : List Char}
    {s : Segment} :
    run shape part c rest = (s, after) ↔
      ∃ more, s = ⟨shape, c :: more⟩ ∧ rest = more ++ after ∧ (∀ d ∈ more, part d = true) ∧
        ∀ d ∈ after.head?, part d = false := by
  constructor
  · intro h
    cases h
    refine ⟨_, rfl, List.takeWhile_append_dropWhile.symm, fun d hd => List.mem_takeWhile_imp hd,
      fun d hd => ?_⟩
    have := List.head?_dropWhile_not part rest
    rw [Option.mem_def.1 hd] at this
    exact this
  · rintro ⟨more, rfl, rfl, hparts, hend⟩
    have hstop : after.takeWhile part = [] ∧ after.dropWhile part = after := by
      cases after with
      | nil => exact ⟨rfl, rfl⟩
      | cons d after => simp [hend d rfl]
    unfold run
    rw [List.takeWhile_append_of_pos hparts, List.dropWhile_append_of_pos hparts, hstop.1, hstop.2,
      List.append_nil]

theorem cutString_eq_ok_iff {c : Char} {rest after : List Char} {s : Segment} :
    cutString c rest = .ok (s, after) ↔
      ∃ body, s = ⟨.string, c :: (body ++ ['"'])⟩ ∧ rest = body ++ '"' :: after ∧ '"' ∉ body := by
  constructor
  · intro h
    unfold cutString at h
    split at h
    · cases h
    · rename_i close after' hdrop
      cases h
      have hquote := List.head?_dropWhile_not (!isQuote ·) rest
      rw [hdrop] at hquote
      obtain rfl : close = '"' := by simpa [isQuote] using hquote
      refine ⟨_, rfl, ?_, fun hmem => ?_⟩
      · rw [← hdrop, List.takeWhile_append_dropWhile]
      · exact absurd (List.mem_takeWhile_imp hmem) (by decide)
  · rintro ⟨body, rfl, rfl, hquote⟩
    have hbody : ∀ d ∈ body, (!isQuote d) = true := by
      intro d hd
      simp only [isQuote, Bool.not_eq_true', beq_eq_false_iff_ne]
      rintro rfl
      exact hquote hd
    unfold cutString
    rw [List.dropWhile_append_of_pos hbody, List.takeWhile_append_of_pos hbody]
    simp [isQuote]

theorem cutMark?_eq_some_iff {c : Char} {rest after : List Char} {s : Segment} :
    cutMark? c rest = some (s, after) ↔
      s.shape = .mark ∧ Shape.mark.Holds s.text ∧ c :: rest = s.text ++ after ∧
        ∀ d ∈ after.head?, (Kind.ofMark? (s.text ++ [d])).isSome = false := by
  constructor
  · intro h
    unfold cutMark? at h
    split at h
    · rename_i hmark
      cases h
      refine ⟨rfl, isSome_ofMark?_iff.1 hmark, ?_, fun d hd => ?_⟩
      · exact congrArg (c :: ·) (List.take_append_drop 1 rest).symm
      · rw [Bool.eq_false_iff]
        intro hlong
        have hlen := length_mark (isSome_ofMark?_iff.1 hlong)
        cases rest with
        | nil => cases hd
        | cons x rest => simp at hlen
    · rename_i htwo
      split at h
      · rename_i hmark
        cases h
        refine ⟨rfl, isSome_ofMark?_iff.1 hmark, rfl, fun d hd => ?_⟩
        obtain ⟨more, rfl⟩ := List.head?_eq_some_iff.1 hd
        simpa using htwo
      · cases h
  · obtain ⟨shape, text⟩ := s
    rintro ⟨rfl, hmark, hsource, hend⟩
    unfold cutMark?
    obtain ⟨c', more, rfl⟩ := List.exists_cons_of_ne_nil hmark.ne_nil
    obtain ⟨rfl, rfl⟩ : c = c' ∧ rest = more ++ after := by simpa using hsource
    have hlen := length_mark hmark
    have hsome := isSome_ofMark?_iff.2 hmark
    match more, hlen with
    | [d], _ => simp [hsome]
    | [], _ =>
      cases after with
      | nil => simp [hsome]
      | cons d after =>
        have := hend d rfl
        simp only [List.singleton_append] at this
        simp [hsome, this]

/-- What is cut is a text of its shape, up to a character that it does not go on with. -/
theorem cut_sound {c : Char} {rest after : List Char} {s : Segment}
    (h : cut c rest = .ok (s, after)) :
    s.shape.Holds s.text ∧ c :: rest = s.text ++ after ∧ s.EndsAt after := by
  unfold cut at h
  split at h
  · rename_i hq
    obtain rfl : c = '"' := by simpa [isQuote] using hq
    obtain ⟨body, rfl, rfl, hquote⟩ := cutString_eq_ok_iff.1 h
    exact ⟨⟨body, rfl, hquote⟩, by simp, fun d _ => rfl⟩
  split at h
  · rename_i hd
    obtain ⟨more, rfl, rfl, hparts, hend⟩ := run_eq_iff.1 (Except.ok.inj h)
    exact ⟨⟨c, more, rfl, hd, fun d hd => isNumberPart_iff.1 (hparts d hd)⟩, rfl, hend⟩
  split at h
  · rename_i hw
    obtain ⟨more, rfl, rfl, hparts, hend⟩ := run_eq_iff.1 (Except.ok.inj h)
    exact ⟨⟨c, more, rfl, isWordStart_iff.1 hw, fun d hd => isWordPart_iff.1 (hparts d hd)⟩, rfl,
      hend⟩
  split at h
  · rename_i hslash
    obtain ⟨more, rfl, rfl, hparts, hend⟩ := run_eq_iff.1 (Except.ok.inj h)
    simp only [Bool.and_eq_true, beq_iff_eq] at hslash
    obtain ⟨rfl, hslash⟩ := hslash
    cases more with
    | nil =>
      exact absurd (hend '/' hslash) (by decide)
    | cons d body =>
      obtain rfl : d = '/' := by simpa using hslash
      refine ⟨⟨body, rfl, fun hbreak => ?_⟩, rfl, hend⟩
      exact absurd (hparts '\n' (List.mem_cons_of_mem _ hbreak)) (by decide)
  rename_i hcomment
  split at h
  · rename_i hn
    cases h
    obtain rfl : c = '\n' := by simpa using hn
    exact ⟨rfl, rfl, fun d _ => rfl⟩
  split at h
  · rename_i hs
    obtain ⟨more, rfl, rfl, hparts, hend⟩ := run_eq_iff.1 (Except.ok.inj h)
    refine ⟨⟨by simp, fun d hd => isSpace_iff.1 ?_⟩, rfl, hend⟩
    rcases List.mem_cons.1 hd with rfl | hd
    · exact hs
    · exact hparts d hd
  cases hmark : cutMark? c rest with
  | none => simp [hmark] at h
  | some found =>
    rw [hmark] at h
    cases h
    obtain ⟨hshape, hholds, hsource, hend⟩ := cutMark?_eq_some_iff.1 hmark
    refine ⟨hshape ▸ hholds, hsource, fun d hd => ?_⟩
    -- a slash before a slash has been cut as a comment
    have hslash : (s.text == ['/'] && d == '/') = false := by
      rw [Bool.eq_false_iff]
      intro hslash
      simp only [Bool.and_eq_true, beq_iff_eq] at hslash
      obtain ⟨htext, rfl⟩ := hslash
      rw [htext] at hsource
      obtain ⟨rfl, rfl⟩ := List.cons.inj hsource
      exact hcomment (by simpa using hd)
    simp [growsBy, hshape, hend d hd, hslash]

/-- A mark is cut where no longer mark and no comment starts. -/
theorem cut_mark {c : Char} {more after : List Char} (h : Shape.mark.Holds (c :: more))
    (hend : (⟨.mark, c :: more⟩ : Segment).EndsAt after) :
    cut c (more ++ after) = .ok (⟨.mark, c :: more⟩, after) := by
  have hgrows : ∀ d ∈ after.head?, (Kind.ofMark? (c :: more ++ [d])).isSome = false ∧
      (c :: more == ['/'] && d == '/') = false := by
    intro d hd
    simpa only [growsBy, Bool.or_eq_false_iff] using hend d hd
  have hslash : (c == '/' && (more ++ after).head? == some '/') = false := by
    rw [Bool.eq_false_iff]
    intro hslash
    simp only [Bool.and_eq_true, beq_iff_eq] at hslash
    obtain ⟨rfl, hslash⟩ := hslash
    cases more with
    | nil => simpa using (hgrows '/' hslash).2
    | cons d more =>
      obtain rfl : d = '/' := by simpa using hslash
      exact not_mark_slashes h
  have hcut : cutMark? c (more ++ after) = some (⟨.mark, c :: more⟩, after) :=
    cutMark?_eq_some_iff.2 ⟨rfl, h, rfl, fun d hd => (hgrows d hd).1⟩
  rw [cut_eq, ← h.family_eq]
  simp only [Shape.family, hslash, Bool.false_eq_true, if_false, hcut]

/-- A text of some shape is cut, up to a character that it does not go on with. -/
theorem cut_complete {c : Char} {more after : List Char} {shape : Shape}
    (h : shape.Holds (c :: more)) (hend : (⟨shape, c :: more⟩ : Segment).EndsAt after) :
    cut c (more ++ after) = .ok (⟨shape, c :: more⟩, after) := by
  rw [cut_eq, ← h.family_eq]
  cases shape with
  | string =>
    obtain ⟨body, htext, hquote⟩ := h
    obtain ⟨rfl, rfl⟩ := List.cons.inj htext
    exact cutString_eq_ok_iff.2 ⟨body, rfl, by simp, hquote⟩
  | number =>
    obtain ⟨_, _, htext, -, hparts⟩ := h
    cases htext
    exact congrArg Except.ok (run_eq_iff.2 ⟨more, rfl, rfl,
      fun d hd => isNumberPart_iff.2 (hparts d hd), hend⟩)
  | word =>
    obtain ⟨_, _, htext, -, hparts⟩ := h
    cases htext
    exact congrArg Except.ok (run_eq_iff.2 ⟨more, rfl, rfl,
      fun d hd => isWordPart_iff.2 (hparts d hd), hend⟩)
  | comment =>
    obtain ⟨body, htext, hbreak⟩ := h
    cases htext
    have hparts : ∀ d ∈ '/' :: body, (d != '\n') = true := by
      intro d hd
      rw [bne_iff_ne]
      rintro rfl
      exact hbreak (by simpa using hd)
    exact congrArg Except.ok (run_eq_iff.2 ⟨'/' :: body, rfl, rfl, hparts, hend⟩)
  | newline =>
    cases h
    rfl
  | blank =>
    refine congrArg Except.ok (run_eq_iff.2 ⟨more, rfl, rfl, fun d hd => ?_, hend⟩)
    exact isSpace_iff.2 (h.2 d (List.mem_cons_of_mem _ hd))
  | mark =>
    rw [h.family_eq, ← cut_eq]
    exact cut_mark h hend

theorem cut_of_longest {s : Segment} {after : List Char} (h : s.Longest (s.text ++ after)) :
    ∃ c rest, s.text ++ after = c :: rest ∧ cut c rest = .ok (s, after) := by
  obtain ⟨shape, text⟩ := s
  obtain ⟨hholds, hend⟩ := longest_iff.1 h
  obtain ⟨c, more, rfl⟩ := List.exists_cons_of_ne_nil hholds.ne_nil
  exact ⟨c, more ++ after, rfl, cut_complete hholds hend⟩

theorem Cuts.of_cut {c : Char} {rest after : List Char} {s : Segment} {segments : List Segment}
    (h : cut c rest = .ok (s, after)) (t : Cuts after segments) :
    Cuts (c :: rest) (s :: segments) := by
  obtain ⟨hholds, hsource, hend⟩ := cut_sound h
  rw [hsource]
  exact .cons (longest_iff.2 ⟨hholds, hend⟩) t

/-- A source is cut up in one way. -/
theorem Cuts.unique {source : List Char} {segments segments' : List Segment}
    (h : Cuts source segments) (h' : Cuts source segments') : segments = segments' := by
  induction h generalizing segments' with
  | nil =>
    cases segments' with
    | nil => rfl
    | cons s segments' =>
      generalize hsource : [] = source at h'
      cases h' with
      | cons hs => exact absurd (List.append_eq_nil_iff.1 hsource.symm).1 hs.holds.ne_nil
  | @cons s after segments hs _ ih =>
    obtain ⟨c, rest, hsource, hcut⟩ := cut_of_longest hs
    rw [hsource] at h'
    generalize hsource' : c :: rest = source at h'
    cases h' with
    | nil => cases hsource'
    | @cons s' after' _ hs' ht' =>
      obtain ⟨c', rest', hsource'', hcut'⟩ := cut_of_longest hs'
      rw [hsource''] at hsource'
      obtain ⟨rfl, rfl⟩ := List.cons.inj hsource'
      rw [hcut] at hcut'
      cases hcut'
      rw [ih ht']

theorem Cuts.holds {source : List Char} {segments : List Segment} (h : Cuts source segments) :
    ∀ s ∈ segments, s.shape.Holds s.text := by
  induction h with
  | nil => simp
  | cons hs _ ih => exact List.forall_mem_cons.2 ⟨hs.holds, ih⟩

end Lox
