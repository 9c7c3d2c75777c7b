import Lox.Proofs.Token.Exact
import Lox.Proofs.Syntax.Pieces

/-!
# Numerals as source

The text of a number has no blanks, line feeds or slashes in it (`plain_text`), whatever the number.
So if such a text is scanned as one number token, the whole of it is that token
(`number_of_scan`): this fails for infinities and for numerals in scientific form.
-/

set_option autoImplicit false

namespace Lox

namespace Number

/-- The text has no characters but those of numerals. -/
def Plain (text : String) : Prop :=
  ∀ c ∈ text.toList, c.isAlphanum = true ∨ c = '.' ∨ c = '-' ∨ c = '+'

theorem Plain.append {s t : String} (hs : Plain s) (ht : Plain t) : Plain (s ++ t) := by
  intro c hc
  rw [String.toList_append] at hc
  exact (List.mem_append.1 hc).elim (hs c) (ht c)

theorem plain_of_isDigit {cs : List Char} (h : ∀ c ∈ cs, c.isDigit = true) :
    Plain (String.ofList cs) := by
  intro c hc
  rw [String.toList_ofList] at hc
  exact .inl (by simp [Char.isAlphanum, h c hc])

theorem isDigit_of_mem_toDigits {n : Nat} {c : Char} (h : c ∈ Nat.toDigits 10 n) :
    c.isDigit = true :=
  Nat.isDigit_of_mem_toDigits (by decide) (by decide) h

theorem plain_toString (n : Nat) : Plain (toString n) := by
  rw [Nat.toString_eq_repr, Nat.repr_eq_ofList_toDigits]
  exact plain_of_isDigit fun c hc => isDigit_of_mem_toDigits hc

theorem plain_signText (negative : Bool) : Plain (signText negative) := by
  cases negative <;> simp [signText, Plain]

theorem plain_exponentText (e : Int) : Plain (exponentText e) := by
  unfold exponentText
  apply Plain.append
  · split <;> simp [Plain]
  · split
    · exact Plain.append (by simp [Plain]) (plain_toString _)
    · exact plain_toString _

theorem Decimal.plain_text (d : Decimal) : Plain d.text := by
  have hdigits : ∀ c ∈ Nat.toDigits 10 d.digits, c.isDigit = true :=
    fun c hc => isDigit_of_mem_toDigits hc
  have hzeroes : ∀ n, Plain (zeroes n) := fun n =>
    plain_of_isDigit fun c hc => by rw [List.eq_of_mem_replicate hc]; rfl
  have hmark : Plain ("e" ++ exponentText (d.exponent + (Nat.toDigits 10 d.digits).length - 1)) :=
    .append (by simp [Plain]) (plain_exponentText _)
  have hfirst {c : Char} (hc : c.isDigit = true) : Plain c.toString := by
    have hplain := plain_of_isDigit (List.forall_mem_singleton.2 hc)
    simpa [Plain] using hplain
  unfold Decimal.text
  simp only
  generalize Nat.toDigits 10 d.digits = digits at hdigits hmark
  split
  · split
    · exact .append (.append (by simp [Plain]) (hzeroes _)) (plain_of_isDigit hdigits)
    · split
      · exact .append (.append (plain_of_isDigit hdigits) (hzeroes _)) (by simp [Plain])
      · have htake (n : Nat) : Plain (String.ofList (digits.take n)) :=
          plain_of_isDigit fun c hc => hdigits c (List.mem_of_mem_take hc)
        have hdrop (n : Nat) : Plain (String.ofList (digits.drop n)) :=
          plain_of_isDigit fun c hc => hdigits c (List.mem_of_mem_drop hc)
        exact .append (.append (htake _) (by simp [Plain])) (hdrop _)
  · split
    · exact hmark
    · exact .append (hfirst (by simpa using hdigits)) hmark
    · obtain ⟨hone, hmore⟩ := List.forall_mem_cons.1 hdigits
      exact .append (.append (.append (hfirst hone) (by simp [Plain])) (plain_of_isDigit hmore)) hmark

theorem plain_numeral (x : Float) : Plain (numeral x) := by
  unfold numeral
  split
  · simp [Plain]
  · exact .append (plain_signText _) (by simp [Plain])
  · apply Plain.append (plain_signText _)
    split
    · simp [Plain]
    · exact Decimal.plain_text _

theorem plain_text (x : Float) : Plain (text x) := by
  unfold text
  split
  · split
    · exact .append (plain_signText _) (plain_toString _)
    · exact plain_numeral x
  · exact plain_numeral x

end Number

theorem Cuts.textOf_eq {source : List Char} {segments : List Segment} (h : Cuts source segments) :
    textOf segments = source := by
  induction h with
  | nil => rfl
  | cons _ _ ih => rw [textOf_cons, ih]

/-- Segments that are no tokens have a blank, a line feed or a slash in them. -/
theorem isToken_of_plain {s : Segment} (hs : s.shape.Holds s.text)
    (hplain : Number.Plain (String.ofList s.text)) : s.shape.isToken = true := by
  have hchar : ∀ c ∈ s.text, c.isAlphanum = true ∨ c = '.' ∨ c = '-' ∨ c = '+' := by
    simpa [Number.Plain] using hplain
  obtain ⟨shape, text⟩ := s
  cases shape with
  | string | number | word | mark => rfl
  | comment =>
    obtain ⟨body, rfl, -⟩ := hs
    exact absurd (hchar '/' List.mem_cons_self) (by decide)
  | newline =>
    obtain rfl := hs
    exact absurd (hchar '\n' List.mem_cons_self) (by decide)
  | blank =>
    obtain ⟨hne, hblank⟩ := hs
    obtain ⟨c, rest, rfl⟩ := List.exists_cons_of_ne_nil hne
    have hc := hchar c List.mem_cons_self
    rcases hblank c List.mem_cons_self with rfl | rfl | rfl <;> exact absurd hc (by decide)

theorem Segment.Gives.shape_eq_number {s : Segment} {t : Token} (h : s.Gives t)
    (hk : t.kind = .number) : s.shape = .number := by
  obtain ⟨-, h⟩ := h
  obtain ⟨shape, text⟩ := s
  cases shape with
  | number => rfl
  | string => exact absurd (hk.symm.trans h.1) (by decide)
  | word =>
    rw [hk] at h
    rcases h.2 with h | h <;> exact absurd h.1 (by decide)
  | mark =>
    rw [hk] at h
    exact absurd h.2.1 (by decide)
  | comment | newline | blank => exact h.elim

/-- A text of a number that is scanned as one number is that number as a whole. -/
theorem number_of_scan {x : Float} {t e : Token} (h : scan (Number.text x) = .ok [t, e])
    (hk : t.kind = .number) (hv : t.literal = .num x) :
    Shape.number.Holds (Number.text x).toList ∧
      Number.ofLiteral? (Number.text x).toList = some x := by
  obtain ⟨segments, hcuts, hmarked⟩ := scanFrom_ok_iff.1 h
  have htokens : segments.filter (·.shape.isToken) = segments := by
    refine List.filter_eq_self.2 fun s hs => isToken_of_plain (hcuts.holds s hs) fun c hc => ?_
    refine Number.plain_text x c ?_
    rw [← hcuts.textOf_eq]
    rw [String.toList_ofList] at hc
    exact List.mem_flatMap.2 ⟨s, hs, hc⟩
  obtain ⟨us, line, hus, -, hgives⟩ := hmarked.gives hcuts.holds
  rw [htokens] at hgives
  obtain rfl : us = [t] := by simpa using congrArg List.dropLast hus.symm
  cases hgives with
  | @cons s _ _ _ hgive hnil =>
    cases hnil
    have hshape := hgive.shape_eq_number hk
    have hsource : s.text = (Number.text x).toList := by simpa using hcuts.textOf_eq
    obtain ⟨shape, text⟩ := s
    obtain rfl : shape = .number := hshape
    obtain rfl : text = (Number.text x).toList := hsource
    refine ⟨hcuts.holds _ (List.mem_singleton_self _), ?_⟩
    generalize hts : [t, e] = ts at hmarked
    cases hmarked with
    | cons htoken hend =>
      cases hend
      simp only [Segment.token?] at htoken
      split at htoken <;> cases htoken
      rename_i y hy
      obtain ⟨rfl, -⟩ := List.cons.inj hts
      obtain rfl : y = x := by simpa using hv
      exact hy

end Lox
