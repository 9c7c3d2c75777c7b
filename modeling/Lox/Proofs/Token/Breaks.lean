import Lox.Proofs.Grammar.Runs
import Lox.Token.Scan

/-!
# Scanning at line breaks

A line feed ends every segment but a string. So a source is scanned line by line, as long as no
string is open at the end of a line:

* `scanFrom_break`: after a source that is scanned, a line feed and more text give the tokens of
  the source and then those of the text, which starts on the next line.
* `scanFrom_break_error`: a source that fails, but for an open string, fails in the same way
  whatever comes after a line feed.
* `scanFrom_shift`: where a text starts changes the lines of its tokens and nothing else.
* `exists_firstWord`: a text whose first token is a reserved word has a line whose first word it is.
-/

set_option autoImplicit false

namespace Lox

/-- The token with its line changed. -/
def Token.relabel (f : Int → Int) (t : Token) : Token := { t with line := f t.line }

namespace Kind

theorem mem_marks_of_ofMark? {text : List Char} {k : Kind} (h : ofMark? text = some k) :
    k ∈ marks := List.mem_of_find?_eq_some h

theorem ofWord_mem (word : List Char) : ofWord word ∈ identifier :: reserved := by
  unfold ofWord
  cases h : reserved.find? (·.key == upperCase word) with
  | none => exact List.mem_cons_self
  | some k => exact List.mem_cons_of_mem _ (List.mem_of_find?_eq_some h)

theorem ne_eof_of_ofMark? {text : List Char} {k : Kind} (h : ofMark? text = some k) :
    k ≠ .eof := by
  rintro rfl
  exact absurd (mem_marks_of_ofMark? h) (by decide)

theorem ofWord_ne_eof (word : List Char) : ofWord word ≠ .eof := by
  intro h
  exact absurd (ofWord_mem word) (by rw [h]; decide)

end Kind

/-! ## Segments -/

section
variable {p : Char → Bool} {d : Char} (hd : p d = false) (xs ys : List Char)
include hd

theorem takeWhile_append_stop : (xs ++ d :: ys).takeWhile p = xs.takeWhile p := by
  induction xs with
  | nil => simp [hd]
  | cons x xs ih => cases hx : p x <;> simp [hx, ih]

theorem dropWhile_append_stop : (xs ++ d :: ys).dropWhile p = xs.dropWhile p ++ d :: ys := by
  induction xs with
  | nil => simp [hd]
  | cons x xs ih => cases hx : p x <;> simp [hx, ih]

end

namespace Segment

theorem run_break {part : Char → Bool} (hp : part '\n' = false) (shape : Shape) (c : Char)
    (rest b : List Char) :
    run shape part c (rest ++ '\n' :: b) =
      ((run shape part c rest).1, (run shape part c rest).2 ++ '\n' :: b) := by
  unfold run
  rw [takeWhile_append_stop hp, dropWhile_append_stop hp]

theorem ofMark?_break (c : Char) : Kind.ofMark? [c, '\n'] = none := by
  simp [Kind.ofMark?, Kind.marks, Kind.spelling]

theorem cutMark?_break (c : Char) (rest b : List Char) :
    cutMark? c (rest ++ '\n' :: b) = (cutMark? c rest).map fun r => (r.1, r.2 ++ '\n' :: b) := by
  unfold cutMark?
  cases rest with
  | nil => cases h : Kind.ofMark? [c] <;> simp [h, ofMark?_break]
  | cons d rest =>
    cases h : Kind.ofMark? [c, d] with
    | some => simp [h]
    | none => cases Kind.ofMark? [c] <;> simp [h]

theorem cutString_break {c : Char} {rest : List Char}
    (h : cutString c rest ≠ .error .unterminated) (b : List Char) :
    cutString c (rest ++ '\n' :: b) =
      (cutString c rest).map fun r => (r.1, r.2 ++ '\n' :: b) := by
  unfold cutString at h ⊢
  cases hr : rest.dropWhile (!isQuote ·) with
  | nil => exact absurd (by rw [hr]) h
  | cons close after =>
    have hq : (!isQuote close) = false := by
      have := List.head?_dropWhile_not (!isQuote ·) rest
      rwa [hr] at this
    obtain ⟨before, rfl⟩ : ∃ before, rest = before ++ close :: after :=
      ⟨rest.takeWhile (!isQuote ·), by rw [← hr, List.takeWhile_append_dropWhile]⟩
    rw [dropWhile_append_stop hq, List.append_left_eq_self] at hr
    rw [List.append_assoc, List.cons_append, dropWhile_append_stop hq, hr,
      takeWhile_append_stop hq, takeWhile_append_stop hq]
    rfl

/-- A line feed after the source changes nothing about its first segment, unless that is a string
that is still open. -/
theorem cut_break {c : Char} {rest : List Char} (h : cut c rest ≠ .error .unterminated)
    (b : List Char) :
    cut c (rest ++ '\n' :: b) = (cut c rest).map fun r => (r.1, r.2 ++ '\n' :: b) := by
  have hhead : ((rest ++ '\n' :: b).head? == some '/') = (rest.head? == some '/') := by
    cases rest <;> rfl
  unfold cut at h ⊢
  rw [hhead]
  split
  · rename_i hq
    rw [if_pos hq] at h
    exact cutString_break h b
  · split
    · rw [run_break (by decide)]
      rfl
    · split
      · rw [run_break (by decide)]
        rfl
      · split
        · rw [run_break (by decide)]
          rfl
        · split
          · rfl
          · split
            · rw [run_break (by decide)]
              rfl
            · rw [cutMark?_break]
              cases cutMark? c rest <;> rfl

theorem cut_of_isSpace {c : Char} (hc : isSpace c = true) (rest : List Char) :
    cut c rest = .ok (run .blank isSpace c rest) := by
  simp only [isSpace, Bool.or_eq_true, beq_iff_eq] at hc
  rcases hc with (rfl | rfl) | rfl <;> rfl

/-- No segment is an end of source. -/
theorem kind_token?_ne_eof {line : Int} {s : Segment} {t : Token}
    (h : s.token? line = .ok (some t)) : t.kind ≠ .eof := by
  unfold token? at h
  cases hs : s.shape <;> simp only [hs] at h
  case string => cases h; simp
  case number =>
    split at h <;> cases h
    simp
  case word =>
    cases h
    exact Kind.ofWord_ne_eof _
  case mark =>
    cases h' : Kind.ofMark? s.text with
    | none => rw [h'] at h; cases h
    | some kind =>
      rw [h'] at h
      cases h
      exact Kind.ne_eof_of_ofMark? h'
  case comment | newline | blank => cases h

/-- The token of a segment that is a given line lower. -/
theorem token?_shift (k line : Int) (s : Segment) :
    s.token? (line + k) = (s.token? line).map (Option.map (Token.relabel (· + k))) := by
  unfold token?
  cases s.shape with
  | number => cases Number.ofLiteral? s.text <;> rfl
  | mark => cases Kind.ofMark? s.text <;> rfl
  | string | word | comment | newline | blank => rfl

end Segment

/-! ## Sources -/

open Segment Text

theorem scanFrom_cons (line : Int) (c : Char) (rest : List Char) :
    scanFrom line (c :: rest) =
      match cut c rest with
      | .error fault => .error ⟨fault, line⟩
      | .ok (segment, after) =>
        match segment.token? line with
        | .error fault => .error ⟨fault, line⟩
        | .ok token =>
          (scanFrom (line + lineBreaks segment.text) after).map (token.toList ++ ·) := by
  rw [scanFrom]
  split
  · rename_i h
    simp only [h]
  · rename_i segment after h
    simp only [h]
    cases segment.token? line with
    | error fault => rfl
    | ok token => cases scanFrom (line + lineBreaks segment.text) after <;> rfl

theorem scanFrom_newline (line : Int) (b : List Char) :
    scanFrom line ('\n' :: b) = scanFrom (line + 1) b := by
  rw [scanFrom_cons]
  show (scanFrom (line + 1) b).map (fun ts => [] ++ ts) = _
  cases scanFrom (line + 1) b <;> rfl

/-- The first segment of a source, with the rest, and with more lines after it. -/
theorem scanFrom_break_cons {line : Int} {c : Char} {rest after : List Char} {segment : Segment}
    {token : Option Token} (hcut : cut c rest = .ok (segment, after))
    (htoken : segment.token? line = .ok token) (b : List Char) :
    scanFrom line (c :: rest ++ '\n' :: b) =
      (scanFrom (line + lineBreaks segment.text) (after ++ '\n' :: b)).map (token.toList ++ ·) := by
  rw [List.cons_append, scanFrom_cons, cut_break (by rw [hcut]; simp), hcut]
  show (match segment.token? line with | .error fault => _ | .ok token => _) = _
  rw [htoken]

theorem lineBreaks_cut {c : Char} {rest after : List Char} {segment : Segment}
    (h : cut c rest = .ok (segment, after)) :
    lineBreaks (c :: rest) = lineBreaks segment.text + lineBreaks after := by
  obtain ⟨more, htext, rfl⟩ := cut_eq_ok h
  rw [htext, ← lineBreaks_append, List.cons_append]

/-- A source that is scanned ends in one end of source. What comes after it and a line feed is
scanned as if it stood alone, on the next line. -/
theorem scanFrom_break {line : Int} {a : List Char} {ts : List Token}
    (h : scanFrom line a = .ok ts) :
    ∃ us, NoEof us ∧ ts = us ++ [Token.eof (line + lineBreaks a)] ∧
      ∀ b, scanFrom line (a ++ '\n' :: b) =
        (scanFrom (line + lineBreaks a + 1) b).map (us ++ ·) := by
  fun_induction scanFrom line a generalizing ts with
  | case1 line =>
    cases h
    refine ⟨[], by simp [NoEof], by simp, fun b => ?_⟩
    rw [List.nil_append, scanFrom_newline]
    simp only [lineBreaks_nil, Int.natCast_zero, Int.add_zero]
    cases scanFrom (line + 1) b <;> rfl
  | case2 | case3 | case4 => cases h
  | case5 line c rest segment after hcut token htoken tokens hrest ih =>
    cases h
    obtain ⟨us, hus, rfl, hb⟩ := ih hrest
    have hline : line + lineBreaks segment.text + lineBreaks after =
        line + (lineBreaks (c :: rest) : Nat) := by
      rw [lineBreaks_cut hcut]
      omega
    refine ⟨token.toList ++ us, ?_, by rw [hline, List.append_assoc], fun b => ?_⟩
    · intro t ht
      rcases List.mem_append.1 ht with ht | ht
      · rw [Option.mem_toList.1 ht] at htoken
        exact kind_token?_ne_eof htoken
      · exact hus t ht
    · rw [scanFrom_break_cons hcut htoken, hb, hline]
      cases scanFrom (line + lineBreaks (c :: rest) + 1) b with
      | error e => rfl
      | ok more => exact congrArg Except.ok (List.append_assoc _ _ _).symm

/-- A source that fails, but for an open string, fails whatever comes after a line feed. -/
theorem scanFrom_break_error {line : Int} {a : List Char} {e : ScanError}
    (h : scanFrom line a = .error e) (he : e.fault.incomplete = false) (b : List Char) :
    scanFrom line (a ++ '\n' :: b) = .error e := by
  fun_induction scanFrom line a with
  | case1 | case5 => cases h
  | case2 line c rest fault hcut =>
    cases h
    have hne : cut c rest ≠ .error .unterminated := by
      rw [hcut]
      intro hf
      cases hf
      cases he
    rw [List.cons_append, scanFrom_cons, cut_break hne, hcut]
    rfl
  | case3 line c rest segment after hcut fault htoken =>
    cases h
    rw [List.cons_append, scanFrom_cons, cut_break (by rw [hcut]; simp), hcut]
    show (match segment.token? line with | .error fault => _ | .ok token => _) = _
    rw [htoken]
  | case4 line c rest segment after hcut token htoken e' hrest ih =>
    cases h
    rw [scanFrom_break_cons hcut htoken, ih hrest]
    rfl

/-- Where a text starts changes the lines of its tokens and nothing else. -/
theorem scanFrom_shift (k : Int) {line : Int} {a : List Char} {ts : List Token}
    (h : scanFrom line a = .ok ts) :
    scanFrom (line + k) a = .ok (ts.map (Token.relabel (· + k))) := by
  fun_induction scanFrom line a generalizing ts with
  | case1 line =>
    cases h
    rw [scanFrom]
    rfl
  | case2 | case3 | case4 => cases h
  | case5 line c rest segment after hcut token htoken tokens hrest ih =>
    cases h
    rw [scanFrom_cons, hcut]
    show (match segment.token? (line + k) with | .error fault => _ | .ok token => _) = _
    rw [token?_shift, htoken, Int.add_right_comm]
    show (scanFrom (line + lineBreaks segment.text + k) after).map _ = _
    rw [ih hrest, List.map_append]
    cases token <;> rfl

/-! ## The first word of a line -/

/-- The word that a line starts with after blanks; empty if it starts with something else. -/
def firstWord (line : List Char) : List Char := (line.dropWhile isSpace).takeWhile isWordPart

/-- The first segment is a token of the source or is passed over. -/
theorem scanFrom_ok_cons {line : Int} {c : Char} {rest : List Char} {ts : List Token}
    (h : scanFrom line (c :: rest) = .ok ts) :
    ∃ segment after token us, cut c rest = .ok (segment, after) ∧
      segment.token? line = .ok token ∧
      scanFrom (line + lineBreaks segment.text) after = .ok us ∧ ts = token.toList ++ us := by
  rw [scanFrom_cons] at h
  cases hcut : cut c rest with
  | error fault => simp [hcut] at h
  | ok found =>
    obtain ⟨segment, after⟩ := found
    cases htoken : segment.token? line with
    | error fault => simp [hcut, htoken] at h
    | ok token =>
      cases hrest : scanFrom (line + lineBreaks segment.text) after with
      | error e => simp [hcut, htoken, hrest, Except.map] at h
      | ok us =>
        simp only [hcut, htoken, hrest, Except.map, Except.ok.injEq] at h
        exact ⟨segment, after, token, us, rfl, htoken, hrest, h.symm⟩

theorem scanFrom_dropWhile {line : Int} {a : List Char} {ts : List Token}
    (h : scanFrom line a = .ok ts) : ∃ line', scanFrom line' (a.dropWhile isSpace) = .ok ts := by
  cases a with
  | nil => exact ⟨line, h⟩
  | cons c rest =>
    cases hc : isSpace c with
    | false => exact ⟨line, by rwa [List.dropWhile_cons_of_neg (by simp [hc])]⟩
    | true =>
      obtain ⟨segment, after, token, us, hcut, htoken, hrest, rfl⟩ := scanFrom_ok_cons h
      rw [cut_of_isSpace hc] at hcut
      cases hcut
      cases htoken
      rw [List.dropWhile_cons_of_pos hc]
      exact ⟨_, hrest⟩

/-- A token that is a reserved word is the word of its segment. -/
theorem word_of_token? {line : Int} {s : Segment} {t : Token}
    (h : s.token? line = .ok (some t)) (hk : t.kind ∈ Kind.reserved) :
    s.shape = .word ∧ t.kind = Kind.ofWord s.text := by
  unfold token? at h
  cases hs : s.shape <;> simp only [hs] at h
  case word =>
    cases h
    exact ⟨rfl, rfl⟩
  case string =>
    cases h
    simp [Kind.reserved] at hk
  case number =>
    split at h <;> cases h
    simp [Kind.reserved] at hk
  case mark =>
    obtain ⟨kind, hkind, rfl⟩ := Option.map_eq_some_iff.1 (Except.ok.inj h)
    have hmark : ∀ k ∈ Kind.marks, k ∉ Kind.reserved := by decide
    exact absurd hk (hmark kind (Kind.mem_marks_of_ofMark? hkind))
  case comment | newline | blank => cases h

theorem isWordPart_of_isWordStart {c : Char} (h : isWordStart c = true) : isWordPart c = true := by
  simp only [isWordStart, isWordPart, Char.isAlphanum, Bool.or_eq_true] at h ⊢
  exact h.elim (fun h => .inl (.inl h)) .inr

/-- What a segment can be. -/
theorem cut_cases {c : Char} {rest after : List Char} {s : Segment}
    (h : cut c rest = .ok (s, after)) :
    s.shape = .string ∨ s.shape = .number ∨
      s.shape = .mark ∧ (Kind.ofMark? s.text).isSome = true ∨
      isWordStart c = true ∧ (s, after) = run .word isWordPart c rest ∨
      (s, after) = run .comment (· != '\n') c rest ∨ c = '\n' ∨ isSpace c = true := by
  unfold cut at h
  split at h
  · unfold cutString at h
    split at h <;> cases h
    exact .inl rfl
  split at h
  · cases h
    exact .inr (.inl rfl)
  split at h
  · rename_i hc
    exact .inr (.inr (.inr (.inl ⟨hc, (Except.ok.inj h).symm⟩)))
  split at h
  · exact .inr (.inr (.inr (.inr (.inl (Except.ok.inj h).symm))))
  split at h
  · rename_i hc
    exact .inr (.inr (.inr (.inr (.inr (.inl (beq_iff_eq.1 hc))))))
  split at h
  · rename_i hc
    exact .inr (.inr (.inr (.inr (.inr (.inr hc)))))
  cases hmark : cutMark? c rest with
  | none => simp [hmark] at h
  | some found =>
    rw [hmark] at h
    cases h
    unfold cutMark? at hmark
    split at hmark
    · rename_i hk
      cases hmark
      exact .inr (.inr (.inl ⟨rfl, hk⟩))
    · split at hmark <;> cases hmark
      rename_i hk
      exact .inr (.inr (.inl ⟨rfl, hk⟩))

/-- The first token of a line, if it is a reserved word, is the first word of the line; or else the
line has no token. -/
theorem firstWord_of_scan {line : Int} {l r : List Char} (hl : '\n' ∉ l)
    (hr : r = [] ∨ ∃ b, r = '\n' :: b) {t : Token} {ts : List Token}
    (h : scanFrom line (l ++ r) = .ok (t :: ts)) (hk : t.kind ∈ Kind.reserved) :
    Kind.ofWord (firstWord l) = t.kind ∨
      ∃ line' b, r = '\n' :: b ∧ scanFrom line' b = .ok (t :: ts) := by
  have happend : ∀ p : Char → Bool, p '\n' = false → ∀ xs : List Char,
      (xs ++ r).takeWhile p = xs.takeWhile p ∧ (xs ++ r).dropWhile p = xs.dropWhile p ++ r := by
    intro p hp xs
    rcases hr with rfl | ⟨b, rfl⟩
    · simp
    · exact ⟨takeWhile_append_stop hp xs b, dropWhile_append_stop hp xs b⟩
  obtain ⟨line', h⟩ := scanFrom_dropWhile h
  rw [(happend isSpace rfl l).2] at h
  have hl' : '\n' ∉ l.dropWhile isSpace := fun hm => hl ((List.dropWhile_sublist _).mem hm)
  have hhead := List.head?_dropWhile_not isSpace l
  unfold firstWord
  generalize l.dropWhile isSpace = l' at h hl' hhead
  -- what comes after the line's tokens is a line feed or nothing
  have hend : ∀ {line' : Int}, scanFrom line' r = .ok (t :: ts) →
      ∃ line' b, r = '\n' :: b ∧ scanFrom line' b = .ok (t :: ts) := by
    intro line' h
    rcases hr with rfl | ⟨b, rfl⟩
    · rw [scanFrom] at h
      cases h
      simp [Token.eof, Kind.reserved] at hk
    · rw [scanFrom_newline] at h
      exact ⟨_, b, rfl, h⟩
  cases l' with
  | nil => exact .inr (hend h)
  | cons c rest =>
    rw [List.cons_append] at h
    obtain ⟨segment, after, token, us, hcut, htoken, hrest, hts⟩ := scanFrom_ok_cons h
    have hspace : isSpace c = false := hhead
    have hc : c ≠ '\n' := fun hc => hl' (hc ▸ List.mem_cons_self)
    cases token with
    | some t' =>
      cases hts
      obtain ⟨hshape, hkind⟩ := word_of_token? htoken hk
      rcases cut_cases hcut with hs | hs | ⟨hs, -⟩ | ⟨hw, hrun⟩ | hrun | hn | hb
      · simp [hs] at hshape
      · simp [hs] at hshape
      · simp [hs] at hshape
      · cases hrun
        rw [hkind, List.takeWhile_cons_of_pos (isWordPart_of_isWordStart hw),
          ← (happend isWordPart rfl rest).1]
        exact .inl rfl
      · cases hrun
        cases hshape
      · exact absurd hn hc
      · simp [hspace] at hb
    | none =>
      obtain rfl : t :: ts = us := hts
      rcases cut_cases hcut with hs | hs | ⟨hs, hm⟩ | ⟨hw, hrun⟩ | hrun | hn | hb
      · simp [token?, hs] at htoken
      · simp only [token?, hs] at htoken
        split at htoken <;> cases htoken
      · simp only [token?, hs, Except.ok.injEq, Option.map_eq_none_iff] at htoken
        simp [htoken] at hm
      · cases hrun
        cases htoken
      · -- a comment goes on to the end of the line
        cases hrun
        have hall : ∀ x ∈ rest, (x != '\n') = true := by
          intro x hx
          rw [bne_iff_ne]
          rintro rfl
          exact hl' (List.mem_cons_of_mem c hx)
        have hr' : r.dropWhile (· != '\n') = r := (happend (· != '\n') rfl []).2
        rw [List.dropWhile_append_of_pos hall, hr'] at hrest
        exact .inr (hend hrest)
      · exact absurd hn hc
      · simp [hspace] at hb

/-- A text that starts with a reserved word has a line whose first word it is. -/
theorem exists_firstWord {line : Int} {lines : List (List Char)} (hl : ∀ l ∈ lines, '\n' ∉ l)
    {t : Token} {ts : List Token}
    (h : scanFrom line (['\n'].intercalate lines) = .ok (t :: ts))
    (hk : t.kind ∈ Kind.reserved) : ∃ l ∈ lines, Kind.ofWord (firstWord l) = t.kind := by
  induction lines generalizing line with
  | nil =>
    rw [List.intercalate_nil, scanFrom] at h
    cases h
    simp [Token.eof, Kind.reserved] at hk
  | cons l lines ih =>
    obtain ⟨hl₁, hl₂⟩ := List.forall_mem_cons.1 hl
    cases lines with
    | nil =>
      rw [List.intercalate_singleton, ← List.append_nil l] at h
      rcases firstWord_of_scan hl₁ (.inl rfl) h hk with hw | ⟨_, _, hb, -⟩
      · exact ⟨l, List.mem_cons_self, hw⟩
      · cases hb
    | cons l' lines =>
      rw [List.intercalate_cons_cons, List.append_assoc] at h
      rcases firstWord_of_scan hl₁ (.inr ⟨_, rfl⟩) h hk with hw | ⟨_, _, hb, hrest⟩
      · exact ⟨l, List.mem_cons_self, hw⟩
      · cases hb
        obtain ⟨m, hm, hw⟩ := ih hl₂ hrest
        exact ⟨m, List.mem_cons_of_mem l hm, hw⟩

end Lox
