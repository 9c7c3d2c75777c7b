import Lox.Grammar.Calls
import Lox.Proofs.Grammar.Extension

/-!
# Parsing call by call

Whatever calls are made and however they end, the cursor only passes tokens before the first end of
source, and nothing behind that end matters.

`Keeps c x`: from the cursor `c` the parser `x` passes some tokens, none of them an end of source,
and from `c` with everything behind the first end cut off it ends in the same way. Each action and
each rule keeps to this (`keeps_rule`), failures included, and so does each call (`keeps_parse`).

Main statement (`calls_stand`): after any calls the parsing stands on one of its tokens
(`Parsing.Stands`), and the calls are answered as they would be for the tokens up to the first end
of source.
-/

set_option autoImplicit false

namespace Lox

/-! ## Tokens up to the first end of source -/

/-- The tokens up to the first end of source, with it. -/
def upToEnd : List Token → List Token
  | [] => []
  | t :: ts => if t.kind = .eof then [t] else t :: upToEnd ts

theorem upToEnd_append {ts : List Token} (h : NoEof ts) (us : List Token) :
    upToEnd (ts ++ us) = ts ++ upToEnd us := by
  induction ts with
  | nil => rfl
  | cons t ts ih =>
    rw [List.cons_append, upToEnd, if_neg (h t List.mem_cons_self),
      ih (h.suffix (List.suffix_cons t ts))]
    rfl

theorem exists_first_eof {ts : List Token} (h : ∃ t ∈ ts, t.kind = .eof) :
    ∃ before e after, ts = before ++ e :: after ∧ NoEof before ∧ e.kind = .eof := by
  obtain ⟨t, ht, hk⟩ := h
  obtain ⟨e, hfind⟩ := Option.isSome_iff_exists.1
    (List.find?_isSome (p := fun t : Token => t.kind == .eof) |>.2 ⟨t, ht, by simpa using hk⟩)
  obtain ⟨he, before, after, hts, hbefore⟩ := List.find?_eq_some_iff_append.1 hfind
  exact ⟨before, e, after, hts, fun u hu => by simpa using hbefore u hu, by simpa using he⟩

theorem findIdx_eof {before after : List Token} {e : Token} (h : NoEof before)
    (he : e.kind = .eof) : (before ++ e :: after).findIdx (·.kind == .eof) = before.length := by
  have hbefore : before.findIdx (·.kind == .eof) = before.length :=
    List.findIdx_eq_length_of_false fun t ht => by simpa using h t ht
  rw [List.findIdx_append, hbefore, if_neg (Nat.lt_irrefl _), List.findIdx_cons]
  simp [he]

namespace Cursor

/-- The cursor with everything behind the first end of source cut off. -/
def cut (c : Cursor) : Cursor :=
  ⟨c.current, if c.current.kind = .eof then [] else upToEnd c.rest⟩

theorem ahead_cut (c : Cursor) : c.cut.ahead = upToEnd c.ahead := by
  rw [ahead, ahead, upToEnd, cut]
  split <;> rfl

theorem advance_cut (c : Cursor) : c.cut.advance = c.advance.cut := by
  obtain ⟨t, ts⟩ := c
  by_cases ht : t.kind = .eof
  · simp only [cut, advance, ht, if_true]
  · cases ts with
    | nil => simp only [cut, advance, ht, if_false, upToEnd]
    | cons u us =>
      by_cases hu : u.kind = .eof
      · simp only [cut, advance, ht, hu, if_false, if_true, upToEnd]
      · simp only [cut, advance, ht, hu, if_false, upToEnd]

theorem Closed.cut {c : Cursor} (hc : c.Closed) : c.cut.Closed := by
  obtain ⟨before, e, after, hahead, hbefore, he⟩ := exists_first_eof hc
  refine ⟨e, ?_, he⟩
  rw [ahead_cut, hahead, upToEnd_append hbefore, upToEnd, if_pos he]
  simp

end Cursor

namespace Parse

open Cursor

/-! ## Actions -/

/-- The end of a run from `c`, and the end of the run without what is behind the first end of
source. -/
inductive Kept (c : Cursor) {α : Type} :
    EStateM.Result ParseFailure Cursor α → EStateM.Result ParseFailure Cursor α → Prop
  | ok {a : α} {ts : List Token} {d : Cursor} (h : c.Passes ts d) : Kept c (.ok a d) (.ok a d.cut)
  | error {f : ParseFailure} {ts : List Token} {d : Cursor} (h : c.Passes ts d) :
      Kept c (.error f d) (.error f d.cut)

def Keeps (c : Cursor) {α : Type} (x : Parse α) : Prop := Kept c (x c) (x c.cut)

namespace Keeps

variable {c : Cursor} {α β : Type}

theorem of_eq {x y : Parse α} (h : x c = y c) (h' : x c.cut = y c.cut) (hy : Keeps c y) :
    Keeps c x := by
  unfold Keeps
  rw [h, h']
  exact hy

theorem pure (a : α) : Keeps c (Pure.pure a) := .ok (.refl c)

theorem current : Keeps c current := .ok (.refl c)

theorem check (kind : Kind) : Keeps c (check kind) := .ok (.refl c)

theorem reject (fault : ParseFault) : Keeps c (reject fault : Parse α) := .error (.refl c)

theorem rejectAt (fault : ParseFault) (t : Token) : Keeps c (rejectAt fault t : Parse α) :=
  .error (.refl c)

theorem tooDeep : Keeps c (tooDeep : Parse α) := .error (.refl c)

theorem bind {x : Parse α} {f : α → Parse β} (hc : c.Closed) (hx : Keeps c x)
    (hf : ∀ a d, d.Closed → x c = .ok a d → Keeps d (f a)) : Keeps c (x >>= f) := by
  unfold Keeps at hx ⊢
  rw [bind_eq, bind_eq]
  generalize hr : x c = r at hx
  generalize x c.cut = r' at hx
  cases hx with
  | error h => exact .error h
  | @ok a ts d h =>
    have hnext := hf a d (h.closed hc) hr
    unfold Keeps at hnext
    show Kept c (f a d) (f a d.cut)
    generalize f a d = r at hnext
    generalize f a d.cut = r' at hnext
    cases hnext with
    | ok h' => exact .ok (h.trans h')
    | error h' => exact .error (h.trans h')

theorem advance (hc : c.Closed) : Keeps c advance := by
  show Kept c (.ok c.current c.advance) (.ok c.current c.cut.advance)
  rw [advance_cut]
  by_cases hk : c.current.kind = .eof
  · have hstay : c.advance = c := by rw [Cursor.advance, if_pos hk]
    rw [hstay]
    exact .ok (.refl c)
  · exact .ok (.step hc hk)

theorem eat (hc : c.Closed) (kind : Kind) (context : String) : Keeps c (eat kind context) := by
  refine bind hc (check kind) fun b d hd _ => ?_
  split
  · exact advance hd
  · exact reject _

/-! ## Loops -/

theorem joined (l : Level) {p : Parse Node} (hadv : Advancing p)
    (hp : ∀ c : Cursor, c.Closed → Keeps c p) (hc : c.Closed) (left : Node) :
    Keeps c (joined l p left) := by
  -- on the number of tokens ahead: each round passes an operator
  obtain ⟨k, hk⟩ : ∃ k, c.rest.length < k := ⟨_, Nat.lt_succ_self _⟩
  induction k generalizing c left with
  | zero => omega
  | succ k ih =>
    refine of_eq (joined_unroll hadv l left hc) (joined_unroll hadv l left hc.cut) ?_
    refine bind hc current fun mark d _ hmark => ?_
    obtain ⟨rfl, rfl⟩ := current_ok_iff.1 hmark
    cases hop : l.op? c.current.kind with
    | none => exact pure left
    | some op =>
      have hne : c.current.kind ≠ .eof := by
        intro he
        rw [he, op?_eof] at hop
        cases hop
      refine bind hc (advance hc) fun _ d hd hnext => ?_
      obtain ⟨-, rfl⟩ := advance_ok_iff.1 hnext
      have hlen := (Passes.step hc hne).length
      refine bind hd (hp _ hd) fun right d' hd' hright => ih hd' _ ?_
      obtain ⟨t, ts, hpass⟩ := hadv hd hright
      have hlen' := hpass.length
      simp only [List.length_cons, List.length_nil] at hlen hlen'
      omega

theorem items {p : Parse Node} (hadv : Advancing p) (hp : ∀ c : Cursor, c.Closed → Keeps c p)
    {stop : Kind → Bool} (hstop : stop .eof = true) (hc : c.Closed) : Keeps c (items p stop) := by
  -- on the number of tokens ahead: each item passes at least one
  obtain ⟨k, hk⟩ : ∃ k, c.rest.length < k := ⟨_, Nat.lt_succ_self _⟩
  induction k generalizing c with
  | zero => omega
  | succ k ih =>
    refine of_eq (items_unroll hadv hstop hc) (items_unroll hadv hstop hc.cut) ?_
    refine bind hc current fun token d hd htoken => ?_
    obtain ⟨-, rfl⟩ := current_ok_iff.1 htoken
    split
    · exact pure []
    · refine bind hc (hp c hc) fun first d hd hfirst => ?_
      obtain ⟨t, ts, hpass⟩ := hadv hc hfirst
      have hlen := hpass.length
      rw [List.length_cons] at hlen
      exact bind hd (ih hd (by omega)) fun others _ _ _ => pure (first :: others)

end Keeps

/-! ## Rules -/

theorem keeps_rule (n : Nat) (r : Rule) {c : Cursor} (hc : c.Closed) : Keeps c (rule n r) := by
  induction n generalizing r c with
  | zero => exact .tooDeep
  | succ n ih =>
    cases r with
    | declaration =>
      refine .bind hc (.check _) fun b d hd _ => ?_
      split
      · exact ih _ hd
      · exact ih _ hd
    | varDecl =>
      refine .bind hc (.eat hc _ _) fun _ _ h₁ _ => .bind h₁ (.eat h₁ _ _) fun name _ h₂ _ =>
        .bind h₂ (.check _) fun b _ h₃ _ => ?_
      split
      · exact .bind h₃ (.advance h₃) fun _ _ h₄ _ => .bind h₄ (ih _ h₄) fun _ _ h₅ _ =>
          .bind h₅ (.eat h₅ _ _) fun _ _ _ _ => .pure _
      · exact .bind h₃ (.eat h₃ _ _) fun _ _ _ _ => .pure _
    | statement =>
      refine .bind hc .current fun token d hd _ => ?_
      cases token.kind <;> exact ih _ hd
    | block =>
      rw [rule_block]
      refine .bind hc (.eat hc _ _) fun token _ h₁ _ => ?_
      refine .bind h₁ (.items (rule_advancing n _) (fun _ => ih _) rfl h₁) fun as _ h₂ _ => ?_
      exact .bind h₂ (.eat h₂ _ _) fun _ _ _ _ => .pure _
    | print =>
      exact .bind hc (.eat hc _ _) fun token _ h₁ _ => .bind h₁ (ih _ h₁) fun _ _ h₂ _ =>
        .bind h₂ (.eat h₂ _ _) fun _ _ _ _ => .pure _
    | ifElse =>
      refine .bind hc (.eat hc _ _) fun token _ h₁ _ => .bind h₁ (.eat h₁ _ _) fun _ _ h₂ _ =>
        .bind h₂ (ih _ h₂) fun _ _ h₃ _ => .bind h₃ (.eat h₃ _ _) fun _ _ h₄ _ =>
          .bind h₄ (ih _ h₄) fun _ _ h₅ _ => .bind h₅ (.check _) fun b _ h₆ _ => ?_
      split
      · exact .bind h₆ (.advance h₆) fun _ _ h₇ _ => .bind h₇ (ih _ h₇) fun _ _ _ _ => .pure _
      · exact .pure _
    | whileLoop =>
      exact .bind hc (.eat hc _ _) fun token _ h₁ _ => .bind h₁ (.eat h₁ _ _) fun _ _ h₂ _ =>
        .bind h₂ (ih _ h₂) fun _ _ h₃ _ => .bind h₃ (.eat h₃ _ _) fun _ _ h₄ _ =>
          .bind h₄ (ih _ h₄) fun _ _ _ _ => .pure _
    | exprStmt =>
      exact .bind hc .current fun token _ h₁ _ => .bind h₁ (ih _ h₁) fun _ _ h₂ _ =>
        .bind h₂ (.eat h₂ _ _) fun _ _ _ _ => .pure _
    | expr => exact ih _ hc
    | assignment =>
      refine .bind hc (ih _ hc) fun target _ h₁ _ => .bind h₁ (.check _) fun b _ h₂ _ => ?_
      split
      · refine .bind h₂ (.advance h₂) fun equals _ h₃ _ => .bind h₃ (ih _ h₃) fun value _ _ _ => ?_
        split
        · exact .pure _
        · exact .rejectAt _ equals
      · exact .pure target
    | level l =>
      rw [rule_level]
      exact .bind hc (ih _ hc) fun left _ h₁ _ =>
        .joined l (rule_advancing n _) (fun _ => ih _) h₁ left
    | unary =>
      refine .bind hc .current fun mark _ h₁ _ => ?_
      cases Op.ofUnary? mark.kind with
      | none => exact ih _ h₁
      | some op =>
        exact .bind h₁ (.advance h₁) fun _ _ h₂ _ => .bind h₂ (ih _ h₂) fun _ _ _ _ => .pure _
    | primary =>
      refine .bind hc .current fun token _ h₁ _ => ?_
      cases token.kind with
      | number | string | trueWord | falseWord | nilWord | identifier =>
        exact .bind h₁ (.advance h₁) fun _ _ _ _ => .pure _
      | leftParen =>
        exact .bind h₁ (.advance h₁) fun _ _ h₂ _ => .bind h₂ (ih _ h₂) fun _ _ h₃ _ =>
          .bind h₃ (.eat h₃ _ _) fun _ _ _ _ => .pure _
      | _ => exact .reject _

theorem keeps_topLevel (n : Nat) {c : Cursor} (hc : c.Closed) : Keeps c (topLevel n) := by
  have hrule := keeps_rule n .declaration hc
  unfold Keeps at hrule ⊢
  rw [topLevel_eq, topLevel_eq]
  generalize rule n .declaration c = r at hrule
  generalize rule n .declaration c.cut = r' at hrule
  cases hrule with
  | ok h => exact .ok h
  | error h => exact .error h

theorem keeps_program (n : Nat) {c : Cursor} (hc : c.Closed) : Keeps c (program n) := by
  rw [program_eq]
  exact .items (topLevel_advancing n) (fun _ => keeps_topLevel n) rfl hc

end Parse

/-! ## Calls -/

namespace Parsing

open Cursor

/-- The parsing after calls made one after the other. -/
def after (p : Parsing) (calls : List Call) : Parsing :=
  calls.foldl (fun p call => (p.call call).2) p

/-- What calls made one after the other reply, each with the position that it leaves. -/
def replies (p : Parsing) : List Call → List (Except ParseFailure Reply × Nat)
  | [] => []
  | call :: calls => ((p.call call).1, (p.call call).2.position) :: (p.call call).2.replies calls

/-- The parsing with everything behind the first end of source cut off. -/
def cut (p : Parsing) : Parsing := ⟨upToEnd p.tokens, p.cursor.cut⟩

/-- The tokens before the current one are `before`, and the first end of source is still ahead. -/
structure Past (before : List Token) (p : Parsing) : Prop where
  tokens : p.tokens = before ++ p.cursor.ahead
  noEof : NoEof before
  closed : p.cursor.Closed

theorem keeps_parse (call : Call) {c : Cursor} (hc : c.Closed) : Parse.Keeps c call.parse := by
  cases call with
  | check kinds => exact .bind hc .current fun _ _ _ _ => .pure _
  | advance => exact .bind hc (.advance hc) fun _ _ _ _ => .pure _
  | eat kind context => exact .bind hc (.eat hc kind context) fun _ _ _ _ => .pure _
  | complain text token? =>
    cases token? with
    | none => exact .bind hc .current fun _ _ _ _ => .pure _
    | some token => exact .pure _
  | program => exact .bind hc (Parse.keeps_program _ hc) fun _ _ _ _ => .pure _
  | rule r => exact .bind hc (Parse.keeps_rule _ r hc) fun _ _ _ _ => .pure _

theorem past_start (tokens : List Token) : Past [] (start tokens) :=
  ⟨(ahead_start tokens).symm, fun _ h => (by cases h), closed_start tokens⟩

namespace Past

variable {p : Parsing} {before : List Token}

theorem position_eq (h : Past before p) : p.position = before.length := by
  rw [position, h.tokens, List.length_append, Nat.add_sub_cancel]

theorem findIdx_eq (h : Past before p) {ts : List Token} {d : Cursor}
    (hp : p.cursor.Passes ts d) (hd : d.current.kind = .eof) :
    p.tokens.findIdx (·.kind == .eof) = (before ++ ts).length := by
  have hnoEof : NoEof (before ++ ts) := List.forall_mem_append.2 ⟨h.noEof, hp.noEof⟩
  rw [h.tokens, hp.ahead, ← List.append_assoc]
  exact findIdx_eof hnoEof hd

/-- A call passes tokens before the first end of source and does not see what is behind that. -/
theorem call (h : Past before p) (call : Call) :
    ∃ ts, p.cursor.Passes ts (p.call call).2.cursor ∧ Past (before ++ ts) (p.call call).2 ∧
      p.cut.call call = ((p.call call).1, (p.call call).2.cut) := by
  have hkeeps := keeps_parse call h.closed
  unfold Parse.Keeps at hkeeps
  unfold Parsing.call cut
  generalize call.parse p.cursor = r at hkeeps
  generalize call.parse p.cursor.cut = r' at hkeeps
  have hpast : ∀ {ts : List Token} {d : Cursor}, p.cursor.Passes ts d →
      Past (before ++ ts) { p with cursor := d } := fun hp =>
    ⟨by rw [List.append_assoc, ← hp.ahead, h.tokens],
      List.forall_mem_append.2 ⟨h.noEof, hp.noEof⟩, hp.closed h.closed⟩
  cases hkeeps with
  | ok hp => exact ⟨_, hp, hpast hp, rfl⟩
  | error hp => exact ⟨_, hp, hpast hp, rfl⟩

theorem cut (h : Past before p) : Past before p.cut where
  tokens := by
    show upToEnd p.tokens = before ++ p.cursor.cut.ahead
    rw [h.tokens, upToEnd_append h.noEof, ahead_cut]
  noEof := h.noEof
  closed := h.closed.cut

/-- What is behind the first end of source changes neither replies nor positions. -/
theorem replies_cut (h : Past before p) (calls : List Call) : p.cut.replies calls = p.replies calls := by
  induction calls generalizing p before with
  | nil => rfl
  | cons call calls ih =>
    obtain ⟨ts, -, hnext, hcut⟩ := h.call call
    rw [replies, replies, hcut, ih hnext, hnext.cut.position_eq, hnext.position_eq]

theorem after (h : Past before p) (calls : List Call) :
    ∃ ts, Past (before ++ ts) (p.after calls) := by
  induction calls generalizing p before with
  | nil => exact ⟨[], by rwa [List.append_nil]⟩
  | cons call calls ih =>
    obtain ⟨ts, -, hnext, -⟩ := h.call call
    obtain ⟨us, hafter⟩ := ih hnext
    exact ⟨ts ++ us, by rwa [← List.append_assoc]⟩

end Past

theorem tokens_call (p : Parsing) (call : Call) : (p.call call).2.tokens = p.tokens := by
  unfold Parsing.call
  cases call.parse p.cursor <;> rfl

theorem tokens_after (p : Parsing) (calls : List Call) : (p.after calls).tokens = p.tokens := by
  induction calls generalizing p with
  | nil => rfl
  | cons call calls ih => rw [after, List.foldl_cons, ← after, ih, tokens_call]

/-- Tokens are passed by moving past them one by one. -/
theorem eq_after_advances {p q : Parsing} {ts : List Token} (htokens : q.tokens = p.tokens)
    (h : p.cursor.Passes ts q.cursor) : q = p.after (List.replicate ts.length .advance) := by
  induction ts generalizing p with
  | nil =>
    obtain ⟨tokens, c⟩ := p
    obtain ⟨tokens', d⟩ := q
    obtain rfl : c = d := h.eq_of_nil
    obtain rfl : tokens' = tokens := htokens
    rfl
  | cons t ts ih => exact ih (p := (p.call .advance).2) htokens h.uncons.2

theorem current_of_program {p : Parsing} (hc : p.cursor.Closed) {reply : Reply}
    (h : (p.call .program).1 = .ok reply) : (p.call .program).2.cursor.current.kind = .eof := by
  unfold Parsing.call at h ⊢
  cases hr : Call.program.parse p.cursor with
  | error f d =>
    rw [hr] at h
    cases h
  | ok reply d =>
    obtain ⟨nodes, m, hprogram, hpure⟩ := Parse.bind_ok_iff.1 hr
    obtain ⟨-, -, -, -, hd⟩ := Parse.program_sound hc hprogram
    obtain ⟨-, rfl⟩ := Parse.pure_ok_iff.1 hpure
    exact hd

theorem start_upToEnd (tokens : List Token) :
    start (upToEnd (close tokens)) = (start tokens).cut := by
  have hend : ∃ t ∈ close tokens, t.kind = .eof := by
    rw [← ahead_start]
    exact closed_start tokens
  obtain ⟨before, e, behind, hclose, hbefore, he⟩ := exists_first_eof hend
  have hcut : upToEnd (close tokens) = before ++ [e] := by
    rw [hclose, upToEnd_append hbefore, upToEnd, if_pos he]
  have hcursor : Cursor.start (before ++ [e]) = (Cursor.start tokens).cut :=
    eq_of_ahead (by rw [ahead_start, close_append he, ahead_cut, ahead_start, hcut])
  rw [hcut, start, close_append he, hcursor, cut, ← hcut]
  rfl

/-! ## Where a parsing stands -/

/-- A parsing of `tokens` stands on one of them, no later than the first end of source, and a token
that is no end of source has another one after it. -/
structure Stands (tokens : List Token) (p : Parsing) : Prop where
  list : p.tokens = close tokens
  closed : ∃ e, p.tokens.getLast? = some e ∧ e.kind = .eof
  inside : p.position < p.tokens.length
  current : p.tokens[p.position]? = some p.cursor.current
  notPast : p.position ≤ p.tokens.findIdx (·.kind == .eof)
  next : p.cursor.current.kind ≠ .eof → p.position + 1 < p.tokens.length

theorem exists_getLast?_close (tokens : List Token) :
    ∃ e, (close tokens).getLast? = some e ∧ e.kind = .eof := by
  unfold close
  split
  · exact ⟨_, rfl, rfl⟩
  · rename_i last hlast
    split
    · rename_i hk
      exact ⟨last, hlast, hk⟩
    · exact ⟨_, List.getLast?_concat, rfl⟩

theorem Past.stands {p : Parsing} {before tokens : List Token} (h : Past before p)
    (hlist : p.tokens = close tokens) : p.Stands tokens := by
  obtain ⟨ts, e, behind, hahead, hts, he⟩ := exists_first_eof h.closed
  have hend : p.cursor.Passes ts ⟨e, behind⟩ := ⟨hahead, hts⟩
  have hlength : p.tokens.length = before.length + (p.cursor.rest.length + 1) := by
    rw [h.tokens, List.length_append]
    rfl
  refine ⟨hlist, ?_, ?_, ?_, ?_, fun hk => ?_⟩
  · rw [hlist]
    exact exists_getLast?_close tokens
  · rw [h.position_eq]
    omega
  · rw [h.position_eq, h.tokens, List.getElem?_append_right (Nat.le_refl _), Nat.sub_self]
    rfl
  · rw [h.position_eq, h.findIdx_eq hend he, List.length_append]
    omega
  · -- a cursor that is not at the end of source has a next token
    have hnext := (Passes.step h.closed hk).length
    rw [List.length_singleton] at hnext
    rw [h.position_eq]
    omega

/-- After any calls, failed ones among them, the parsing stands on a token up to the first end of
source. A call only moves past tokens, one by one; parsing a program to its end stops at the first
end of source. All replies and positions are those for the tokens up to the first end of source. -/
theorem calls_stand (tokens : List Token) (calls : List Call) :
    let p := (start tokens).after calls
    p.Stands tokens ∧
      (∀ call, ∃ k, (p.call call).2 = p.after (List.replicate k .advance) ∧
        (p.call call).2.position = p.position + k) ∧
      (∀ reply, (p.call .program).1 = .ok reply →
        (p.call .program).2.position = p.tokens.findIdx (·.kind == .eof)) ∧
      (start tokens).replies calls = (start (upToEnd (close tokens))).replies calls := by
  intro p
  obtain ⟨before, hpast⟩ := (past_start tokens).after calls
  rw [List.nil_append] at hpast
  refine ⟨hpast.stands (tokens_after _ calls), fun call => ?_, fun reply hreply => ?_, ?_⟩
  · obtain ⟨ts, hpass, hnext, -⟩ := hpast.call call
    refine ⟨ts.length, eq_after_advances (tokens_call p call) hpass, ?_⟩
    rw [hnext.position_eq, hpast.position_eq, List.length_append]
  · obtain ⟨ts, hpass, hnext, -⟩ := hpast.call .program
    rw [hnext.position_eq, hpast.findIdx_eq hpass (current_of_program hpast.closed hreply)]
  · rw [start_upToEnd, (past_start tokens).replies_cut]

end Parsing

end Lox
