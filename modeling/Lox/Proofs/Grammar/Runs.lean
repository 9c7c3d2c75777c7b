import Lox.Grammar.Rule

/-!
# Runs of the parser

What it takes for a sequence of parser actions to succeed or to fail (`bind_ok_iff`,
`bind_error_iff`), and what a cursor passes on the way (`Cursor.Passes`). Where the grammar chooses or
loops, rules are restated without it (`rule_statement`, `rule_level`, `rule_block`). The two loops of
the grammar take the tokens ahead as their bound; `joined_eq` and `items_eq` unfold them without it,
for operands and items that move the cursor (`Advancing`).
-/

set_option autoImplicit false

namespace Lox

/-- No token is an end of source. -/
def NoEof (ts : List Token) : Prop := ∀ t ∈ ts, t.kind ≠ .eof

theorem NoEof.suffix {ts us : List Token} (h : NoEof ts) (hs : us <:+ ts) : NoEof us :=
  fun t ht => h t (hs.subset ht)

/-- The first end of source divides tokens in one way. -/
theorem NoEof.eq_of_append {ts us xs ys : List Token} {t u : Token} (ht : NoEof ts) (hu : NoEof us)
    (hkt : t.kind = .eof) (hku : u.kind = .eof) (h : ts ++ t :: xs = us ++ u :: ys) : ts = us := by
  induction ts generalizing us with
  | nil =>
    cases us with
    | nil => rfl
    | cons v us =>
      obtain ⟨rfl, -⟩ := List.cons.inj h
      exact absurd hkt (hu _ List.mem_cons_self)
  | cons v ts ih =>
    cases us with
    | nil =>
      obtain ⟨rfl, -⟩ := List.cons.inj h
      exact absurd hku (ht _ List.mem_cons_self)
    | cons w us =>
      obtain ⟨rfl, htail⟩ := List.cons.inj h
      rw [ih (ht.suffix (List.suffix_cons _ _)) (hu.suffix (List.suffix_cons _ _)) htail]

/-! ## Cursors -/

namespace Cursor

/-- An end of source is ahead, where the cursor will stay. -/
def Closed (c : Cursor) : Prop := ∃ t ∈ c.ahead, t.kind = .eof

/-- From `c` the cursor moves over the tokens `ts`, none of them an end of source, to `d`. -/
structure Passes (c : Cursor) (ts : List Token) (d : Cursor) : Prop where
  ahead : c.ahead = ts ++ d.ahead
  noEof : NoEof ts

theorem eq_of_ahead {c d : Cursor} (h : c.ahead = d.ahead) : c = d := by
  obtain ⟨t, ts⟩ := c
  obtain ⟨u, us⟩ := d
  simpa [ahead] using h

theorem close_ne_nil (tokens : List Token) : close tokens ≠ [] := by
  unfold close
  split
  · simp
  · rename_i last h
    split
    · rintro rfl
      simp at h
    · simp

theorem ahead_start (tokens : List Token) : (start tokens).ahead = close tokens := by
  unfold start
  split
  · rename_i h
    exact absurd h (close_ne_nil tokens)
  · rename_i h
    rw [h]; rfl

/-- Tokens that end in an end of source stay as they are. -/
theorem close_append {e : Token} (he : e.kind = .eof) (ts : List Token) :
    close (ts ++ [e]) = ts ++ [e] := by
  simp [close, he]

theorem closed_start (tokens : List Token) : (start tokens).Closed := by
  rw [Closed, ahead_start]
  unfold close
  split
  · exact ⟨_, List.mem_singleton_self _, rfl⟩
  · rename_i last h
    split
    · exact ⟨last, List.mem_of_getLast? h, ‹_›⟩
    · exact ⟨_, List.mem_append_right _ (List.mem_singleton_self _), rfl⟩

/-- A closed cursor that is not at the end of source has a next token. -/
theorem Closed.ahead_eq {c : Cursor} (hc : c.Closed) (h : c.current.kind ≠ .eof) :
    c.ahead = c.current :: c.advance.ahead := by
  obtain ⟨t, ts⟩ := c
  cases ts with
  | nil =>
    obtain ⟨u, hu, hk⟩ := hc
    rw [List.mem_singleton.1 hu] at hk
    exact absurd hk h
  | cons u us => simp only [advance, if_neg h]; rfl

namespace Passes

variable {c d e : Cursor} {ts us : List Token} {t : Token}

theorem refl (c : Cursor) : Passes c [] c := ⟨rfl, by simp [NoEof]⟩

theorem trans (h₁ : Passes c ts d) (h₂ : Passes d us e) : Passes c (ts ++ us) e := by
  refine ⟨by rw [h₁.ahead, h₂.ahead, List.append_assoc], fun t ht => ?_⟩
  rcases List.mem_append.1 ht with ht | ht
  · exact h₁.noEof t ht
  · exact h₂.noEof t ht

theorem step (hc : c.Closed) (h : c.current.kind ≠ .eof) : Passes c [c.current] c.advance :=
  ⟨hc.ahead_eq h, by simpa [NoEof] using h⟩

theorem closed (h : Passes c ts d) (hc : c.Closed) : d.Closed := by
  obtain ⟨t, ht, hk⟩ := hc
  rw [h.ahead] at ht
  rcases List.mem_append.1 ht with ht | ht
  · exact absurd hk (h.noEof t ht)
  · exact ⟨t, ht, hk⟩

theorem closed_of (h : Passes c ts d) (hd : d.Closed) : c.Closed := by
  obtain ⟨t, ht, hk⟩ := hd
  exact ⟨t, by rw [h.ahead]; exact List.mem_append_right _ ht, hk⟩

theorem eq_of_nil (h : Passes c [] d) : c = d := eq_of_ahead h.ahead

theorem uncons (h : Passes c (t :: ts) d) : c.current = t ∧ Passes c.advance ts d := by
  obtain ⟨t', rest⟩ := c
  obtain ⟨h, hn⟩ := h
  obtain ⟨ht, hr⟩ : t' = t ∧ rest = ts ++ d.ahead := by simpa [Cursor.ahead] using h
  have hk : t'.kind ≠ .eof := ht ▸ hn t List.mem_cons_self
  refine ⟨ht, ?_, fun u hu => hn u (List.mem_cons_of_mem _ hu)⟩
  cases rest with
  | nil => simp [Cursor.ahead] at hr
  | cons u us => rw [← hr, advance, if_neg hk]; rfl

theorem split (h : Passes c (ts ++ us) e) : ∃ d, Passes c ts d ∧ Passes d us e := by
  have hne : us ++ e.ahead ≠ [] := by simp [Cursor.ahead]
  obtain ⟨t, rest, ht⟩ := List.exists_cons_of_ne_nil hne
  refine ⟨⟨t, rest⟩, ⟨?_, fun t ht => h.noEof t (List.mem_append_left _ ht)⟩,
    ⟨ht.symm, fun t ht => h.noEof t (List.mem_append_right _ ht)⟩⟩
  rw [h.ahead, List.append_assoc, ht]; rfl

theorem length (h : Passes c ts d) : c.rest.length = ts.length + d.rest.length := by
  have := congrArg List.length h.ahead
  simp only [Cursor.ahead, List.length_cons, List.length_append] at this
  omega

end Passes

end Cursor

/-- The rule of a statement that starts with a token of kind `k`. -/
def Rule.formOf (k : Kind) : Rule :=
  match k with
  | .ifWord => .ifElse
  | .whileWord => .whileLoop
  | .leftBrace => .block
  | .printWord => .print
  | _ => .exprStmt

/-! ## Actions -/

namespace Parse

section
variable {α β : Type} {c d : Cursor} {kind : Kind} {context : String}

theorem bind_eq (x : Parse α) (f : α → Parse β) (c : Cursor) :
    (x >>= f) c = match x c with
      | .ok a d => f a d
      | .error e d => .error e d := by
  change EStateM.bind x f c = _
  unfold EStateM.bind
  cases x c <;> rfl

theorem bind_of_ok {x : Parse α} {f : α → Parse β} {a : α} (h : x c = .ok a d) :
    (x >>= f) c = f a d := by
  rw [bind_eq, h]

theorem bind_of_error {x : Parse α} {f : α → Parse β} {e : ParseFailure}
    (h : x c = .error e d) : (x >>= f) c = .error e d := by
  rw [bind_eq, h]

theorem bind_ok_iff {x : Parse α} {f : α → Parse β} {b : β} :
    (x >>= f) c = .ok b d ↔ ∃ a m, x c = .ok a m ∧ f a m = .ok b d := by
  rw [bind_eq]
  cases x c with
  | ok a m =>
    constructor
    · exact fun h => ⟨a, m, rfl, h⟩
    · rintro ⟨_, _, h, h'⟩
      cases h
      exact h'
  | error e m => simp

theorem bind_error_iff {x : Parse α} {f : α → Parse β} {e : ParseFailure} :
    (x >>= f) c = .error e d ↔
      x c = .error e d ∨ ∃ a m, x c = .ok a m ∧ f a m = .error e d := by
  rw [bind_eq]
  cases x c with
  | ok a m =>
    exact ⟨fun h => .inr ⟨a, m, rfl, h⟩, fun h => by
      obtain h | ⟨_, _, h, h'⟩ := h
      · cases h
      · cases h; exact h'⟩
  | error e m => simp

theorem pure_ok_iff {a b : α} : (pure a : Parse α) c = .ok b d ↔ b = a ∧ d = c :=
  ⟨fun h => by cases h; exact ⟨rfl, rfl⟩, by rintro ⟨rfl, rfl⟩; rfl⟩

theorem current_ok_iff {t : Token} : current c = .ok t d ↔ t = c.current ∧ c = d :=
  ⟨fun h => by cases h; exact ⟨rfl, rfl⟩, by rintro ⟨rfl, rfl⟩; rfl⟩

theorem check_ok_iff {b : Bool} :
    check kind c = .ok b d ↔ b = (c.current.kind == kind) ∧ c = d :=
  ⟨fun h => by cases h; exact ⟨rfl, rfl⟩, by rintro ⟨rfl, rfl⟩; rfl⟩

theorem advance_ok_iff {t : Token} : advance c = .ok t d ↔ t = c.current ∧ d = c.advance :=
  ⟨fun h => by cases h; exact ⟨rfl, rfl⟩, by rintro ⟨rfl, rfl⟩; rfl⟩

theorem eat_eq (kind : Kind) (context : String) (c : Cursor) :
    eat kind context c =
      if c.current.kind = kind then .ok c.current c.advance
      else .error (.rejected ⟨.expected kind context, c.current⟩) c := by
  change (if (c.current.kind == kind) = true then advance else reject _) c = _
  by_cases h : c.current.kind = kind
  · rw [if_pos (beq_iff_eq.2 h), if_pos h]; rfl
  · rw [if_neg (fun hb => h (beq_iff_eq.1 hb)), if_neg h]; rfl

theorem eat_ok_iff {t : Token} :
    eat kind context c = .ok t d ↔ c.current.kind = kind ∧ t = c.current ∧ d = c.advance := by
  rw [eat_eq]
  split
  · rename_i h
    simp only [h, true_and]
    exact advance_ok_iff
  · rename_i h
    simp [h]

theorem eat_error_iff {e : ParseFailure} :
    eat kind context c = .error e d ↔
      c.current.kind ≠ kind ∧ e = .rejected ⟨.expected kind context, c.current⟩ ∧ d = c := by
  rw [eat_eq]
  split
  · rename_i h
    simp [h]
  · rename_i h
    simp only [EStateM.Result.error.injEq, ne_eq, h, not_false_iff, true_and]
    rw [eq_comm, eq_comm (a := c)]

theorem reject_error_iff {fault : ParseFault} {e : ParseFailure} :
    (reject fault : Parse α) c = .error e d ↔ e = .rejected ⟨fault, c.current⟩ ∧ d = c :=
  ⟨fun h => by cases h; exact ⟨rfl, rfl⟩, by rintro ⟨rfl, rfl⟩; rfl⟩

end

/-! ## Loops -/

/-- Operators and operands of a level after the operand `left`, up to the first token that is no
operator of the level. -/
def joined (l : Level) (operand : Parse Node) (left : Node) : Parse Node := fun c =>
  chain l operand c.rest left c

/-- Items up to a token that `stop` tells. -/
def items (item : Parse Node) (stop : Kind → Bool) : Parse (List Node) := fun c =>
  many item stop c.rest c

/-- Success moves the cursor over at least one token. -/
def Advancing (p : Parse Node) : Prop :=
  ∀ ⦃c d : Cursor⦄ ⦃a : Node⦄, c.Closed → p c = .ok a d → ∃ t ts, c.Passes (t :: ts) d

theorem joined_def (l : Level) (operand : Parse Node) (left : Node) (c : Cursor) :
    joined l operand left c = chain l operand c.rest left c := rfl

theorem items_def (item : Parse Node) (stop : Kind → Bool) (c : Cursor) :
    items item stop c = many item stop c.rest c := rfl

/-- The kinds that the statements of a block end at. -/
def endsBlock (k : Kind) : Bool := k == .rightBrace || k == .eof

theorem rule_statement (n : Nat) (c : Cursor) :
    rule (n + 1) .statement c = rule n (Rule.formOf c.current.kind) c := by
  rw [rule, bind_of_ok (current_ok_iff.2 ⟨rfl, rfl⟩)]
  cases c.current.kind <;> rfl

theorem rule_level (n : Nat) (l : Level) :
    rule (n + 1) (.level l) = rule n l.operand >>= joined l (rule n l.operand) := by
  funext c
  rw [rule, bind_eq, bind_eq]
  cases rule n l.operand c <;> rfl

theorem rule_block (n : Nat) :
    rule (n + 1) .block = (do
      let token ← eat .leftBrace ""
      let statements ← items (rule n .declaration) endsBlock
      let _ ← eat .rightBrace "after block"
      pure (.block statements token.line)) := by
  funext c
  rw [rule, bind_eq, bind_eq]
  cases eat .leftBrace "" c <;> rfl

theorem op?_eof (l : Level) : l.op? .eof = none := by cases l <;> rfl

/-- At the end of the tokens a closed cursor is at the end of source. -/
theorem current_of_rest_nil {c : Cursor} (hc : c.Closed) (h : c.rest = []) :
    c.current.kind = .eof := by
  obtain ⟨t, ht, hk⟩ := hc
  rw [Cursor.ahead, h] at ht
  rwa [← List.mem_singleton.1 ht]

section
variable {operand : Parse Node} (hadv : Advancing operand) (l : Level)
include hadv

/-- The bound of a chain does not matter once it reaches the number of tokens ahead. -/
theorem chain_bound (xs : List Token) : ∀ (ys : List Token) (left : Node) (c : Cursor),
    c.Closed → c.rest.length ≤ xs.length → c.rest.length ≤ ys.length →
      chain l operand xs left c = chain l operand ys left c := by
  have atEnd : ∀ (zs : List Token) (left : Node) (c : Cursor), c.Closed → c.rest = [] →
      chain l operand zs left c = .ok left c := by
    intro zs left c hc hr
    cases zs with
    | nil => rfl
    | cons z zs =>
      rw [chain, bind_of_ok (current_ok_iff.2 ⟨rfl, rfl⟩), current_of_rest_nil hc hr, op?_eof]
      rfl
  induction xs with
  | nil =>
    intro ys left c hc hx _
    have hr : c.rest = [] := List.eq_nil_of_length_eq_zero (Nat.le_zero.1 hx)
    rw [atEnd _ _ _ hc hr, atEnd _ _ _ hc hr]
  | cons x xs ih =>
    intro ys left c hc hx hy
    cases ys with
    | nil =>
      have hr : c.rest = [] := List.eq_nil_of_length_eq_zero (Nat.le_zero.1 hy)
      rw [atEnd _ _ _ hc hr, atEnd _ _ _ hc hr]
    | cons y ys =>
      simp only [chain, bind_of_ok (current_ok_iff.2 ⟨rfl, rfl⟩)]
      cases hop : l.op? c.current.kind with
      | none => rfl
      | some op =>
        have hne : c.current.kind ≠ .eof := by
          intro h
          rw [h, op?_eof] at hop
          cases hop
        have hp := Cursor.Passes.step hc hne
        have hlen := hp.length
        simp only [bind_of_ok (advance_ok_iff.2 ⟨rfl, rfl⟩)]
        cases ho : operand c.advance with
        | error e d => rw [bind_of_error ho, bind_of_error ho]
        | ok right d =>
          obtain ⟨t, ts, hd⟩ := hadv (hp.closed hc) ho
          have hlen' := hd.length
          rw [bind_of_ok ho, bind_of_ok ho]
          simp only [List.length_cons, List.length_nil] at hx hy hlen hlen'
          exact ih ys _ d (hd.closed (hp.closed hc)) (by omega) (by omega)

theorem joined_eq (left : Node) {c : Cursor} (hc : c.Closed) :
    joined l operand left c =
      match l.op? c.current.kind with
      | none => .ok left c
      | some op => (do
          let _ ← advance
          let right ← operand
          joined l operand (l.join left op right c.current.line)) c := by
  rw [joined_def]
  cases hr : c.rest with
  | nil =>
    rw [current_of_rest_nil hc hr, op?_eof]
    rfl
  | cons x xs =>
    simp only [chain, bind_of_ok (current_ok_iff.2 ⟨rfl, rfl⟩)]
    cases hop : l.op? c.current.kind with
    | none => rfl
    | some op =>
      have hne : c.current.kind ≠ .eof := by
        intro h
        rw [h, op?_eof] at hop
        cases hop
      have hp := Cursor.Passes.step hc hne
      have hlen := hp.length
      simp only [bind_of_ok (advance_ok_iff.2 ⟨rfl, rfl⟩)]
      cases ho : operand c.advance with
      | error e d => rw [bind_of_error ho, bind_of_error ho]
      | ok right d =>
        obtain ⟨t, ts, hd⟩ := hadv (hp.closed hc) ho
        have hlen' := hd.length
        rw [bind_of_ok ho, bind_of_ok ho, joined_def]
        simp only [hr, List.length_cons, List.length_nil] at hlen hlen'
        exact chain_bound hadv l xs d.rest _ d (hd.closed (hp.closed hc)) (by omega) (Nat.le_refl _)

end

section
variable {item : Parse Node} (hadv : Advancing item) {stop : Kind → Bool} (hstop : stop .eof = true)
include hadv hstop

/-- The bound of a list of items does not matter once it reaches the number of tokens ahead. -/
theorem many_bound (xs : List Token) : ∀ (ys : List Token) (c : Cursor),
    c.Closed → c.rest.length ≤ xs.length → c.rest.length ≤ ys.length →
      many item stop xs c = many item stop ys c := by
  have atEnd : ∀ (zs : List Token) (c : Cursor), c.Closed → c.rest = [] →
      many item stop zs c = .ok [] c := by
    intro zs c hc hr
    cases zs with
    | nil => rfl
    | cons z zs =>
      rw [many, bind_of_ok (current_ok_iff.2 ⟨rfl, rfl⟩), current_of_rest_nil hc hr, hstop]
      rfl
  induction xs with
  | nil =>
    intro ys c hc hx _
    have hr : c.rest = [] := List.eq_nil_of_length_eq_zero (Nat.le_zero.1 hx)
    rw [atEnd _ _ hc hr, atEnd _ _ hc hr]
  | cons x xs ih =>
    intro ys c hc hx hy
    cases ys with
    | nil =>
      have hr : c.rest = [] := List.eq_nil_of_length_eq_zero (Nat.le_zero.1 hy)
      rw [atEnd _ _ hc hr, atEnd _ _ hc hr]
    | cons y ys =>
      simp only [many, bind_of_ok (current_ok_iff.2 ⟨rfl, rfl⟩)]
      split
      · rfl
      · cases hi : item c with
        | error e d => rw [bind_of_error hi, bind_of_error hi]
        | ok first d =>
          obtain ⟨t, ts, hd⟩ := hadv hc hi
          have hlen := hd.length
          simp only [List.length_cons] at hx hy hlen
          rw [bind_of_ok hi, bind_of_ok hi, bind_eq, bind_eq,
            ih ys d (hd.closed hc) (by omega) (by omega)]

theorem items_eq {c : Cursor} (hc : c.Closed) :
    items item stop c =
      if stop c.current.kind then .ok [] c
      else (do
        let first ← item
        let others ← items item stop
        pure (first :: others)) c := by
  rw [items_def]
  cases hr : c.rest with
  | nil =>
    rw [current_of_rest_nil hc hr, hstop]
    rfl
  | cons x xs =>
    simp only [many, bind_of_ok (current_ok_iff.2 ⟨rfl, rfl⟩)]
    split
    · rfl
    · cases hi : item c with
      | error e d => rw [bind_of_error hi, bind_of_error hi]
      | ok first d =>
        obtain ⟨t, ts, hd⟩ := hadv hc hi
        have hlen := hd.length
        simp only [hr, List.length_cons] at hlen
        rw [bind_of_ok hi, bind_of_ok hi, bind_eq, bind_eq, items_def,
          many_bound hadv hstop xs d.rest d (hd.closed hc) (by omega) (Nat.le_refl _)]

end

end Parse

end Lox
