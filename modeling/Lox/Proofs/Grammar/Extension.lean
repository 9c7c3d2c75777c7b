import Lox.Proofs.Grammar.Soundness

/-!
# Longer inputs and more levels

Two runs of the parser on inputs that begin alike: one meets the end of source after the tokens
`as`, the other finds more tokens there. `Grows` says what the second run, which may also have more
levels, takes over from the first:

* a result that the first run reached before the end, and a failure before the end unless it is a
  matter of levels;
* a failure at the end that rejects a token passed before (an assignment target), though the second
  run may fail in another way.

`rule_grows` and `program_grows` are the statements for rules and programs. With nothing after the
shared tokens but the same end they say that more levels change nothing but failures for want of
levels.
-/

set_option autoImplicit false

namespace Lox

namespace Cursor

/-- The cursor that has `ts` to pass before it is `d`. -/
def prepend : List Token → Cursor → Cursor
  | [], d => d
  | t :: ts, d => ⟨t, (prepend ts d).ahead⟩

@[simp] theorem ahead_prepend (ts : List Token) (d : Cursor) :
    (prepend ts d).ahead = ts ++ d.ahead := by
  cases ts with
  | nil => rfl
  | cons t ts => rw [List.cons_append, ← ahead_prepend ts d]; rfl

theorem prepend_append (ts us : List Token) (d : Cursor) :
    prepend (ts ++ us) d = prepend ts (prepend us d) :=
  eq_of_ahead (by simp only [ahead_prepend, List.append_assoc])

theorem passes_prepend {ts : List Token} (h : NoEof ts) (d : Cursor) :
    (prepend ts d).Passes ts d := ⟨ahead_prepend ts d, h⟩

theorem prepend_injective {ts us : List Token} {d : Cursor} (h : prepend ts d = prepend us d) :
    ts = us := by
  have := congrArg ahead h
  rwa [ahead_prepend, ahead_prepend, List.append_cancel_right_eq] at this

theorem closed_prepend (ts : List Token) {d : Cursor} (h : d.Closed) : (prepend ts d).Closed := by
  obtain ⟨t, ht, hk⟩ := h
  exact ⟨t, by rw [ahead_prepend]; exact List.mem_append_right _ ht, hk⟩

theorem advance_prepend {t : Token} (h : t.kind ≠ .eof) (ts : List Token) (d : Cursor) :
    (prepend (t :: ts) d).advance = prepend ts d := by
  have : (prepend (t :: ts) d).current.kind ≠ .eof := h
  rw [advance, if_neg this]
  rfl

end Cursor

namespace ParseFailure

/-- The failure concerns the end of source. -/
def AtEnd : ParseFailure → Prop
  | .rejected e => e.token.kind = .eof
  | .tooDeep => True

/-- The failure is for want of levels. -/
def Deep : ParseFailure → Prop
  | .rejected e => e.fault = .tooDeep
  | .tooDeep => True

/-- The failure rejects the target of an assignment. -/
def Target : ParseFailure → Prop
  | .rejected e => e.fault = .invalidTarget
  | .tooDeep => False

/-- The failure of a declaration on its own: nesting that is too deep rejects the token it was
noticed at. -/
def noted (token : Token) : ParseFailure → ParseFailure
  | .rejected e => .rejected e
  | .tooDeep => .rejected ⟨.tooDeep, token⟩

end ParseFailure

namespace Parse

open Cursor

theorem joined_unroll {operand : Parse Node} (hadv : Advancing operand) (l : Level) (left : Node)
    {c : Cursor} (hc : c.Closed) :
    joined l operand left c = (do
      let mark ← current
      match l.op? mark.kind with
      | none => pure left
      | some op => do
        let _ ← advance
        let right ← operand
        joined l operand (l.join left op right mark.line)) c := by
  rw [joined_eq hadv l left hc, bind_of_ok (current_ok_iff.2 ⟨rfl, rfl⟩)]
  cases l.op? c.current.kind <;> rfl

theorem items_unroll {item : Parse Node} (hadv : Advancing item) {stop : Kind → Bool}
    (hstop : stop .eof = true) {c : Cursor} (hc : c.Closed) :
    items item stop c = (do
      let token ← current
      if stop token.kind then pure []
      else do
        let first ← item
        let others ← items item stop
        pure (first :: others)) c := by
  rw [items_eq hadv hstop hc, bind_of_ok (current_ok_iff.2 ⟨rfl, rfl⟩)]
  split <;> rfl

/-- What the run of `y` on the tokens `as` and then `new` takes over from the run of `x` on `as` and
then `old`. Failures for want of levels are taken over if `exact` holds. -/
structure Grows (exact : Prop) (old new : Cursor) (as : List Token) {α : Type} (x y : Parse α) :
    Prop where
  ok : ∀ ⦃a : α⦄ ⦃d : Cursor⦄, x (prepend as old) = .ok a d →
    ∃ bs, bs <:+ as ∧ d = prepend bs old ∧
      (bs ≠ [] ∨ new = old → y (prepend as new) = .ok a (prepend bs new))
  error : ∀ ⦃f : ParseFailure⦄ ⦃d : Cursor⦄, x (prepend as old) = .error f d →
    ∃ bs, bs <:+ as ∧ d = prepend bs old ∧
      (bs ≠ [] ∨ new = old → (f.Deep → exact) → y (prepend as new) = .error f (prepend bs new)) ∧
      (bs = [] → f.AtEnd ∨ f.Target ∧ as ≠ [] ∧ ∃ f' d', y (prepend as new) = .error f' d')

namespace Grows

section
variable {exact : Prop} {old new : Cursor} {as : List Token} {α β : Type}

theorem congr {x x' y y' : Parse α} (hx : x (prepend as old) = x' (prepend as old))
    (hy : y (prepend as new) = y' (prepend as new)) (h : Grows exact old new as x' y') :
    Grows exact old new as x y := by
  refine ⟨fun a d hr => ?_, fun f d hr => ?_⟩
  · rw [hy]
    exact h.ok (hx ▸ hr)
  · rw [hy]
    exact h.error (hx ▸ hr)

/-- At the same end, a run that has levels enough is taken over whole. -/
theorem eq {x y : Parse α} (h : Grows False old old as x y)
    (hx : ∀ f d, x (prepend as old) = .error f d → ¬ f.Deep) :
    y (prepend as old) = x (prepend as old) := by
  cases hr : x (prepend as old) with
  | ok a d =>
    obtain ⟨bs, -, rfl, hy⟩ := h.ok hr
    exact hy (.inr rfl)
  | error f d =>
    obtain ⟨bs, -, rfl, hy, -⟩ := h.error hr
    exact hy (.inr rfl) (hx f _ hr)

theorem pure (a : α) : Grows exact old new as (pure a) (pure a) where
  ok b d h := by
    obtain ⟨rfl, rfl⟩ := pure_ok_iff.1 h
    exact ⟨as, List.suffix_rfl, rfl, fun _ => rfl⟩
  error f d h := by cases h

/-- A part that fails ends both runs; one that succeeds at the end of source leaves the second run
open, and what follows it in the first run can only fail there. -/
theorem bind {x y : Parse α} {f g : α → Parse β} (has : NoEof as)
    (hx : Grows exact old new as x y)
    (hf : ∀ a bs, bs <:+ as → NoEof bs → x (prepend as old) = .ok a (prepend bs old) →
      Grows exact old new bs (f a) (g a)) :
    Grows exact old new as (x >>= f) (y >>= g) where
  ok b d h := by
    obtain ⟨a, m, hm, h⟩ := bind_ok_iff.1 h
    obtain ⟨bs, hbs, rfl, hy⟩ := hx.ok hm
    obtain ⟨cs, hcs, rfl, hg⟩ := (hf a bs hbs (has.suffix hbs) hm).ok h
    refine ⟨cs, hcs.trans hbs, rfl, fun hn => ?_⟩
    have hn' : bs ≠ [] ∨ new = old := hn.imp_left fun hne he => hne (by
      rw [he] at hcs
      exact List.suffix_nil.1 hcs)
    rw [bind_of_ok (hy hn')]
    exact hg hn
  error e d h := by
    rcases bind_error_iff.1 h with h | ⟨a, m, hm, h⟩
    · obtain ⟨bs, hbs, rfl, hy, ht⟩ := hx.error h
      refine ⟨bs, hbs, rfl, fun hn he => bind_of_error (hy hn he), fun hn => ?_⟩
      refine (ht hn).imp_right ?_
      rintro ⟨htarget, hne, e', d', h'⟩
      exact ⟨htarget, hne, e', d', bind_of_error h'⟩
    · obtain ⟨bs, hbs, rfl, hy⟩ := hx.ok hm
      obtain ⟨cs, hcs, rfl, hg, ht⟩ := (hf a bs hbs (has.suffix hbs) hm).error h
      refine ⟨cs, hcs.trans hbs, rfl, fun hn he => ?_, fun hn => ?_⟩
      · have hn' : bs ≠ [] ∨ new = old := hn.imp_left fun hne he => hne (by
          rw [he] at hcs
          exact List.suffix_nil.1 hcs)
        rw [bind_of_ok (hy hn')]
        exact hg hn he
      · refine (ht hn).imp_right ?_
        rintro ⟨htarget, hne, e', d', h'⟩
        refine ⟨htarget, fun he => hne ?_, e', d', ?_⟩
        · rw [he] at hbs
          exact List.suffix_nil.1 hbs
        · rw [bind_of_ok (hy (.inl hne))]
          exact h'

/-- What looks at the current token only. -/
theorem look {x : Parse α} (g : Token → α) (hx : ∀ c, x c = .ok (g c.current) c) :
    Grows exact old new as x x where
  ok a d h := by
    rw [hx] at h
    cases h
    refine ⟨as, List.suffix_rfl, rfl, fun hn => ?_⟩
    rw [hx]
    cases as with
    | nil => rcases hn with hn | rfl <;> first | rfl | exact absurd rfl hn
    | cons t as => rfl
  error f d h := by
    rw [hx] at h
    cases h

theorem look_bind {x : Parse α} {f g : α → Parse β} (has : NoEof as) (v : Token → α)
    (hx : ∀ c, x c = .ok (v c.current) c)
    (hf : Grows exact old new as (f (v (prepend as old).current)) (g (v (prepend as old).current))) :
    Grows exact old new as (x >>= f) (x >>= g) := by
  refine bind has (look v hx) fun a bs _ _ h => ?_
  rw [hx] at h
  injection h with ha hb
  rw [← ha, ← prepend_injective hb]
  exact hf

theorem current_bind {f g : Token → Parse β} (has : NoEof as)
    (hf : Grows exact old new as (f (prepend as old).current) (g (prepend as old).current)) :
    Grows exact old new as (Parse.current >>= f) (Parse.current >>= g) :=
  look_bind has id (fun _ => rfl) hf

theorem check_bind {kind : Kind} {f g : Bool → Parse β} (has : NoEof as)
    (hf : Grows exact old new as (f ((prepend as old).current.kind == kind))
      (g ((prepend as old).current.kind == kind))) :
    Grows exact old new as (Parse.check kind >>= f) (Parse.check kind >>= g) :=
  look_bind has (·.kind == kind) (fun _ => rfl) hf

variable (hold : old.current.kind = .eof)
include hold

theorem reject (fault : ParseFault) :
    Grows exact old new as (reject fault : Parse α) (reject fault) where
  ok a d h := by cases h
  error f d h := by
    obtain ⟨rfl, rfl⟩ := reject_error_iff.1 h
    refine ⟨as, List.suffix_rfl, rfl, fun hn _ => ?_, fun hn => .inl ?_⟩
    · cases as with
      | nil => rcases hn with hn | rfl <;> first | rfl | exact absurd rfl hn
      | cons t as => rfl
    · rw [hn]
      exact hold

variable (has : NoEof as)
include has

theorem advance : Grows exact old new as advance advance where
  ok a d h := by
    obtain ⟨rfl, rfl⟩ := advance_ok_iff.1 h
    cases as with
    | nil =>
      have hstay : old.advance = old := by rw [Cursor.advance, if_pos hold]
      refine ⟨[], List.suffix_rfl, hstay, fun hn => ?_⟩
      obtain rfl := hn.resolve_left (fun hne => hne rfl)
      exact advance_ok_iff.2 ⟨rfl, hstay.symm⟩
    | cons t as =>
      have ht : t.kind ≠ .eof := has t List.mem_cons_self
      refine ⟨as, List.suffix_cons t as, advance_prepend ht as old, fun _ => ?_⟩
      exact advance_ok_iff.2 ⟨rfl, (advance_prepend ht as new).symm⟩
  error f d h := by cases h

theorem eat (kind : Kind) (context : String) :
    Grows exact old new as (eat kind context) (eat kind context) := by
  refine check_bind has ?_
  split
  · exact advance hold has
  · exact reject hold _

end

/-! ## Loops -/

section
variable {exact : Prop} {old new : Cursor} (hold : old.current.kind = .eof) (hnew : new.Closed)
include hold

theorem advance_bind {α : Type} {t : Token} {as : List Token} {f g : Token → Parse α}
    (has : NoEof (t :: as)) (hf : Grows exact old new as (f t) (g t)) :
    Grows exact old new (t :: as) (Parse.advance >>= f) (Parse.advance >>= g) := by
  refine bind has (advance hold has) fun a bs _ _ h => ?_
  obtain ⟨rfl, hbs⟩ := advance_ok_iff.1 h
  rw [advance_prepend (has _ List.mem_cons_self)] at hbs
  rw [prepend_injective hbs]
  exact hf

/-- After the `=` of an assignment: a target that is no variable is rejected whatever the value. -/
theorem target {α : Type} {as : List Token} {x y : Parse Node} (hx : Grows exact old new as x y)
    (hadv : Advancing x) (q : Token) :
    Grows exact old new as (x >>= fun _ => (rejectAt .invalidTarget q : Parse α))
      (y >>= fun _ => rejectAt .invalidTarget q) := by
  refine ⟨fun b d h => ?_, fun f d h => ?_⟩
  · obtain ⟨a, e, -, h⟩ := bind_ok_iff.1 h
    cases h
  · rcases bind_error_iff.1 h with h | ⟨a, e, ha, h⟩
    · obtain ⟨bs, hbs, rfl, hy, ht⟩ := hx.error h
      refine ⟨bs, hbs, rfl, fun hn he => bind_of_error (hy hn he), fun hn => ?_⟩
      refine (ht hn).imp_right ?_
      rintro ⟨htarget, hne, e', d', h'⟩
      exact ⟨htarget, hne, e', d', bind_of_error h'⟩
    · obtain ⟨bs, hbs, rfl, hy⟩ := hx.ok ha
      cases h
      refine ⟨bs, hbs, rfl, fun hn _ => bind_of_ok (hy hn), fun hn => .inr ⟨rfl, ?_, ?_⟩⟩
      · rintro rfl
        obtain ⟨t, ts, hps⟩ := hadv ⟨old.current, List.mem_cons_self, hold⟩ ha
        have := congrArg List.length hps.ahead
        simp only [hn, ahead_prepend, List.nil_append, List.length_append, List.length_cons] at this
        omega
      · cases hv : y (prepend as new) with
        | ok v d' => exact ⟨_, _, bind_of_ok hv⟩
        | error e' d' => exact ⟨e', d', bind_of_error hv⟩

include hnew

theorem joined (l : Level) {p q : Parse Node} (hp : Advancing p) (hq : Advancing q)
    (hpq : ∀ as, NoEof as → Grows exact old new as p q) {as : List Token} (has : NoEof as)
    (left : Node) : Grows exact old new as (joined l p left) (joined l q left) := by
  have hclosed : old.Closed := ⟨old.current, List.mem_cons_self, hold⟩
  -- on the number of tokens before the end: each round passes an operator
  obtain ⟨k, hk⟩ : ∃ k, as.length < k := ⟨_, Nat.lt_succ_self _⟩
  induction k generalizing as left with
  | zero => omega
  | succ k ih =>
    refine congr (joined_unroll hp l left (closed_prepend as hclosed))
      (joined_unroll hq l left (closed_prepend as hnew)) (current_bind has ?_)
    cases as with
    | nil =>
      rw [show (prepend [] old).current.kind = .eof from hold, op?_eof]
      exact pure left
    | cons t as =>
      rw [show (prepend (t :: as) old).current = t from rfl]
      cases l.op? t.kind with
      | none => exact pure left
      | some op =>
        refine advance_bind hold has ?_
        have has' := has.suffix (List.suffix_cons t as)
        refine bind has' (hpq as has') fun right bs hbs hn _ => ih hn _ ?_
        have := hbs.length_le
        rw [List.length_cons] at hk
        omega

theorem items {p q : Parse Node} (hp : Advancing p) (hq : Advancing q) {stop : Kind → Bool}
    (hstop : stop .eof = true) (hpq : ∀ as, NoEof as → Grows exact old new as p q)
    {as : List Token} (has : NoEof as) :
    Grows exact old new as (items p stop) (items q stop) := by
  have hclosed : old.Closed := ⟨old.current, List.mem_cons_self, hold⟩
  -- on the number of tokens before the end: each item passes at least one
  obtain ⟨k, hk⟩ : ∃ k, as.length < k := ⟨_, Nat.lt_succ_self _⟩
  induction k generalizing as with
  | zero => omega
  | succ k ih =>
    refine congr (items_unroll hp hstop (closed_prepend as hclosed))
      (items_unroll hq hstop (closed_prepend as hnew)) (current_bind has ?_)
    split
    · exact pure []
    · refine bind has (hpq as has) fun first bs _ hn hr => ?_
      obtain ⟨t, ts, hps⟩ := hp (closed_prepend as hclosed) hr
      have hlen := congrArg List.length hps.ahead
      simp only [ahead_prepend, List.length_append, List.length_cons] at hlen
      exact bind hn (ih hn (by omega)) fun others cs _ _ _ => pure (first :: others)

end

end Grows

theorem topLevel_eq (n : Nat) (c : Cursor) :
    topLevel n c = match rule n .declaration c with
      | .ok a d => .ok a d
      | .error f d => .error (f.noted d.current) d := by
  unfold topLevel
  cases rule n .declaration c with
  | ok a d => rfl
  | error f d => cases f <;> rfl

theorem topLevel_error_iff {n : Nat} {c d : Cursor} {f : ParseFailure} :
    topLevel n c = .error f d ↔
      ∃ g, rule n .declaration c = .error g d ∧ f = g.noted d.current := by
  rw [topLevel_eq]
  cases rule n .declaration c with
  | ok a e =>
    constructor
    · intro h
      cases h
    · rintro ⟨_, h, -⟩
      cases h
  | error g e =>
    constructor
    · intro h
      cases h
      exact ⟨g, rfl, rfl⟩
    · rintro ⟨g', h, rfl⟩
      cases h
      rfl

/-! ## Rules -/

section
variable {exact : Prop} {old new : Cursor} (hold : old.current.kind = .eof) (hnew : new.Closed)
  {n m : Nat} (ih : ∀ (r : Rule) (as : List Token), NoEof as →
    Grows exact old new as (rule n r) (rule m r))
  {as : List Token} (has : NoEof as)
include ih has

theorem grows_declaration :
    Grows exact old new as (rule (n + 1) .declaration) (rule (m + 1) .declaration) := by
  simp only [rule]
  refine .check_bind has ?_
  split
  · exact ih _ _ has
  · exact ih _ _ has

theorem grows_statement :
    Grows exact old new as (rule (n + 1) .statement) (rule (m + 1) .statement) := by
  simp only [rule]
  refine .current_bind has ?_
  split <;> exact ih _ _ has

include hold

theorem grows_varDecl :
    Grows exact old new as (rule (n + 1) .varDecl) (rule (m + 1) .varDecl) := by
  simp only [rule]
  refine .bind has (.eat hold has _ _) fun _ _ _ h₁ _ => ?_
  refine .bind h₁ (.eat hold h₁ _ _) fun x _ _ h₂ _ => .check_bind h₂ ?_
  split
  · refine .bind h₂ (.advance hold h₂) fun _ _ _ h₃ _ => ?_
    refine .bind h₃ (ih _ _ h₃) fun e _ _ h₄ _ => ?_
    exact .bind h₄ (.eat hold h₄ _ _) fun _ _ _ _ _ => .pure _
  · exact .bind h₂ (.eat hold h₂ _ _) fun _ _ _ _ _ => .pure _

theorem grows_print : Grows exact old new as (rule (n + 1) .print) (rule (m + 1) .print) := by
  simp only [rule]
  refine .bind has (.eat hold has _ _) fun _ _ _ h₁ _ => ?_
  refine .bind h₁ (ih _ _ h₁) fun e _ _ h₂ _ => ?_
  exact .bind h₂ (.eat hold h₂ _ _) fun _ _ _ _ _ => .pure _

theorem grows_ifElse : Grows exact old new as (rule (n + 1) .ifElse) (rule (m + 1) .ifElse) := by
  simp only [rule]
  refine .bind has (.eat hold has _ _) fun _ _ _ h₁ _ => ?_
  refine .bind h₁ (.eat hold h₁ _ _) fun _ _ _ h₂ _ => ?_
  refine .bind h₂ (ih _ _ h₂) fun c _ _ h₃ _ => ?_
  refine .bind h₃ (.eat hold h₃ _ _) fun _ _ _ h₄ _ => ?_
  refine .bind h₄ (ih _ _ h₄) fun t _ _ h₅ _ => .check_bind h₅ ?_
  split
  · refine .bind h₅ (.advance hold h₅) fun _ _ _ h₆ _ => ?_
    exact .bind h₆ (ih _ _ h₆) fun e _ _ _ _ => .pure _
  · exact .pure _

theorem grows_whileLoop :
    Grows exact old new as (rule (n + 1) .whileLoop) (rule (m + 1) .whileLoop) := by
  simp only [rule]
  refine .bind has (.eat hold has _ _) fun _ _ _ h₁ _ => ?_
  refine .bind h₁ (.eat hold h₁ _ _) fun _ _ _ h₂ _ => ?_
  refine .bind h₂ (ih _ _ h₂) fun c _ _ h₃ _ => ?_
  refine .bind h₃ (.eat hold h₃ _ _) fun _ _ _ h₄ _ => ?_
  exact .bind h₄ (ih _ _ h₄) fun t _ _ _ _ => .pure _

theorem grows_exprStmt :
    Grows exact old new as (rule (n + 1) .exprStmt) (rule (m + 1) .exprStmt) := by
  simp only [rule]
  refine .current_bind has (.bind has (ih _ _ has) fun e _ _ h₁ _ => ?_)
  exact .bind h₁ (.eat hold h₁ _ _) fun _ _ _ _ _ => .pure _

theorem grows_unary : Grows exact old new as (rule (n + 1) .unary) (rule (m + 1) .unary) := by
  simp only [rule]
  refine .current_bind has ?_
  cases Op.ofUnary? (prepend as old).current.kind with
  | none => exact ih _ _ has
  | some op =>
    refine .bind has (.advance hold has) fun _ _ _ h₁ _ => ?_
    exact .bind h₁ (ih _ _ h₁) fun e _ _ _ _ => .pure _

theorem grows_primary :
    Grows exact old new as (rule (n + 1) .primary) (rule (m + 1) .primary) := by
  have leaf : ∀ a : Node, Grows exact old new as (advance >>= fun _ => pure a)
      (advance >>= fun _ => pure a) :=
    fun a => .bind has (.advance hold has) fun _ _ _ _ _ => .pure a
  simp only [rule]
  refine .current_bind has ?_
  split
  · exact leaf _
  · exact leaf _
  · exact leaf _
  · exact leaf _
  · exact leaf _
  · exact leaf _
  · refine .bind has (.advance hold has) fun _ _ _ h₁ _ => ?_
    refine .bind h₁ (ih _ _ h₁) fun e _ _ h₂ _ => ?_
    exact .bind h₂ (.eat hold h₂ _ _) fun _ _ _ _ _ => .pure _
  · exact .reject hold _

theorem grows_assignment :
    Grows exact old new as (rule (n + 1) .assignment) (rule (m + 1) .assignment) := by
  simp only [rule]
  refine .bind has (ih _ _ has) fun target _ _ h₁ _ => .check_bind h₁ ?_
  split
  · refine .bind h₁ (.advance hold h₁) fun q _ _ h₂ _ => ?_
    cases target with
    | var x => exact .bind h₂ (ih _ _ h₂) fun v _ _ _ _ => .pure _
    | _ => exact .target hold (ih _ _ h₂) (rule_advancing _ _) q
  · exact .pure _

include hnew

theorem grows_block : Grows exact old new as (rule (n + 1) .block) (rule (m + 1) .block) := by
  rw [rule_block, rule_block]
  refine .bind has (.eat hold has _ _) fun _ _ _ h₁ _ => ?_
  refine .bind h₁ (.items hold hnew (rule_advancing _ _) (rule_advancing _ _) rfl (ih _) h₁)
    fun bs _ _ h₂ _ => ?_
  exact .bind h₂ (.eat hold h₂ _ _) fun _ _ _ _ _ => .pure _

theorem grows_level (l : Level) :
    Grows exact old new as (rule (n + 1) (.level l)) (rule (m + 1) (.level l)) := by
  rw [rule_level, rule_level]
  exact .bind has (ih _ _ has) fun left _ _ h₁ _ =>
    .joined hold hnew l (rule_advancing _ _) (rule_advancing _ _) (ih _) h₁ left

end

section
variable {exact : Prop} {old new : Cursor} (hold : old.current.kind = .eof) (hnew : new.Closed)
  {n m : Nat} (hnm : n ≤ m) (hexact : exact → n = m) {as : List Token} (has : NoEof as)
include hold hnew hnm hexact has

theorem rule_grows (r : Rule) : Grows exact old new as (rule n r) (rule m r) := by
  induction n generalizing m r as with
  | zero =>
    refine ⟨fun a d h => (by cases h), fun f d h => ?_⟩
    cases h
    refine ⟨as, List.suffix_rfl, rfl, fun _ he => ?_, fun _ => .inl trivial⟩
    obtain rfl := hexact (he trivial)
    rfl
  | succ n ihn =>
    obtain ⟨m, rfl⟩ : ∃ k, m = k + 1 := ⟨m - 1, by omega⟩
    have ih : ∀ (r : Rule) (as : List Token), NoEof as →
        Grows exact old new as (rule n r) (rule m r) :=
      fun r as has => ihn (by omega) (fun he => by have := hexact he; omega) has r
    cases r with
    | declaration => exact grows_declaration ih has
    | varDecl => exact grows_varDecl hold ih has
    | statement => exact grows_statement ih has
    | block => exact grows_block hold hnew ih has
    | print => exact grows_print hold ih has
    | ifElse => exact grows_ifElse hold ih has
    | whileLoop => exact grows_whileLoop hold ih has
    | exprStmt => exact grows_exprStmt hold ih has
    | expr => exact ih .assignment as has
    | assignment => exact grows_assignment hold ih has
    | level l => exact grows_level hold hnew ih has l
    | unary => exact grows_unary hold ih has
    | primary => exact grows_primary hold ih has

theorem topLevel_grows : Grows exact old new as (topLevel n) (topLevel m) := by
  have hr := rule_grows hold hnew hnm hexact has .declaration
  refine ⟨fun a d h => ?_, fun f d h => ?_⟩
  · obtain ⟨bs, hbs, rfl, hy⟩ := hr.ok (topLevel_ok_iff.1 h)
    exact ⟨bs, hbs, rfl, fun hn => topLevel_ok_iff.2 (hy hn)⟩
  · obtain ⟨g, hg, rfl⟩ := topLevel_error_iff.1 h
    obtain ⟨bs, hbs, rfl, hy, ht⟩ := hr.error hg
    refine ⟨bs, hbs, rfl, fun hn he => ?_, fun hn => ?_⟩
    · have hcur : (prepend bs old).current = (prepend bs new).current := by
        cases bs with
        | nil => rw [hn.resolve_left fun hne => hne rfl]
        | cons t bs => rfl
      rw [hcur] at he ⊢
      refine topLevel_error_iff.2 ⟨g, hy hn fun hd => he ?_, rfl⟩
      cases g with
      | rejected e => exact hd
      | tooDeep => rfl
    · rcases ht hn with hend | ⟨htarget, hne, f', d', h'⟩
      · left
        cases g with
        | rejected e => exact hend
        | tooDeep => rw [hn]; exact hold
      · refine .inr ⟨?_, hne, f'.noted d'.current, d', topLevel_error_iff.2 ⟨f', h', rfl⟩⟩
        cases g with
        | rejected e => exact htarget
        | tooDeep => exact htarget.elim

theorem program_grows : Grows exact old new as (program n) (program m) := by
  rw [program_eq, program_eq]
  exact .items hold hnew (topLevel_advancing n) (topLevel_advancing m) rfl
    (fun as has => topLevel_grows hold hnew hnm hexact has) has

end

end Parse

end Lox
