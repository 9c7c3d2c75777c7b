import Lox.Proofs.Grammar.Soundness

/-!
# Completeness of the parser

`rule_complete`: a rule reads every tree that it derives, up to a token that stops it. If targets
may be any trees, it may instead reject one that is no variable. One lemma for each rule, each from
the completeness of the rules one level below (`Complete`); a level of operators goes through
`chains_level`, which says where its loop stands after each operand.
-/

set_option autoImplicit false

namespace Lox

/-- Kinds that go on with no tree. -/
def Kind.closers : List Kind := [.semicolon, .rightParen, .rightBrace, .eof]

theorem Stops.of_closer {r : Rule} {a : Node} {k : Kind} (hk : k ∈ Kind.closers) : Stops r a k := by
  simp only [Kind.closers, List.mem_cons, List.not_mem_nil, or_false] at hk
  refine ⟨fun l _ => ?_, fun _ => ?_, fun _ => ?_⟩ <;>
    rcases hk with rfl | rfl | rfl | rfl <;> first | (cases l <;> rfl) | decide

theorem Level.op?_eq_some {l : Level} {k : Kind} {op : Op} (h : l.op? k = some op) :
    (Op.ofBinary? k).or (Op.ofLogical? k) = some op ∧ op.rank = l.rank := by
  cases l <;> cases k <;> cases h <;> exact ⟨rfl, rfl⟩

theorem Level.rank_injective {l l' : Level} (h : l.rank = l'.rank) : l = l' := by
  cases l <;> cases l' <;> first | rfl | cases h

/-- A kind stands for an operator of one level only. -/
theorem Level.eq_of_op? {l l' : Level} {k : Kind} {op op' : Op} (h : l.op? k = some op)
    (h' : l'.op? k = some op') : l = l' := by
  obtain ⟨h₁, h₂⟩ := op?_eq_some h
  obtain ⟨h₁', h₂'⟩ := op?_eq_some h'
  rw [h₁] at h₁'
  cases h₁'
  exact rank_injective (h₂.symm.trans h₂')

namespace Parse

open Cursor

/-! ## Leading from one action to another -/

section
variable {α β : Type} {lax : Prop} {c d m : Cursor}

/-- The action `x` does from `c` what `y` does from `d`, unless targets may be any trees and it
rejects one. -/
def Leads (lax : Prop) (x : Parse α) (c : Cursor) (y : Parse α) (d : Cursor) : Prop :=
  x c = y d ∨ lax ∧ ∃ t e, x c = .error (.rejected ⟨.invalidTarget, t⟩) e

theorem Leads.refl (x : Parse α) (c : Cursor) : Leads lax x c x c := .inl rfl

theorem Leads.step {x : Parse α} {f : α → Parse β} {y : Parse β} {a : α} (h : x c = .ok a m)
    (hf : Leads lax (f a) m y d) : Leads lax (x >>= f) c y d := by
  unfold Leads
  rw [bind_of_ok h]
  exact hf

theorem Leads.bind {x : Parse α} {f : α → Parse β} {y : Parse β} {a : α}
    (h : Leads lax x c (pure a) m) (hf : Leads lax (f a) m y d) : Leads lax (x >>= f) c y d := by
  rcases h with h | ⟨hl, t, e, h⟩
  · exact .step h hf
  · exact .inr ⟨hl, t, e, bind_of_error h⟩

/-- What leads on also does so in front of more. -/
theorem Leads.then {x y : Parse α} (h : Leads lax x c y d) (f : α → Parse β) :
    Leads lax (x >>= f) c (y >>= f) d := by
  rcases h with h | ⟨hl, t, e, h⟩
  · exact .inl (by rw [bind_eq, bind_eq, h])
  · exact .inr ⟨hl, t, e, bind_of_error h⟩

theorem Leads.trans {x y z : Parse α} (h : Leads lax x c y m) (h' : Leads lax y m z d) :
    Leads lax x c z d := by
  rcases h with h | h
  · unfold Leads
    rw [h]
    exact h'
  · exact .inr h

end

/-- Every tree that is derived within `n` levels is read. -/
def Complete (lax : Prop) (n : Nat) : Prop :=
  ∀ ⦃r : Rule⦄ ⦃ts : List Token⦄ ⦃a : Node⦄ ⦃c d : Cursor⦄, Derives lax n r ts a →
    c.Passes ts d → d.Closed → Stops r a d.current.kind → Leads lax (rule n r) c (pure a) d

section
variable {lax : Prop} {n : Nat} (ih : Complete lax n) {ts : List Token} {a : Node} {c d : Cursor}
  (hp : c.Passes ts d) (hd : d.Closed)
include ih hp hd

theorem complete_declaration (h : Derives lax (n + 1) .declaration ts a)
    (hs : Stops .declaration a d.current.kind) :
    Leads lax (rule (n + 1) .declaration) c (pure a) d := by
  obtain ⟨t, us, rfl⟩ := h.exists_cons
  obtain ⟨rfl, -⟩ := hp.uncons
  rw [rule]
  refine .step (check_ok_iff.2 ⟨rfl, rfl⟩) ?_
  cases h with
  | declared h =>
    have hk : c.current.kind = .varWord := by
      cases h with
      | varNil hv | varInit hv => exact hv
    rw [if_pos (beq_iff_eq.2 hk)]
    exact ih h hp hd ⟨hs.1, hs.2, hs.3⟩
  | stated h =>
    have hk : c.current.kind ≠ .varWord := fun he => h.head_statement (by rw [he]; decide)
    rw [if_neg (fun hb => hk (beq_iff_eq.1 hb))]
    exact ih h hp hd ⟨hs.1, hs.2, hs.3⟩

theorem complete_varDecl (h : Derives lax (n + 1) .varDecl ts a) :
    Leads lax (rule (n + 1) .varDecl) c (pure a) d := by
  rw [rule]
  cases h with
  | varNil hv hx hs =>
    obtain ⟨rfl, h₁⟩ := hp.uncons
    obtain ⟨rfl, h₂⟩ := h₁.uncons
    obtain ⟨rfl, h₃⟩ := h₂.uncons
    obtain rfl := h₃.eq_of_nil
    refine .step (eat_ok_iff.2 ⟨hv, rfl, rfl⟩) (.step (eat_ok_iff.2 ⟨hx, rfl, rfl⟩) ?_)
    refine .step (check_ok_iff.2 ⟨rfl, rfl⟩) ?_
    rw [if_neg (by rw [hs]; decide)]
    exact .step (eat_ok_iff.2 ⟨hs, rfl, rfl⟩) (.refl _ _)
  | varInit hv hx hq h hs =>
    obtain ⟨rfl, h₁⟩ := hp.uncons
    obtain ⟨rfl, h₂⟩ := h₁.uncons
    obtain ⟨rfl, h₃⟩ := h₂.uncons
    obtain ⟨m, h₄, h₅⟩ := h₃.split
    have hm := h₅.closed_of hd
    obtain ⟨rfl, h₆⟩ := h₅.uncons
    obtain rfl := h₆.eq_of_nil
    refine .step (eat_ok_iff.2 ⟨hv, rfl, rfl⟩) (.step (eat_ok_iff.2 ⟨hx, rfl, rfl⟩) ?_)
    refine .step (check_ok_iff.2 ⟨rfl, rfl⟩) ?_
    rw [if_pos (by rw [hq]; decide)]
    refine .step (advance_ok_iff.2 ⟨rfl, rfl⟩) ?_
    refine .bind (ih h h₄ hm (.of_closer (by rw [hs]; decide))) ?_
    exact .step (eat_ok_iff.2 ⟨hs, rfl, rfl⟩) (.refl _ _)

theorem complete_statement (h : Derives lax (n + 1) .statement ts a)
    (hs : Stops .statement a d.current.kind) :
    Leads lax (rule (n + 1) .statement) c (pure a) d := by
  cases h with
  | @form _ r _ _ hr h =>
    obtain ⟨t, us, rfl⟩ := h.exists_cons
    obtain ⟨rfl, -⟩ := hp.uncons
    have hr8 : r.rank = 8 := by
      simp only [Rule.forms, List.mem_cons, List.not_mem_nil, or_false] at hr
      rcases hr with rfl | rfl | rfl | rfl | rfl <;> rfl
    have := ih h hp hd ⟨by rw [hr8]; exact hs.1, by rw [hr8]; exact hs.2, hs.3⟩
    unfold Leads at this ⊢
    rwa [rule_statement, (h.head_form hr).1]

/-- Items that are declarations, and then whatever follows them. -/
theorem complete_items {item : Parse Node} {stop : Kind → Bool}
    {pieces : List (List Token × Node)} (hadv : Advancing item)
    (hitem : ∀ {c d : Cursor} {a : Node}, Leads lax (rule n .declaration) c (pure a) d →
      Leads lax item c (pure a) d)
    (heof : stop .eof = true) (hstop : ∀ k, stop k = true → k ∈ [Kind.elseWord, .rightBrace, .eof])
    (hts : ts = pieces.flatMap (·.1)) (hder : ∀ p ∈ pieces, Derives lax n .declaration p.1 p.2)
    (hk : d.current.kind ≠ .elseWord) :
    Leads lax (items item stop) c (do
      let others ← items item stop
      pure (pieces.map (·.2) ++ others)) d := by
  induction pieces generalizing c ts with
  | nil =>
    subst hts
    obtain rfl := hp.eq_of_nil
    refine .inl ?_
    rw [bind_eq]
    cases items item stop c <;> rfl
  | cons p pieces ihp =>
    obtain ⟨ps, b⟩ := p
    obtain ⟨hb, hrest⟩ := List.forall_mem_cons.1 hder
    subst hts
    obtain ⟨m, h₁, h₂⟩ := hp.split
    have hm := h₂.closed_of hd
    obtain ⟨t, us, rfl⟩ := hb.exists_cons
    have ht := hb.head_declaration
    -- a declaration is followed by another one, or by what follows the items
    have hmk : m.current.kind ≠ .elseWord := by
      cases pieces with
      | nil =>
        obtain rfl := h₂.eq_of_nil
        exact hk
      | cons q pieces =>
        obtain ⟨qs, q⟩ := q
        have hq := hrest _ List.mem_cons_self
        obtain ⟨u, us', rfl⟩ := hq.exists_cons
        obtain ⟨rfl, -⟩ := h₂.uncons
        exact fun he => hq.head_declaration (by rw [he]; decide)
    have hns : stop c.current.kind ≠ true := by
      obtain ⟨rfl, -⟩ := h₁.uncons
      exact fun hs => ht (hstop _ hs)
    have hfirst := hitem (ih hb h₁ hm (.of_top rfl fun _ => hmk))
    have hothers := (ihp h₂ rfl hrest).then fun others => pure (b :: others)
    unfold Leads
    rw [items_eq hadv heof (h₁.closed_of hm), if_neg hns]
    refine (Leads.bind hfirst hothers).imp_left fun h => h.trans ?_
    rw [bind_eq, bind_eq, bind_eq]
    cases items item stop d <;> rfl

theorem complete_block (h : Derives lax (n + 1) .block ts a) :
    Leads lax (rule (n + 1) .block) c (pure a) d := by
  rw [rule_block]
  cases h with
  | block hl h hr =>
    obtain ⟨rfl, h₀⟩ := hp.uncons
    obtain ⟨m, h₁, h₂⟩ := h₀.split
    have hm := h₂.closed_of hd
    obtain ⟨rfl, h₃⟩ := h₂.uncons
    obtain rfl := h₃.eq_of_nil
    have hstop : ∀ k, endsBlock k = true → k ∈ [Kind.elseWord, .rightBrace, .eof] := by
      intro k hk
      simp only [endsBlock, Bool.or_eq_true, beq_iff_eq] at hk
      rcases hk with rfl | rfl <;> decide
    have hitems := complete_items ih h₁ hm (rule_advancing _ _) id rfl hstop rfl h
      (by rw [hr]; decide)
    have hend : items (rule n .declaration) endsBlock m = .ok [] m := by
      rw [items_eq (rule_advancing _ _) rfl hm, hr]
      rfl
    refine .step (eat_ok_iff.2 ⟨hl, rfl, rfl⟩) ?_
    refine .bind (hitems.trans (.step hend (.inl (by rw [List.append_nil])))) ?_
    exact .step (eat_ok_iff.2 ⟨hr, rfl, rfl⟩) (.refl _ _)

theorem complete_print (h : Derives lax (n + 1) .print ts a) :
    Leads lax (rule (n + 1) .print) c (pure a) d := by
  rw [rule]
  cases h with
  | print hk h hs =>
    obtain ⟨rfl, h₀⟩ := hp.uncons
    obtain ⟨m, h₁, h₂⟩ := h₀.split
    have hm := h₂.closed_of hd
    obtain ⟨rfl, h₃⟩ := h₂.uncons
    obtain rfl := h₃.eq_of_nil
    refine .step (eat_ok_iff.2 ⟨hk, rfl, rfl⟩) ?_
    refine .bind (ih h h₁ hm (.of_closer (by rw [hs]; decide))) ?_
    exact .step (eat_ok_iff.2 ⟨hs, rfl, rfl⟩) (.refl _ _)

theorem complete_ifElse (h : Derives lax (n + 1) .ifElse ts a)
    (hs : Stops .ifElse a d.current.kind) : Leads lax (rule (n + 1) .ifElse) c (pure a) d := by
  rw [rule]
  cases h with
  | ifThen hi hl hc hr ht =>
    obtain ⟨rfl, h₁⟩ := hp.uncons
    obtain ⟨rfl, h₂⟩ := h₁.uncons
    obtain ⟨m, h₃, h₄⟩ := h₂.split
    have hm := h₄.closed_of hd
    obtain ⟨rfl, h₅⟩ := h₄.uncons
    have hd' : d.current.kind ≠ .elseWord := hs.branch rfl
    refine .step (eat_ok_iff.2 ⟨hi, rfl, rfl⟩) (.step (eat_ok_iff.2 ⟨hl, rfl, rfl⟩) ?_)
    refine .bind (ih hc h₃ hm (.of_closer (by rw [hr]; decide))) ?_
    refine .step (eat_ok_iff.2 ⟨hr, rfl, rfl⟩) ?_
    refine .bind (ih ht h₅ hd (.of_top rfl fun _ => hd')) (.step (check_ok_iff.2 ⟨rfl, rfl⟩) ?_)
    rw [if_neg (fun hb => hd' (beq_iff_eq.1 hb))]
    exact .refl _ _
  | ifElse hi hl hc hr ht hdt hw he =>
    obtain ⟨rfl, h₁⟩ := hp.uncons
    obtain ⟨rfl, h₂⟩ := h₁.uncons
    obtain ⟨m, h₃, h₄⟩ := h₂.split
    have hm := h₄.closed_of hd
    obtain ⟨rfl, h₅⟩ := h₄.uncons
    obtain ⟨m', h₆, h₇⟩ := h₅.split
    have hm' := h₇.closed_of hd
    obtain ⟨rfl, h₈⟩ := h₇.uncons
    refine .step (eat_ok_iff.2 ⟨hi, rfl, rfl⟩) (.step (eat_ok_iff.2 ⟨hl, rfl, rfl⟩) ?_)
    refine .bind (ih hc h₃ hm (.of_closer (by rw [hr]; decide))) ?_
    refine .step (eat_ok_iff.2 ⟨hr, rfl, rfl⟩) ?_
    refine .bind (ih ht h₆ hm' (.of_solid rfl hdt)) ?_
    refine .step (check_ok_iff.2 ⟨rfl, rfl⟩) ?_
    rw [if_pos (beq_iff_eq.2 hw)]
    refine .step (advance_ok_iff.2 ⟨rfl, rfl⟩) ?_
    exact .bind (ih he h₈ hd (.of_top rfl hs.branch)) (.refl _ _)

theorem complete_whileLoop (h : Derives lax (n + 1) .whileLoop ts a)
    (hs : Stops .whileLoop a d.current.kind) :
    Leads lax (rule (n + 1) .whileLoop) c (pure a) d := by
  rw [rule]
  cases h with
  | whileLoop hw hl hc hr ht =>
    obtain ⟨rfl, h₁⟩ := hp.uncons
    obtain ⟨rfl, h₂⟩ := h₁.uncons
    obtain ⟨m, h₃, h₄⟩ := h₂.split
    have hm := h₄.closed_of hd
    obtain ⟨rfl, h₅⟩ := h₄.uncons
    refine .step (eat_ok_iff.2 ⟨hw, rfl, rfl⟩) (.step (eat_ok_iff.2 ⟨hl, rfl, rfl⟩) ?_)
    refine .bind (ih hc h₃ hm (.of_closer (by rw [hr]; decide))) ?_
    refine .step (eat_ok_iff.2 ⟨hr, rfl, rfl⟩) ?_
    exact .bind (ih ht h₅ hd (.of_top rfl hs.branch)) (.refl _ _)

theorem complete_exprStmt (h : Derives lax (n + 1) .exprStmt ts a) :
    Leads lax (rule (n + 1) .exprStmt) c (pure a) d := by
  rw [rule]
  cases h with
  | exprStmt h hs =>
    obtain ⟨m, h₁, h₂⟩ := hp.split
    have hm := h₂.closed_of hd
    obtain ⟨rfl, h₃⟩ := h₂.uncons
    obtain rfl := h₃.eq_of_nil
    obtain ⟨rfl, -⟩ := h₁.uncons
    refine .step (current_ok_iff.2 ⟨rfl, rfl⟩) ?_
    refine .bind (ih h h₁ hm (.of_closer (by rw [hs]; decide))) ?_
    exact .step (eat_ok_iff.2 ⟨hs, rfl, rfl⟩) (.refl _ _)

theorem complete_assignment (h : Derives lax (n + 1) .assignment ts a)
    (hs : Stops .assignment a d.current.kind) :
    Leads lax (rule (n + 1) .assignment) c (pure a) d := by
  rw [rule]
  cases h with
  | or h =>
    refine .bind (ih h hp hd ⟨fun l _ => hs.operator l (Nat.zero_le _), fun h => (by cases h),
      hs.branch⟩) ?_
    refine .step (check_ok_iff.2 ⟨rfl, rfl⟩) ?_
    rw [if_neg (fun hb => hs.equal rfl (beq_iff_eq.1 hb))]
    exact .refl _ _
  | @assign _ q xs ts t b ht hx hq h =>
    obtain ⟨m, h₁, h₂⟩ := hp.split
    have hm := h₂.closed_of hd
    obtain ⟨rfl, h₃⟩ := h₂.uncons
    have hst : Stops (.level .or) t m.current.kind := by
      rw [hq]
      exact ⟨fun l _ => by cases l <;> rfl, fun h => (by cases h), fun _ => by decide⟩
    refine .bind (ih ht h₁ hm hst) (.step (check_ok_iff.2 ⟨rfl, rfl⟩) ?_)
    rw [if_pos (beq_iff_eq.2 hq)]
    refine .step (advance_ok_iff.2 ⟨rfl, rfl⟩) ?_
    have hb := ih h h₃ hd ⟨hs.operator, hs.equal,
      fun hb => by rw [h.dangles_eq_false rfl] at hb; cases hb⟩
    refine .bind hb ?_
    -- a target that is no variable is rejected, which is allowed for loose targets only
    cases t with
    | var x => exact .refl _ _
    | _ =>
      refine .inr ⟨hx.resolve_right (by rintro ⟨x, hx⟩; cases hx), _, _, rfl⟩

/-- After what a level has derived, its loop goes on. -/
theorem chains_level {l : Level} (h : Derives lax (n + 1) (.level l) ts a)
    (hs : ∀ l' : Level, l.rank < l'.rank → l'.op? d.current.kind = none) :
    Leads lax (rule (n + 1) (.level l)) c (joined l (rule n l.operand) a) d := by
  have hstops : ∀ {ts : List Token} {a : Node} {d : Cursor}, Derives lax n l.operand ts a →
      (∀ l' : Level, l.rank < l'.rank → l'.op? d.current.kind = none) →
      Stops l.operand a d.current.kind := by
    intro ts a d h hs
    refine ⟨fun l' hl => hs l' (by rw [Level.rank_operand] at hl; exact hl), fun hr => ?_,
      fun hb => ?_⟩
    · rw [Level.rank_operand] at hr
      cases hr
    · rw [h.dangles_eq_false (Level.isExpr_operand l)] at hb
      cases hb
  rw [rule_level]
  refine Derives.level_induction (motive := fun ts a => ∀ {c d : Cursor}, c.Passes ts d →
    d.Closed → (∀ l' : Level, l.rank < l'.rank → l'.op? d.current.kind = none) →
    Leads lax (rule n l.operand >>= joined l (rule n l.operand)) c
      (joined l (rule n l.operand) a) d) ?_ ?_ h hp hd hs
  · intro ts a h c d hp hd hs
    exact .bind (ih h hp hd (hstops h hs)) (.refl _ _)
  · intro as bs a b m op _ iha hm hb c d hp hd hs
    obtain ⟨m', h₁, h₂⟩ := hp.split
    have hm' := h₂.closed_of hd
    obtain ⟨rfl, h₃⟩ := h₂.uncons
    -- the operator belongs to this level, so no tighter one takes it
    have hop : ∀ l' : Level, l.rank < l'.rank → l'.op? m'.current.kind = none := by
      intro l' hl
      cases ho : l'.op? m'.current.kind with
      | none => rfl
      | some op' =>
        rw [Level.eq_of_op? hm ho] at hl
        exact absurd hl (Nat.lt_irrefl _)
    refine (iha h₁ hm' hop).trans ?_
    unfold Leads
    rw [joined_eq (rule_advancing _ _) l a hm', hm]
    exact Leads.step (advance_ok_iff.2 ⟨rfl, rfl⟩) (.bind (ih hb h₃ hd (hstops hb hs)) (.refl _ _))

theorem complete_level {l : Level} (h : Derives lax (n + 1) (.level l) ts a)
    (hs : Stops (.level l) a d.current.kind) :
    Leads lax (rule (n + 1) (.level l)) c (pure a) d := by
  refine (chains_level ih hp hd h fun l' hl => hs.operator l' (Nat.le_of_lt hl)).trans (.inl ?_)
  rw [joined_eq (rule_advancing _ _) l a hd, hs.operator l (Nat.le_refl _)]
  rfl

theorem complete_unary (h : Derives lax (n + 1) .unary ts a) :
    Leads lax (rule (n + 1) .unary) c (pure a) d := by
  rw [rule]
  refine .step (current_ok_iff.2 ⟨rfl, rfl⟩) ?_
  cases h with
  | unary hm h =>
    obtain ⟨rfl, h₁⟩ := hp.uncons
    rw [hm]
    refine .step (advance_ok_iff.2 ⟨rfl, rfl⟩) ?_
    exact .bind (ih h h₁ hd (.of_unary (h.dangles_eq_false rfl))) (.refl _ _)
  | primary h =>
    obtain ⟨t, us, rfl⟩ := h.exists_cons
    obtain ⟨rfl, -⟩ := hp.uncons
    have hk : Op.ofUnary? c.current.kind = none := by
      have := h.head_primary
      simp only [Kind.primaries, List.mem_cons, List.not_mem_nil, or_false] at this
      rcases this with h | h | h | h | h | h | h <;> rw [h] <;> rfl
    rw [hk]
    exact ih h hp hd (.of_solid rfl (h.dangles_eq_false rfl))

theorem complete_primary (h : Derives lax (n + 1) .primary ts a) :
    Leads lax (rule (n + 1) .primary) c (pure a) d := by
  rw [rule]
  refine .step (current_ok_iff.2 ⟨rfl, rfl⟩) ?_
  cases h with
  | literal h =>
    obtain ⟨rfl, h₁⟩ := hp.uncons
    obtain rfl := h₁.eq_of_nil
    rcases h with h | h <;> rw [h] <;> exact .step (advance_ok_iff.2 ⟨rfl, rfl⟩) (.refl _ _)
  | truth h | falsity h | nil h | var h =>
    obtain ⟨rfl, h₁⟩ := hp.uncons
    obtain rfl := h₁.eq_of_nil
    rw [h]
    exact .step (advance_ok_iff.2 ⟨rfl, rfl⟩) (.refl _ _)
  | grouping hl h hr =>
    obtain ⟨rfl, h₁⟩ := hp.uncons
    obtain ⟨m, h₂, h₃⟩ := h₁.split
    have hm := h₃.closed_of hd
    obtain ⟨rfl, h₄⟩ := h₃.uncons
    obtain rfl := h₄.eq_of_nil
    rw [hl]
    refine .step (advance_ok_iff.2 ⟨rfl, rfl⟩) ?_
    refine .bind (ih h h₂ hm (.of_closer (by rw [hr]; decide))) ?_
    exact .step (eat_ok_iff.2 ⟨hr, rfl, rfl⟩) (.refl _ _)

end

theorem complete (lax : Prop) (n : Nat) : Complete lax n := by
  induction n with
  | zero =>
    intro r ts a c d h
    cases h
  | succ n ih =>
    intro r ts a c d h hp hd hs
    cases r with
    | declaration => exact complete_declaration ih hp hd h hs
    | varDecl => exact complete_varDecl ih hp hd h
    | statement => exact complete_statement ih hp hd h hs
    | block => exact complete_block ih hp hd h
    | print => exact complete_print ih hp hd h
    | ifElse => exact complete_ifElse ih hp hd h hs
    | whileLoop => exact complete_whileLoop ih hp hd h hs
    | exprStmt => exact complete_exprStmt ih hp hd h
    | expr =>
      cases h with
      | expr h => exact ih h hp hd ⟨hs.1, hs.2, hs.3⟩
    | assignment => exact complete_assignment ih hp hd h hs
    | level l => exact complete_level ih hp hd h hs
    | unary => exact complete_unary ih hp hd h
    | primary => exact complete_primary ih hp hd h

/-- A rule reads what it derives, up to a token that stops it. -/
theorem rule_complete {n : Nat} {r : Rule} {ts : List Token} {a : Node} {c d : Cursor}
    (h : Derives False n r ts a) (hp : c.Passes ts d) (hd : d.Closed)
    (hs : Stops r a d.current.kind) : rule n r c = .ok a d :=
  (complete False n h hp hd hs).resolve_right fun hl => hl.1

/-! ## Programs -/

theorem topLevel_leads {lax : Prop} {n : Nat} {c d : Cursor} {a : Node}
    (h : Leads lax (rule n .declaration) c (pure a) d) : Leads lax (topLevel n) c (pure a) d := by
  unfold Leads topLevel
  rcases h with h | ⟨hl, t, e, h⟩
  · exact .inl (by rw [h]; rfl)
  · exact .inr ⟨hl, t, e, by rw [h]⟩

/-- A program reads declarations and then whatever follows them, unless that is an `else`. -/
theorem program_append {lax : Prop} {n : Nat} {pieces : List (List Token × Node)} {c d : Cursor}
    (hder : ∀ p ∈ pieces, Derives lax n .declaration p.1 p.2)
    (hp : c.Passes (pieces.flatMap (·.1)) d) (hd : d.Closed) (hk : d.current.kind ≠ .elseWord) :
    Leads lax (program n) c (do
      let others ← program n
      pure (pieces.map (·.2) ++ others)) d := by
  rw [program_eq]
  refine complete_items (complete lax n) hp hd (topLevel_advancing n) topLevel_leads rfl ?_ rfl
    hder hk
  intro k hk
  rw [beq_iff_eq.1 hk]
  decide

theorem program_complete {lax : Prop} {n : Nat} {pieces : List (List Token × Node)} {c d : Cursor}
    (hder : ∀ p ∈ pieces, Derives lax n .declaration p.1 p.2)
    (hp : c.Passes (pieces.flatMap (·.1)) d) (hk : d.current.kind = .eof) :
    Leads lax (program n) c (pure (pieces.map (·.2))) d := by
  have hd : d.Closed := ⟨d.current, List.mem_cons_self, hk⟩
  have hend : program n d = .ok [] d := by
    rw [program_eq, items_eq (topLevel_advancing n) rfl hd, hk]
    rfl
  refine (program_append hder hp hd (by rw [hk]; decide)).trans (.step hend ?_)
  rw [List.append_nil]
  exact .refl _ _

end Parse

end Lox
