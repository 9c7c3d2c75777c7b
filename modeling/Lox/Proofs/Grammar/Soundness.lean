import Lox.Proofs.Grammar.Derivation

/-!
# Soundness of the parser

`rule_sound`: what a rule reads is derived by it, and the token it stops at does not go on with
it. Hence every rule that succeeds moves the cursor (`rule_advancing`), and `program_sound` says
the same of whole programs. One lemma for each rule; each takes the soundness of the rules one
level below (`Sound`).
-/

set_option autoImplicit false

namespace Lox

namespace Parse

open Cursor

/-- From `c` to `d` the rule `r` has read `a`. -/
def Reads (n : Nat) (r : Rule) (c : Cursor) (a : Node) (d : Cursor) : Prop :=
  ∃ ts, c.Passes ts d ∧ Derives False n r ts a ∧ Stops r a d.current.kind

/-- Every success of a rule within `n` levels is a reading. -/
def Sound (n : Nat) : Prop :=
  ∀ (r : Rule) ⦃c d : Cursor⦄ ⦃a : Node⦄, c.Closed → rule n r c = .ok a d → Reads n r c a d

/-- The token that has been eaten. -/
theorem passes_eaten {c : Cursor} {kind : Kind} (hc : c.Closed) (hk : c.current.kind = kind)
    (hne : kind ≠ .eof) : c.Passes [c.current] c.advance :=
  .step hc (by rwa [hk])

theorem advancing_of_reads {n : Nat} {r : Rule} {p : Parse Node}
    (h : ∀ ⦃c d : Cursor⦄ ⦃a : Node⦄, c.Closed → p c = .ok a d → Reads n r c a d) :
    Advancing p := by
  intro c d a hc hr
  obtain ⟨ts, hp, ha, -⟩ := h hc hr
  obtain ⟨t, us, rfl⟩ := ha.exists_cons
  exact ⟨t, us, hp⟩

/-- Items that are declarations are derived piece by piece, and what ends them is not passed. -/
theorem sound_items {n : Nat} {item : Parse Node} {stop : Kind → Bool}
    (hitem : ∀ ⦃c d : Cursor⦄ ⦃a : Node⦄, c.Closed → item c = .ok a d →
      Reads n .declaration c a d)
    (hstop : stop .eof = true) {c d : Cursor} {as : List Node} (hc : c.Closed)
    (h : items item stop c = .ok as d) :
    ∃ pieces : List (List Token × Node), as = pieces.map (·.2) ∧
      (∀ p ∈ pieces, Derives False n .declaration p.1 p.2) ∧
      c.Passes (pieces.flatMap (·.1)) d ∧ stop d.current.kind = true := by
  have hadv := advancing_of_reads hitem
  obtain ⟨k, hk⟩ : ∃ k, c.rest.length < k := ⟨_, Nat.lt_succ_self _⟩
  induction k generalizing c as with
  | zero => omega
  | succ k ihk =>
    rw [items_eq hadv hstop hc] at h
    split at h
    · cases h
      exact ⟨[], rfl, by simp, .refl _, ‹_›⟩
    · simp only [bind_ok_iff, pure_ok_iff] at h
      obtain ⟨first, m, hf, others, _, ho, rfl, rfl⟩ := h
      obtain ⟨ts, hp, ha, -⟩ := hitem hc hf
      obtain ⟨t, us, rfl⟩ := ha.exists_cons
      have hlen := hp.length
      simp only [List.length_cons] at hlen
      obtain ⟨pieces, rfl, hd, hps, hs⟩ := ihk (hp.closed hc) ho (by omega)
      exact ⟨(t :: us, first) :: pieces, rfl, List.forall_mem_cons.2 ⟨ha, hd⟩, hp.trans hps, hs⟩

section
variable {n : Nat} (ih : Sound n) {c d : Cursor} {a : Node} (hc : c.Closed)
include ih hc

theorem sound_declaration (h : rule (n + 1) .declaration c = .ok a d) :
    Reads (n + 1) .declaration c a d := by
  simp only [rule, bind_ok_iff, check_ok_iff] at h
  obtain ⟨b, m, ⟨-, rfl⟩, h⟩ := h
  split at h
  · obtain ⟨ts, hp, ha, hs⟩ := ih _ hc h
    exact ⟨ts, hp, .declared ha, .of_top rfl hs.branch⟩
  · obtain ⟨ts, hp, ha, hs⟩ := ih _ hc h
    exact ⟨ts, hp, .stated ha, .of_top rfl hs.branch⟩

theorem sound_varDecl (h : rule (n + 1) .varDecl c = .ok a d) :
    Reads (n + 1) .varDecl c a d := by
  simp only [rule, bind_ok_iff, eat_ok_iff, check_ok_iff] at h
  obtain ⟨_, _, ⟨hv, rfl, rfl⟩, _, _, ⟨hx, rfl, rfl⟩, _, _, ⟨hq, rfl⟩, h⟩ := h
  have hpv := passes_eaten hc hv (by decide)
  have hpx := passes_eaten (hpv.closed hc) hx (by decide)
  have hc₂ := (hpv.trans hpx).closed hc
  split at h
  · rename_i hb
    subst hq
    simp only [bind_ok_iff, advance_ok_iff, eat_ok_iff, pure_ok_iff] at h
    obtain ⟨_, _, ⟨rfl, rfl⟩, e, m, he, _, _, ⟨hs, rfl, rfl⟩, rfl, rfl⟩ := h
    have hq := beq_iff_eq.1 hb
    have hpq := passes_eaten hc₂ hq (by decide)
    obtain ⟨ts, hp, ha, -⟩ := ih _ (hpq.closed hc₂) he
    have hps := passes_eaten ((hpq.trans hp).closed hc₂) hs (by decide)
    refine ⟨_, ?_, .varInit hv hx hq ha hs, .of_solid rfl rfl⟩
    exact hpv.trans (hpx.trans (hpq.trans (hp.trans hps)))
  · simp only [bind_ok_iff, eat_ok_iff, pure_ok_iff] at h
    obtain ⟨_, _, ⟨hs, rfl, rfl⟩, rfl, rfl⟩ := h
    refine ⟨_, ?_, .varNil hv hx hs, .of_solid rfl rfl⟩
    exact hpv.trans (hpx.trans (passes_eaten hc₂ hs (by decide)))

theorem sound_statement (h : rule (n + 1) .statement c = .ok a d) :
    Reads (n + 1) .statement c a d := by
  rw [rule_statement] at h
  obtain ⟨ts, hp, ha, hs⟩ := ih _ hc h
  exact ⟨ts, hp, .form (Rule.formOf_mem _) ha, .of_top rfl hs.branch⟩

theorem sound_block (h : rule (n + 1) .block c = .ok a d) : Reads (n + 1) .block c a d := by
  simp only [rule_block, bind_ok_iff, eat_ok_iff, pure_ok_iff] at h
  obtain ⟨_, _, ⟨hl, rfl, rfl⟩, as, m, hi, _, _, ⟨hr, rfl, rfl⟩, rfl, rfl⟩ := h
  have hpl := passes_eaten hc hl (by decide)
  obtain ⟨pieces, rfl, hd, hp, -⟩ := sound_items (ih _) rfl (hpl.closed hc) hi
  have hpr := passes_eaten ((hpl.trans hp).closed hc) hr (by decide)
  exact ⟨_, hpl.trans (hp.trans hpr), .block hl hd hr, .of_solid rfl rfl⟩

theorem sound_print (h : rule (n + 1) .print c = .ok a d) : Reads (n + 1) .print c a d := by
  simp only [rule, bind_ok_iff, eat_ok_iff, pure_ok_iff] at h
  obtain ⟨_, _, ⟨hw, rfl, rfl⟩, e, m, he, _, _, ⟨hs, rfl, rfl⟩, rfl, rfl⟩ := h
  have hpw := passes_eaten hc hw (by decide)
  obtain ⟨ts, hp, ha, -⟩ := ih _ (hpw.closed hc) he
  have hps := passes_eaten ((hpw.trans hp).closed hc) hs (by decide)
  exact ⟨_, hpw.trans (hp.trans hps), .print hw ha hs, .of_solid rfl rfl⟩

theorem sound_ifElse (h : rule (n + 1) .ifElse c = .ok a d) : Reads (n + 1) .ifElse c a d := by
  simp only [rule, bind_ok_iff, eat_ok_iff, check_ok_iff] at h
  obtain ⟨_, _, ⟨hi, rfl, rfl⟩, _, _, ⟨hl, rfl, rfl⟩, e, m, he, _, _, ⟨hr, rfl, rfl⟩, t, m', ht, _,
    _, ⟨hb, rfl⟩, h⟩ := h
  have hpi := passes_eaten hc hi (by decide)
  have hpl := passes_eaten (hpi.closed hc) hl (by decide)
  have hc₂ := (hpi.trans hpl).closed hc
  obtain ⟨cs, hcs, hce, -⟩ := ih _ hc₂ he
  have hpr := passes_eaten (hcs.closed hc₂) hr (by decide)
  have hc₄ := (hcs.trans hpr).closed hc₂
  obtain ⟨ts, hts, hte, hst⟩ := ih _ hc₄ ht
  have hstart : ∀ {us : List Token} {d : Cursor}, m'.Passes us d →
      c.Passes (c.current :: c.advance.current :: (cs ++ m.current :: (ts ++ us))) d := by
    intro us d hu
    exact hpi.trans (hpl.trans (hcs.trans (hpr.trans (hts.trans hu))))
  split at h
  · rename_i hw
    subst hb
    have hw := beq_iff_eq.1 hw
    simp only [bind_ok_iff, advance_ok_iff, pure_ok_iff] at h
    obtain ⟨_, _, ⟨rfl, rfl⟩, b, _, hb, rfl, rfl⟩ := h
    have hpw := passes_eaten (hts.closed hc₄) hw (by decide)
    obtain ⟨es, hes, hee, hse⟩ := ih _ ((hts.trans hpw).closed hc₄) hb
    -- a branch that ends in an `if` would have taken the `else` itself
    have hd : t.dangles = false := by
      cases hd : t.dangles with
      | false => rfl
      | true => exact absurd hw (hst.branch hd)
    exact ⟨_, hstart (hpw.trans hes), .ifElse hi hl hce hr hte hd hw hee, .of_top rfl hse.branch⟩
  · rename_i hw
    subst hb
    obtain ⟨rfl, rfl⟩ := pure_ok_iff.1 h
    refine ⟨_, hstart (.refl _), ?_, .of_top rfl fun _ he => hw (beq_iff_eq.2 he)⟩
    rw [List.append_nil]
    exact .ifThen hi hl hce hr hte

theorem sound_whileLoop (h : rule (n + 1) .whileLoop c = .ok a d) :
    Reads (n + 1) .whileLoop c a d := by
  simp only [rule, bind_ok_iff, eat_ok_iff, pure_ok_iff] at h
  obtain ⟨_, _, ⟨hw, rfl, rfl⟩, _, _, ⟨hl, rfl, rfl⟩, e, m, he, _, _, ⟨hr, rfl, rfl⟩, t, _, ht, rfl,
    rfl⟩ := h
  have hpw := passes_eaten hc hw (by decide)
  have hpl := passes_eaten (hpw.closed hc) hl (by decide)
  have hc₂ := (hpw.trans hpl).closed hc
  obtain ⟨cs, hcs, hce, -⟩ := ih _ hc₂ he
  have hpr := passes_eaten (hcs.closed hc₂) hr (by decide)
  obtain ⟨ts, hts, hte, hst⟩ := ih _ ((hcs.trans hpr).closed hc₂) ht
  refine ⟨_, ?_, .whileLoop hw hl hce hr hte, .of_top rfl hst.branch⟩
  exact hpw.trans (hpl.trans (hcs.trans (hpr.trans hts)))

theorem sound_exprStmt (h : rule (n + 1) .exprStmt c = .ok a d) :
    Reads (n + 1) .exprStmt c a d := by
  simp only [rule, bind_ok_iff, current_ok_iff, eat_ok_iff, pure_ok_iff] at h
  obtain ⟨_, _, ⟨rfl, rfl⟩, e, m, he, _, _, ⟨hs, rfl, rfl⟩, rfl, rfl⟩ := h
  obtain ⟨ts, hp, ha, -⟩ := ih _ hc he
  obtain ⟨t, us, rfl⟩ := ha.exists_cons
  obtain ⟨rfl, -⟩ := hp.uncons
  refine ⟨_, ?_, .exprStmt ha hs, .of_solid rfl rfl⟩
  exact hp.trans (passes_eaten (hp.closed hc) hs (by decide))

theorem sound_expr (h : rule (n + 1) .expr c = .ok a d) : Reads (n + 1) .expr c a d := by
  obtain ⟨ts, hp, ha, hs⟩ := ih .assignment hc h
  exact ⟨ts, hp, .expr ha, ⟨hs.1, hs.2, hs.3⟩⟩

theorem sound_assignment (h : rule (n + 1) .assignment c = .ok a d) :
    Reads (n + 1) .assignment c a d := by
  simp only [rule, bind_ok_iff, check_ok_iff] at h
  obtain ⟨t, m, ht, _, _, ⟨hb, rfl⟩, h⟩ := h
  obtain ⟨xs, hxs, hxt, hsx⟩ := ih _ hc ht
  split at h
  · rename_i hq
    subst hb
    have hq := beq_iff_eq.1 hq
    simp only [bind_ok_iff, advance_ok_iff] at h
    obtain ⟨_, _, ⟨rfl, rfl⟩, v, m', hv, h⟩ := h
    have hpq := passes_eaten (hxs.closed hc) hq (by decide)
    obtain ⟨ts, hts, hta, hst⟩ := ih _ ((hxs.trans hpq).closed hc) hv
    have hp := hxs.trans (hpq.trans hts)
    cases t with
    | var x =>
      obtain ⟨rfl, rfl⟩ := pure_ok_iff.1 h
      exact ⟨_, hp, .assign hxt (.inr ⟨x, rfl⟩) hq hta, ⟨hst.1, hst.2, fun h => by cases h⟩⟩
    | _ => cases h
  · rename_i hq
    subst hb
    obtain ⟨rfl, rfl⟩ := pure_ok_iff.1 h
    refine ⟨xs, hxs, .or hxt, ⟨fun l _ => hsx.operator l l.rank_pos, fun _ he => ?_, hsx.branch⟩⟩
    exact hq (beq_iff_eq.2 he)

theorem sound_joined {l : Level} {left : Node} {as : List Token}
    (hl : Derives False (n + 1) (.level l) as left)
    (hs : ∀ l' : Level, l.rank < l'.rank → l'.op? c.current.kind = none)
    (h : joined l (rule n l.operand) left c = .ok a d) :
    ∃ ts, c.Passes ts d ∧ Derives False (n + 1) (.level l) (as ++ ts) a ∧
      Stops (.level l) a d.current.kind := by
  obtain ⟨k, hk⟩ : ∃ k, c.rest.length < k := ⟨_, Nat.lt_succ_self _⟩
  induction k generalizing c left as with
  | zero => omega
  | succ k ihk =>
    rw [joined_eq (advancing_of_reads (ih _)) l left hc] at h
    split at h
    · rename_i hop
      cases h
      refine ⟨[], .refl _, by rwa [List.append_nil], ⟨fun l' hle => ?_, ?_, ?_⟩⟩
      · rcases Nat.lt_or_eq_of_le hle with hlt | heq
        · exact hs l' hlt
        · have : l = l' := by cases l <;> cases l' <;> first | rfl | cases heq
          rwa [← this]
      · exact fun h => absurd h (Nat.ne_of_gt l.rank_pos)
      · exact fun h => by rw [hl.dangles_eq_false rfl] at h; cases h
    · rename_i op hop
      have hne : c.current.kind ≠ .eof := fun he => by rw [he, op?_eof] at hop; cases hop
      simp only [bind_ok_iff, advance_ok_iff] at h
      obtain ⟨_, _, ⟨rfl, rfl⟩, b, m, hb, h⟩ := h
      have hp := Passes.step hc hne
      obtain ⟨bs, hbs, hbd, hsb⟩ := ih _ (hp.closed hc) hb
      have hlen := hp.length
      have hlen' := hbs.length
      simp only [List.length_cons, List.length_nil] at hlen
      obtain ⟨ts, hts, htd, hst⟩ := ihk (hbs.closed (hp.closed hc)) (.join hl hop hbd)
        (fun l' hlt => hsb.operator l' (by rw [Level.rank_operand]; exact hlt)) h (by omega)
      refine ⟨_, hp.trans (hbs.trans hts), ?_, hst⟩
      rwa [List.append_assoc] at htd

theorem sound_level {l : Level} (h : rule (n + 1) (.level l) c = .ok a d) :
    Reads (n + 1) (.level l) c a d := by
  rw [rule_level, bind_ok_iff] at h
  obtain ⟨left, m, hl, h⟩ := h
  obtain ⟨as, has, hd, hs⟩ := ih _ hc hl
  obtain ⟨ts, hts, htd, hst⟩ := sound_joined ih (has.closed hc) (.operand hd)
    (fun l' hlt => hs.operator l' (by rw [Level.rank_operand]; exact hlt)) h
  exact ⟨_, has.trans hts, htd, hst⟩

theorem sound_unary (h : rule (n + 1) .unary c = .ok a d) : Reads (n + 1) .unary c a d := by
  simp only [rule, bind_ok_iff, current_ok_iff] at h
  obtain ⟨_, _, ⟨rfl, rfl⟩, h⟩ := h
  cases hop : Op.ofUnary? c.current.kind with
  | none =>
    rw [hop] at h
    obtain ⟨ts, hp, ha, -⟩ := ih _ hc h
    exact ⟨ts, hp, .primary ha, .of_unary (ha.dangles_eq_false rfl)⟩
  | some op =>
    rw [hop] at h
    simp only [bind_ok_iff, advance_ok_iff, pure_ok_iff] at h
    obtain ⟨_, _, ⟨rfl, rfl⟩, b, _, hb, rfl, rfl⟩ := h
    have hne : c.current.kind ≠ .eof := fun he => by rw [he] at hop; cases hop
    have hp := Passes.step hc hne
    obtain ⟨ts, hts, ha, -⟩ := ih _ (hp.closed hc) hb
    exact ⟨_, hp.trans hts, .unary hop ha, .of_unary rfl⟩

theorem sound_primary (h : rule (n + 1) .primary c = .ok a d) : Reads (n + 1) .primary c a d := by
  have leaf : ∀ {k : Kind} {b : Node}, c.current.kind = k → k ≠ .eof → b.dangles = false →
      Derives False (n + 1) .primary [c.current] b → (advance >>= fun _ => pure b) c = .ok a d →
      Reads (n + 1) .primary c a d := by
    intro k b hk hne hb hd h
    simp only [bind_ok_iff, advance_ok_iff, pure_ok_iff] at h
    obtain ⟨_, _, ⟨rfl, rfl⟩, rfl, rfl⟩ := h
    exact ⟨_, passes_eaten hc hk hne, hd, .of_solid rfl hb⟩
  simp only [rule, bind_ok_iff (x := current), current_ok_iff] at h
  obtain ⟨_, _, ⟨rfl, rfl⟩, h⟩ := h
  cases hk : c.current.kind with
  | number => rw [hk] at h; exact leaf hk (by decide) rfl (.literal (.inl hk)) h
  | string => rw [hk] at h; exact leaf hk (by decide) rfl (.literal (.inr hk)) h
  | trueWord => rw [hk] at h; exact leaf hk (by decide) rfl (.truth hk) h
  | falseWord => rw [hk] at h; exact leaf hk (by decide) rfl (.falsity hk) h
  | nilWord => rw [hk] at h; exact leaf hk (by decide) rfl (.nil hk) h
  | identifier => rw [hk] at h; exact leaf hk (by decide) rfl (.var hk) h
  | leftParen =>
    rw [hk] at h
    simp only [bind_ok_iff, advance_ok_iff, eat_ok_iff, pure_ok_iff] at h
    obtain ⟨_, _, ⟨rfl, rfl⟩, e, m, he, _, _, ⟨hr, rfl, rfl⟩, rfl, rfl⟩ := h
    have hpl := passes_eaten hc hk (by decide)
    obtain ⟨ts, hp, ha, -⟩ := ih _ (hpl.closed hc) he
    have hpr := passes_eaten ((hpl.trans hp).closed hc) hr (by decide)
    exact ⟨_, hpl.trans (hp.trans hpr), .grouping hk ha hr, .of_solid rfl rfl⟩
  | _ => rw [hk] at h; cases h

end

theorem sound (n : Nat) : Sound n := by
  induction n with
  | zero =>
    intro r c d a _ h
    cases h
  | succ n ih =>
    intro r c d a hc h
    cases r with
    | declaration => exact sound_declaration ih hc h
    | varDecl => exact sound_varDecl ih hc h
    | statement => exact sound_statement ih hc h
    | block => exact sound_block ih hc h
    | print => exact sound_print ih hc h
    | ifElse => exact sound_ifElse ih hc h
    | whileLoop => exact sound_whileLoop ih hc h
    | exprStmt => exact sound_exprStmt ih hc h
    | expr => exact sound_expr ih hc h
    | assignment => exact sound_assignment ih hc h
    | level l => exact sound_level ih hc h
    | unary => exact sound_unary ih hc h
    | primary => exact sound_primary ih hc h

/-- What a rule reads is derived, and what it stops at does not go on with it. -/
theorem rule_sound {n : Nat} {r : Rule} {c d : Cursor} {a : Node} (hc : c.Closed)
    (h : rule n r c = .ok a d) :
    ∃ ts, c.Passes ts d ∧ Derives False n r ts a ∧ Stops r a d.current.kind :=
  sound n r hc h

theorem rule_advancing (n : Nat) (r : Rule) : Advancing (rule n r) :=
  advancing_of_reads (sound n r)

/-! ## Programs -/

theorem topLevel_ok_iff {n : Nat} {c d : Cursor} {a : Node} :
    topLevel n c = .ok a d ↔ rule n .declaration c = .ok a d := by
  unfold topLevel
  split
  · rename_i h
    simp [h]
  · rfl

theorem topLevel_advancing (n : Nat) : Advancing (topLevel n) := fun _ _ _ hc h =>
  rule_advancing n .declaration hc (topLevel_ok_iff.1 h)

theorem program_eq (n : Nat) : program n = items (topLevel n) (· == .eof) := by
  funext c
  rfl

theorem program_sound {n : Nat} {c d : Cursor} {as : List Node} (hc : c.Closed)
    (h : program n c = .ok as d) :
    ∃ pieces : List (List Token × Node), as = pieces.map (·.2) ∧
      (∀ p ∈ pieces, Derives False n .declaration p.1 p.2) ∧
      c.Passes (pieces.flatMap (·.1)) d ∧ d.current.kind = .eof := by
  rw [program_eq] at h
  obtain ⟨pieces, ha, hd, hp, hs⟩ :=
    sound_items (fun _ _ _ hc h => rule_sound hc (topLevel_ok_iff.1 h)) rfl hc h
  exact ⟨pieces, ha, hd, hp, beq_iff_eq.1 hs⟩

end Parse

end Lox
