import Lox.Proofs.Grammar.Completeness
import Lox.Proofs.Grammar.Program

/-!
# Errors at the end of source

A parse error at the end of source means that the tokens so far begin a program; any other error is
final. `fixes`: where a rule rejects the end of source, tokens can be added so that the rule derives
the whole (`Fixes`), by induction on the levels and one lemma for each rule. Targets of assignments
are left open, since the parser looks at them only when their value has been read.

A rejected end of source mostly says that the parser had levels enough to go on. It does not where a
`(` is missing: the condition after it takes ten levels that nothing has asked for yet
(`ParseFault.extra`).

Main statement: `parse_error_located`.
-/

set_option autoImplicit false

namespace Lox

/-- The levels that going on after a fault at the end of source may take beyond those at hand. -/
def ParseFault.extra : ParseFault → Nat
  | .expected .leftParen _ => 10
  | _ => 0

theorem ParseFault.extra_cases (f : ParseFault) :
    (∃ context, f = .expected .leftParen context) ∧ f.extra = 10 ∨ f.extra = 0 := by
  unfold extra
  split
  · exact .inl ⟨⟨_, rfl⟩, rfl⟩
  · exact .inr rfl

/-- A token of the given kind. -/
def Token.sample (k : Kind) : Token := ⟨k, k.spelling, .nil, 1⟩

/-- The rule is called only where a token of kind `k` may start it. -/
def Rule.Opens (r : Rule) (k : Kind) : Prop :=
  (r = .varDecl → k = .varWord) ∧ (r ∈ Rule.forms → Rule.formOf k = r)

theorem Rule.Opens.of_inner {r : Rule} (h : r ≠ .varDecl ∧ r ∉ Rule.forms) (k : Kind) :
    r.Opens k := ⟨fun hr => absurd hr h.1, fun hr => absurd hr h.2⟩

theorem Rule.opens_expr (k : Kind) : expr.Opens k := .of_inner (by decide) k

theorem Rule.opens_statement (k : Kind) : statement.Opens k := .of_inner (by decide) k

theorem Level.opens_operand (l : Level) (k : Kind) : l.operand.Opens k := by
  cases l <;> exact .of_inner (by decide) k

/-- The word that a form of statement starts with. -/
def Rule.word : Rule → Kind
  | ifElse => .ifWord
  | whileLoop => .whileWord
  | block => .leftBrace
  | print => .printWord
  | _ => .eof

theorem Rule.Opens.kind_eq {r : Rule} {k : Kind} (h : r.Opens k)
    (hr : r ∈ Rule.forms ∧ r ≠ .exprStmt) : k = r.word := by
  obtain ⟨hform, hne⟩ := hr
  obtain rfl := h.2 hform
  cases k <;> first | rfl | exact absurd rfl hne

theorem Derives.two_le {lax : Prop} {n : Nat} {ts : List Token} {a : Node}
    (h : Derives lax n .expr ts a) : 2 ≤ n := by
  cases h with
  | expr h => cases h <;> omega

/-- An expression that can be added. -/
theorem sample_expr {n : Nat} (h : 10 ≤ n) :
    Derives True n .expr [.sample .identifier] (.var (.sample .identifier)) := by
  have : Derives False 10 .expr [.sample .identifier] (.var (.sample .identifier)) :=
    .expr (.or (Derivable.variable_or rfl))
  exact this.loosen.mono h

/-- A statement that can be added. -/
theorem sample_block {n : Nat} (h : 2 ≤ n) :
    Derives True n .statement [.sample .leftBrace, .sample .rightBrace] (.block [] 1) := by
  have hnone : ∀ p ∈ ([] : List (List Token × Node)), Derives True 0 .declaration p.1 p.2 := by
    simp
  have : Derives True 2 .statement [.sample .leftBrace, .sample .rightBrace] (.block [] 1) :=
    .form (by decide) (.block rfl hnone rfl)
  exact this.mono h

namespace Parse

open Cursor

/-- The rule `r` has passed all tokens from `c` to the end of source at `d`, and with more tokens it
derives them. -/
def Fixes (n : Nat) (r : Rule) (c : Cursor) (fault : ParseFault) (d : Cursor) : Prop :=
  ∃ (ts : List Token) (ks : List Kind), c.Passes ts d ∧ d.current.kind = .eof ∧ .eof ∉ ks ∧
    ∃ a, Derives True (fault.extra + n) r (ts ++ ks.map .sample) a

section
variable {n : Nat} {r r' : Rule} {c m d : Cursor} {xs : List Token} {fault : ParseFault}

/-- The rule itself has met the end of source. -/
theorem Fixes.here (hp : c.Passes xs d) (hd : d.current.kind = .eof) (ks : List Kind)
    (hks : .eof ∉ ks) {a : Node} (h : Derives True (fault.extra + n) r (xs ++ ks.map .sample) a) :
    Fixes n r c fault d := ⟨xs, ks, hp, hd, hks, a, h⟩

/-- A rule that was called has met the end of source. -/
theorem Fixes.within (h : Fixes n r' m fault d) (hp : c.Passes xs m) (ks : List Kind)
    (hks : .eof ∉ ks)
    (hr : ∀ ts a, Derives True (fault.extra + n) r' ts a →
      ∃ b, Derives True (fault.extra + (n + 1)) r (xs ++ (ts ++ ks.map .sample)) b) :
    Fixes (n + 1) r c fault d := by
  obtain ⟨ts, ks', hp', hd, hks', a, ha⟩ := h
  obtain ⟨b, hb⟩ := hr _ a ha
  refine ⟨xs ++ ts, ks' ++ ks, hp.trans hp', hd, by simp [hks, hks'], b, ?_⟩
  simpa only [List.map_append, List.append_assoc] using hb

theorem Fixes.pass (h : Fixes n r' c fault d)
    (hr : ∀ ts a, Derives True (fault.extra + n) r' ts a →
      Derives True (fault.extra + (n + 1)) r ts a) :
    Fixes (n + 1) r c fault d := by
  obtain ⟨ts, ks, hp, hd, hks, a, ha⟩ := h
  exact ⟨ts, ks, hp, hd, hks, a, hr _ a ha⟩

end

/-- Every rejection of the end of source by a rule within `n` levels can be mended. -/
def Fixing (n : Nat) : Prop :=
  ∀ (r : Rule) ⦃c d : Cursor⦄ ⦃fault : ParseFault⦄ ⦃t : Token⦄, c.Closed → r.Opens c.current.kind →
    rule n r c = .error (.rejected ⟨fault, t⟩) d → t.kind = .eof → Fixes n r c fault d

/-! ## Rules -/

section
variable {n : Nat} (ih : Fixing n) {c d : Cursor} {fault : ParseFault} {t : Token} (hc : c.Closed)
  (ht : t.kind = .eof)
include ih hc ht

theorem fixes_declaration (h : rule (n + 1) .declaration c = .error (.rejected ⟨fault, t⟩) d) :
    Fixes (n + 1) .declaration c fault d := by
  simp only [rule, bind_error_iff, check_ok_iff] at h
  obtain h | ⟨b, m, ⟨rfl, rfl⟩, h⟩ := h
  · cases h
  split at h
  · rename_i hv
    have hopen : Rule.varDecl.Opens c.current.kind :=
      ⟨fun _ => beq_iff_eq.1 hv, fun h => absurd h (by decide)⟩
    exact (ih _ hc hopen h ht).pass fun ts a ha => .declared ha
  · exact (ih _ hc (Rule.opens_statement _) h ht).pass fun ts a ha => .stated ha

theorem fixes_statement (h : rule (n + 1) .statement c = .error (.rejected ⟨fault, t⟩) d) :
    Fixes (n + 1) .statement c fault d := by
  rw [rule_statement] at h
  have hopen : (Rule.formOf c.current.kind).Opens c.current.kind :=
    ⟨fun hv => absurd (hv ▸ Rule.formOf_mem c.current.kind) (by decide), fun _ => rfl⟩
  exact (ih _ hc hopen h ht).pass fun ts a ha => .form (Rule.formOf_mem _) ha

theorem fixes_varDecl (hv : c.current.kind = .varWord)
    (h : rule (n + 1) .varDecl c = .error (.rejected ⟨fault, t⟩) d) :
    Fixes (n + 1) .varDecl c fault d := by
  have hpv := passes_eaten hc hv (by decide)
  simp only [rule, bind_error_iff, eat_error_iff, eat_ok_iff, check_ok_iff] at h
  obtain ⟨hk, -⟩ | ⟨_, _, ⟨-, rfl, rfl⟩, ⟨-, he, rfl⟩ | ⟨_, _, ⟨hx, rfl, rfl⟩, h⟩⟩ := h
  · exact absurd hv hk
  · cases he
    exact .here hpv ht [.identifier, .semicolon] (by decide) (.varNil hv rfl rfl)
  have hstart := hpv.trans (passes_eaten (hpv.closed hc) hx (by decide))
  have hc₂ := hstart.closed hc
  obtain h | ⟨b, m, ⟨hb, rfl⟩, h⟩ := h
  · cases h
  split at h
  · rename_i hq
    subst hb
    have hq := beq_iff_eq.1 hq
    have hpq := passes_eaten hc₂ hq (by decide)
    have hc₃ := hpq.closed hc₂
    simp only [bind_error_iff, advance_ok_iff, eat_error_iff] at h
    obtain h | ⟨_, _, ⟨rfl, rfl⟩, h | ⟨e, m, hm, ⟨-, he, rfl⟩ | ⟨_, _, -, h⟩⟩⟩ := h
    · cases h
    · exact (ih _ hc₃ (Rule.opens_expr _) h ht).within (hstart.trans hpq) [.semicolon] (by decide)
        fun ts a ha => ⟨_, .varInit hv hx hq ha rfl⟩
    · cases he
      obtain ⟨ts, hp, ha, -⟩ := rule_sound hc₃ hm
      exact .here (hstart.trans (hpq.trans hp)) ht [.semicolon] (by decide)
        (.varInit hv hx hq (ha.weaken False.elim _) rfl)
    · cases h
  · simp only [bind_error_iff, eat_error_iff] at h
    obtain ⟨-, he, rfl⟩ | ⟨_, _, -, h⟩ := h
    · cases he
      exact .here hstart ht [.semicolon] (by decide) (.varNil hv hx rfl)
    · cases h

theorem fixes_print (hk : c.current.kind = .printWord)
    (h : rule (n + 1) .print c = .error (.rejected ⟨fault, t⟩) d) :
    Fixes (n + 1) .print c fault d := by
  have hpk := passes_eaten hc hk (by decide)
  have hc₁ := hpk.closed hc
  simp only [rule, bind_error_iff, eat_error_iff, eat_ok_iff] at h
  obtain ⟨hne, -⟩ | ⟨_, _, ⟨-, rfl, rfl⟩, h | ⟨e, m, hm, ⟨-, he, rfl⟩ | ⟨_, _, -, h⟩⟩⟩ := h
  · exact absurd hk hne
  · exact (ih _ hc₁ (Rule.opens_expr _) h ht).within hpk [.semicolon] (by decide)
      fun ts a ha => ⟨_, .print hk ha rfl⟩
  · cases he
    obtain ⟨ts, hp, ha, -⟩ := rule_sound hc₁ hm
    exact .here (hpk.trans hp) ht [.semicolon] (by decide)
      (.print hk (ha.weaken False.elim _) rfl)
  · cases h

theorem fixes_exprStmt (h : rule (n + 1) .exprStmt c = .error (.rejected ⟨fault, t⟩) d) :
    Fixes (n + 1) .exprStmt c fault d := by
  simp only [rule, bind_error_iff, current_ok_iff, eat_error_iff] at h
  obtain h | ⟨_, _, ⟨rfl, rfl⟩, h | ⟨e, m, hm, ⟨-, he, rfl⟩ | ⟨_, _, -, h⟩⟩⟩ := h
  · cases h
  · refine (ih _ hc (Rule.opens_expr _) h ht).within (.refl _) [.semicolon] (by decide) ?_
    intro ts a ha
    obtain ⟨u, us, rfl⟩ := ha.exists_cons
    exact ⟨_, .exprStmt ha rfl⟩
  · cases he
    obtain ⟨ts, hp, ha, -⟩ := rule_sound hc hm
    obtain ⟨u, us, rfl⟩ := ha.exists_cons
    exact .here hp ht [.semicolon] (by decide) (.exprStmt (ha.weaken False.elim _) rfl)
  · cases h

theorem fixes_assignment (h : rule (n + 1) .assignment c = .error (.rejected ⟨fault, t⟩) d) :
    Fixes (n + 1) .assignment c fault d := by
  simp only [rule, bind_error_iff, check_ok_iff] at h
  obtain h | ⟨x, m, hx, h⟩ := h
  · exact (ih _ hc (.of_inner (by decide) _) h ht).pass fun ts a ha => .or ha
  obtain h | ⟨b, _, ⟨hb, rfl⟩, h⟩ := h
  · cases h
  split at h
  · rename_i hq
    subst hb
    have hq := beq_iff_eq.1 hq
    obtain ⟨xs, hp, ha, -⟩ := rule_sound hc hx
    simp only [bind_error_iff, advance_ok_iff] at h
    obtain h | ⟨_, _, ⟨rfl, rfl⟩, h | ⟨v, m', -, h⟩⟩ := h
    · cases h
    · have hpq := hp.trans (passes_eaten (hp.closed hc) hq (by decide))
      refine (ih _ (hpq.closed hc) (.of_inner (by decide) _) h ht).within hpq [] (by decide) ?_
      intro ts b hb
      rw [List.map_nil, List.append_nil, List.append_assoc]
      exact ⟨_, .assign (ha.weaken False.elim _) (.inl trivial) hq hb⟩
    -- the target of an assignment is not the end of source
    · cases x with
      | var x => cases h
      | _ =>
        cases h
        rw [hq] at ht
        cases ht
  · cases h

theorem fixes_ifElse (hk : c.current.kind = .ifWord)
    (h : rule (n + 1) .ifElse c = .error (.rejected ⟨fault, t⟩) d) :
    Fixes (n + 1) .ifElse c fault d := by
  have hpk := passes_eaten hc hk (by decide)
  simp only [rule, bind_error_iff, eat_error_iff, eat_ok_iff, check_ok_iff] at h
  obtain ⟨hne, -⟩ | ⟨_, _, ⟨-, rfl, rfl⟩, ⟨-, he, rfl⟩ | ⟨_, _, ⟨hl, rfl, rfl⟩, h⟩⟩ := h
  · exact absurd hk hne
  · cases he
    exact .here hpk ht [.leftParen, .identifier, .rightParen, .leftBrace, .rightBrace] (by decide)
      (.ifThen hk rfl (sample_expr (Nat.le_add_right 10 n)) rfl (sample_block (by omega)))
  have hstart := hpk.trans (passes_eaten (hpk.closed hc) hl (by decide))
  have hc₂ := hstart.closed hc
  obtain h | ⟨e, m, hm, h⟩ := h
  · refine (ih _ hc₂ (Rule.opens_expr _) h ht).within hstart
      [.rightParen, .leftBrace, .rightBrace] (by decide) fun ts a ha => ?_
    exact ⟨_, .ifThen hk hl ha rfl (sample_block ha.two_le)⟩
  obtain ⟨cs, hcs, hce, -⟩ := rule_sound hc₂ hm
  obtain ⟨-, he, rfl⟩ | ⟨_, _, ⟨hr, rfl, rfl⟩, h⟩ := h
  · cases he
    exact .here (hstart.trans hcs) ht [.rightParen, .leftBrace, .rightBrace] (by decide)
      (.ifThen hk hl (hce.weaken False.elim _) rfl (sample_block (hce.weaken id _).two_le))
  have hbranch := hstart.trans (hcs.trans (passes_eaten (hcs.closed hc₂) hr (by decide)))
  have hc₄ := hbranch.closed hc
  obtain h | ⟨s, m', hs, h⟩ := h
  · refine (ih _ hc₄ (Rule.opens_statement _) h ht).within hbranch [] (by decide) fun ts a ha => ?_
    simp only [List.map_nil, List.append_nil, List.append_assoc]
    exact ⟨_, .ifThen hk hl (hce.weaken False.elim _) hr ha⟩
  obtain ⟨ss, hss, hse, hstops⟩ := rule_sound hc₄ hs
  obtain h | ⟨b, _, ⟨hb, rfl⟩, h⟩ := h
  · cases h
  split at h
  · rename_i hw
    subst hb
    have hw := beq_iff_eq.1 hw
    have hpw := hss.trans (passes_eaten (hss.closed hc₄) hw (by decide))
    have hd : s.dangles = false := by
      cases hd : s.dangles with
      | false => rfl
      | true => exact absurd hw (hstops.branch hd)
    simp only [bind_error_iff, advance_ok_iff] at h
    obtain h | ⟨_, _, ⟨rfl, rfl⟩, h | ⟨_, _, -, h⟩⟩ := h
    · cases h
    · refine (ih _ (hpw.closed hc₄) (Rule.opens_statement _) h ht).within (hbranch.trans hpw) []
        (by decide) fun ts a ha => ?_
      simp only [List.map_nil, List.append_nil, List.cons_append, List.append_assoc,
        List.nil_append]
      exact ⟨_, .ifElse hk hl (hce.weaken False.elim _) hr (hse.weaken False.elim _) hd hw ha⟩
    · cases h
  · cases h

theorem fixes_whileLoop (hk : c.current.kind = .whileWord)
    (h : rule (n + 1) .whileLoop c = .error (.rejected ⟨fault, t⟩) d) :
    Fixes (n + 1) .whileLoop c fault d := by
  have hpk := passes_eaten hc hk (by decide)
  simp only [rule, bind_error_iff, eat_error_iff, eat_ok_iff] at h
  obtain ⟨hne, -⟩ | ⟨_, _, ⟨-, rfl, rfl⟩, ⟨-, he, rfl⟩ | ⟨_, _, ⟨hl, rfl, rfl⟩, h⟩⟩ := h
  · exact absurd hk hne
  · cases he
    exact .here hpk ht [.leftParen, .identifier, .rightParen, .leftBrace, .rightBrace] (by decide)
      (.whileLoop hk rfl (sample_expr (Nat.le_add_right 10 n)) rfl (sample_block (by omega)))
  have hstart := hpk.trans (passes_eaten (hpk.closed hc) hl (by decide))
  have hc₂ := hstart.closed hc
  obtain h | ⟨e, m, hm, h⟩ := h
  · refine (ih _ hc₂ (Rule.opens_expr _) h ht).within hstart
      [.rightParen, .leftBrace, .rightBrace] (by decide) fun ts a ha => ?_
    exact ⟨_, .whileLoop hk hl ha rfl (sample_block ha.two_le)⟩
  obtain ⟨cs, hcs, hce, -⟩ := rule_sound hc₂ hm
  obtain ⟨-, he, rfl⟩ | ⟨_, _, ⟨hr, rfl, rfl⟩, h⟩ := h
  · cases he
    exact .here (hstart.trans hcs) ht [.rightParen, .leftBrace, .rightBrace] (by decide)
      (.whileLoop hk hl (hce.weaken False.elim _) rfl (sample_block (hce.weaken id _).two_le))
  have hbranch := hstart.trans (hcs.trans (passes_eaten (hcs.closed hc₂) hr (by decide)))
  obtain h | ⟨s, m', -, h⟩ := h
  · refine (ih _ (hbranch.closed hc) (Rule.opens_statement _) h ht).within hbranch [] (by decide)
      fun ts a ha => ?_
    simp only [List.map_nil, List.append_nil, List.append_assoc]
    exact ⟨_, .whileLoop hk hl (hce.weaken False.elim _) hr ha⟩
  · cases h

theorem fixes_unary (h : rule (n + 1) .unary c = .error (.rejected ⟨fault, t⟩) d) :
    Fixes (n + 1) .unary c fault d := by
  simp only [rule, bind_error_iff (x := current), current_ok_iff] at h
  obtain h | ⟨_, _, ⟨rfl, rfl⟩, h⟩ := h
  · cases h
  cases hop : Op.ofUnary? c.current.kind with
  | none =>
    rw [hop] at h
    exact (ih _ hc (.of_inner (by decide) _) h ht).pass fun ts a ha => .primary ha
  | some op =>
    rw [hop] at h
    simp only [bind_error_iff, advance_ok_iff] at h
    have hne : c.current.kind ≠ .eof := fun he => by rw [he] at hop; cases hop
    have hp := Passes.step hc hne
    obtain h | ⟨_, _, ⟨rfl, rfl⟩, h | ⟨_, _, -, h⟩⟩ := h
    · cases h
    · refine (ih _ (hp.closed hc) (.of_inner (by decide) _) h ht).within hp [] (by decide)
        fun ts a ha => ?_
      rw [List.map_nil, List.append_nil]
      exact ⟨_, .unary hop ha⟩
    · cases h

theorem fixes_primary (h : rule (n + 1) .primary c = .error (.rejected ⟨fault, t⟩) d) :
    Fixes (n + 1) .primary c fault d := by
  have leaf : ∀ a : Node, (advance >>= fun _ => pure a) c ≠ .error (.rejected ⟨fault, t⟩) d :=
    fun a h => by cases h
  simp only [rule, bind_error_iff (x := current), current_ok_iff] at h
  obtain h | ⟨_, _, ⟨rfl, rfl⟩, h⟩ := h
  · cases h
  cases hk : c.current.kind with
  | number | string | trueWord | falseWord | nilWord | identifier =>
    rw [hk] at h
    exact absurd h (leaf _)
  | leftParen =>
    have hp := passes_eaten hc hk (by decide)
    rw [hk] at h
    simp only [bind_error_iff, advance_ok_iff, eat_error_iff] at h
    obtain h | ⟨_, _, ⟨rfl, rfl⟩, h | ⟨e, m, hm, ⟨-, he, rfl⟩ | ⟨_, _, -, h⟩⟩⟩ := h
    · cases h
    · exact (ih _ (hp.closed hc) (Rule.opens_expr _) h ht).within hp [.rightParen] (by decide)
        fun ts a ha => ⟨_, .grouping hk ha rfl⟩
    · cases he
      obtain ⟨ts, hts, ha, -⟩ := rule_sound (hp.closed hc) hm
      exact .here (hp.trans hts) ht [.rightParen] (by decide)
        (.grouping hk (ha.weaken False.elim _) rfl)
    · cases h
  | _ =>
    rw [hk] at h
    obtain ⟨he, rfl⟩ := reject_error_iff.1 h
    cases he
    exact .here (.refl _) ht [.identifier] (by decide) (.var rfl)

/-- A chain of operands whose next operand meets the end of source. -/
theorem fixes_joined {l : Level} {left : Node} {as : List Token}
    (hl : Derives False (n + 1) (.level l) as left)
    (h : joined l (rule n l.operand) left c = .error (.rejected ⟨fault, t⟩) d) :
    ∃ (ts : List Token) (ks : List Kind), c.Passes ts d ∧ d.current.kind = .eof ∧ .eof ∉ ks ∧
      ∃ a, Derives True (fault.extra + (n + 1)) (.level l) (as ++ (ts ++ ks.map .sample)) a := by
  obtain ⟨k, hk⟩ : ∃ k, c.rest.length < k := ⟨_, Nat.lt_succ_self _⟩
  induction k generalizing c left as with
  | zero => omega
  | succ k ihk =>
    rw [joined_eq (rule_advancing _ _) l left hc] at h
    split at h
    · cases h
    · rename_i op hop
      have hne : c.current.kind ≠ .eof := fun he => by rw [he, op?_eof] at hop; cases hop
      have hp := Passes.step hc hne
      simp only [bind_error_iff, advance_ok_iff] at h
      obtain h | ⟨_, _, ⟨rfl, rfl⟩, h | ⟨b, m, hb, h⟩⟩ := h
      · cases h
      · obtain ⟨ts, ks, hts, hd, hks, b, hb⟩ := ih _ (hp.closed hc) (l.opens_operand _) h ht
        exact ⟨_, ks, hp.trans hts, hd, hks, _, .join (hl.weaken False.elim _) hop hb⟩
      · obtain ⟨bs, hbs, hbd, -⟩ := rule_sound (hp.closed hc) hb
        have hlen := hp.length
        have hlen' := hbs.length
        simp only [List.length_cons, List.length_nil] at hlen
        obtain ⟨ts, ks, hts, hd, hks, a, ha⟩ :=
          ihk (hbs.closed (hp.closed hc)) (.join hl hop hbd) h (by omega)
        refine ⟨_, ks, hp.trans (hbs.trans hts), hd, hks, a, ?_⟩
        simpa only [List.append_assoc, List.cons_append, List.nil_append] using ha

theorem fixes_level {l : Level} (h : rule (n + 1) (.level l) c = .error (.rejected ⟨fault, t⟩) d) :
    Fixes (n + 1) (.level l) c fault d := by
  rw [rule_level, bind_error_iff] at h
  obtain h | ⟨left, m, hl, h⟩ := h
  · exact (ih _ hc (l.opens_operand _) h ht).pass fun ts a ha => .operand ha
  · obtain ⟨as, has, hd, -⟩ := rule_sound hc hl
    obtain ⟨ts, ks, hts, hde, hks, a, ha⟩ :=
      fixes_joined ih (has.closed hc) ht (.operand hd) h
    exact ⟨_, ks, has.trans hts, hde, hks, a, by rwa [List.append_assoc]⟩

end

/-- Declarations of which the next one meets the end of source. -/
theorem fixes_items {n : Nat} {item : Parse Node} {stop : Kind → Bool} {fault : ParseFault}
    {t : Token} (hitem : ∀ ⦃c d : Cursor⦄ ⦃a : Node⦄, c.Closed → item c = .ok a d →
      Reads n .declaration c a d)
    (herror : ∀ ⦃c d : Cursor⦄, c.Closed → item c = .error (.rejected ⟨fault, t⟩) d →
      Fixes n .declaration c fault d)
    (hstop : stop .eof = true) {c d : Cursor} (hc : c.Closed)
    (h : items item stop c = .error (.rejected ⟨fault, t⟩) d) :
    ∃ (ts : List Token) (ks : List Kind) (pieces : List (List Token × Node)),
      c.Passes ts d ∧ d.current.kind = .eof ∧ .eof ∉ ks ∧
      ts ++ ks.map .sample = pieces.flatMap (·.1) ∧
      ∀ p ∈ pieces, Derives True (fault.extra + n) .declaration p.1 p.2 := by
  have hadv := advancing_of_reads hitem
  obtain ⟨k, hk⟩ : ∃ k, c.rest.length < k := ⟨_, Nat.lt_succ_self _⟩
  induction k generalizing c with
  | zero => omega
  | succ k ihk =>
    rw [items_eq hadv hstop hc] at h
    split at h
    · cases h
    · simp only [bind_error_iff] at h
      obtain h | ⟨first, m, hf, h | ⟨_, _, -, h⟩⟩ := h
      · obtain ⟨ts, ks, hp, hd, hks, a, ha⟩ := herror hc h
        exact ⟨ts, ks, [(ts ++ ks.map .sample, a)], hp, hd, hks, by simp, by simpa using ha⟩
      · obtain ⟨xs, hp, ha, -⟩ := hitem hc hf
        obtain ⟨u, us, rfl⟩ := ha.exists_cons
        have hlen := hp.length
        simp only [List.length_cons] at hlen
        obtain ⟨ts, ks, pieces, hps, hd, hks, hts, hall⟩ := ihk (hp.closed hc) h (by omega)
        refine ⟨_, ks, (u :: us, first) :: pieces, hp.trans hps, hd, hks, ?_, ?_⟩
        · rw [List.append_assoc, hts]
          rfl
        · exact List.forall_mem_cons.2 ⟨ha.weaken False.elim _, hall⟩
      · cases h

theorem fixes_block {n : Nat} (ih : Fixing n) {c d : Cursor} {fault : ParseFault} {t : Token}
    (hc : c.Closed) (ht : t.kind = .eof) (hk : c.current.kind = .leftBrace)
    (h : rule (n + 1) .block c = .error (.rejected ⟨fault, t⟩) d) :
    Fixes (n + 1) .block c fault d := by
  simp only [rule_block, bind_error_iff, eat_error_iff, eat_ok_iff] at h
  have hpk := passes_eaten hc hk (by decide)
  have hc₁ := hpk.closed hc
  obtain ⟨hne, -⟩ | ⟨_, _, ⟨-, rfl, rfl⟩, h | ⟨as, m, hm, ⟨-, he, rfl⟩ | ⟨_, _, -, h⟩⟩⟩ := h
  · exact absurd hk hne
  · have herror : ∀ ⦃c d : Cursor⦄, c.Closed →
        rule n .declaration c = .error (.rejected ⟨fault, t⟩) d → Fixes n .declaration c fault d :=
      fun c d hc h => ih _ hc (.of_inner (by decide) _) h ht
    obtain ⟨ts, ks, pieces, hp, hd, hks, hts, hall⟩ :=
      fixes_items (fun _ _ _ hc h => rule_sound hc h) herror rfl hc₁ h
    refine .here (hpk.trans hp) hd (ks ++ [.rightBrace]) (by simp [hks])
      (a := .block (pieces.map (·.2)) c.current.line) ?_
    rw [List.map_append, List.append_assoc, ← List.append_assoc ts, hts]
    exact .block hk hall rfl
  · cases he
    obtain ⟨pieces, -, hd, hp, -⟩ := sound_items (fun _ _ _ hc h => rule_sound hc h) rfl hc₁ hm
    exact .here (hpk.trans hp) ht [.rightBrace] (by decide)
      (.block hk (fun p hp => (hd p hp).weaken False.elim _) rfl)
  · cases h

theorem fixes (n : Nat) : Fixing n := by
  induction n with
  | zero =>
    intro r c d fault t _ _ h
    cases h
  | succ n ih =>
    intro r c d fault t hc hopen h ht
    cases r with
    | declaration => exact fixes_declaration ih hc ht h
    | varDecl => exact fixes_varDecl ih hc ht (hopen.1 rfl) h
    | statement => exact fixes_statement ih hc ht h
    | block => exact fixes_block ih hc ht (hopen.kind_eq (by decide)) h
    | print => exact fixes_print ih hc ht (hopen.kind_eq (by decide)) h
    | ifElse => exact fixes_ifElse ih hc ht (hopen.kind_eq (by decide)) h
    | whileLoop => exact fixes_whileLoop ih hc ht (hopen.kind_eq (by decide)) h
    | exprStmt => exact fixes_exprStmt ih hc ht h
    | expr => exact (ih .assignment hc (.of_inner (by decide) _) h ht).pass fun ts a ha => .expr ha
    | assignment => exact fixes_assignment ih hc ht h
    | level l => exact fixes_level ih hc ht h
    | unary => exact fixes_unary ih hc ht h
    | primary => exact fixes_primary ih hc ht h

/-- A program that rejects the end of source is the beginning of one that is derived. -/
theorem program_fixes {n : Nat} {c d : Cursor} {fault : ParseFault} {t : Token} (hc : c.Closed)
    (hdeep : fault ≠ .tooDeep) (h : program n c = .error (.rejected ⟨fault, t⟩) d)
    (ht : t.kind = .eof) :
    ∃ (ts : List Token) (ks : List Kind) (pieces : List (List Token × Node)),
      c.Passes ts d ∧ d.current.kind = .eof ∧ .eof ∉ ks ∧
      ts ++ ks.map .sample = pieces.flatMap (·.1) ∧
      ∀ p ∈ pieces, Derives True (fault.extra + n) .declaration p.1 p.2 := by
  rw [program_eq] at h
  refine fixes_items (fun _ _ _ hc h => rule_sound hc (topLevel_ok_iff.1 h)) ?_ rfl hc h
  intro c d hc h
  obtain ⟨g, hg, he⟩ := topLevel_error_iff.1 h
  cases g with
  | rejected r =>
    cases he
    exact fixes n _ hc (.of_inner (by decide) _) hg ht
  | tooDeep =>
    cases he
    exact absurd rfl hdeep

end Parse

/-! ## Where parse errors are located -/

open Cursor Parse

/-- The tokens are a program, but for the targets of assignments. -/
def Completes (n : Nat) (tokens : List Token) : Prop :=
  (∃ as, parseWithin n tokens = .ok as) ∨ ∃ t, parseWithin n tokens = .error ⟨.invalidTarget, t⟩

section
variable {ts : List Token} {e : Token} (hts : NoEof ts) (he : e.kind = .eof) {n : Nat}
  {err : ParseError} (h : parseWithin n (ts ++ [e]) = .error err)
include hts he h

/-- An error before the end of source is final. -/
theorem error_final (hk : err.token.kind ≠ .eof) {us : List Token} {e' : Token}
    (he' : e'.kind = .eof) :
    ∃ err', parseWithin n (ts ++ us ++ [e']) = .error err' ∧
      (err.fault ≠ .invalidTarget → err' = err) := by
  obtain ⟨f, d, hr, hf⟩ := (parseWithin_error_iff he).1 h
  have hend : (⟨e', []⟩ : Cursor).Closed := ⟨e', List.mem_cons_self, he'⟩
  have hgrows : Grows True ⟨e, []⟩ (prepend us ⟨e', []⟩) ts (program n) (program n) :=
    program_grows he (closed_prepend us hend) (Nat.le_refl n) (fun _ => rfl) hts
  obtain ⟨bs, -, rfl, hsame, hatEnd⟩ := hgrows.error hr
  cases bs with
  | cons t bs =>
    have hr' := hsame (.inl (List.cons_ne_nil t bs)) fun _ => trivial
    rw [← prepend_append] at hr'
    exact ⟨err, (parseWithin_error_iff he').2 ⟨f, _, hr', hf⟩, fun _ => rfl⟩
  | nil =>
    rcases hatEnd rfl with hf' | ⟨htarget, -, f', d', hr'⟩
    · cases f with
      | rejected r =>
        cases hf
        exact absurd hf' hk
      | tooDeep =>
        cases hf
        exact absurd he hk
    · obtain ⟨err', herr'⟩ : ∃ err', f'.noted d'.current = .rejected err' := by
        cases f' <;> exact ⟨_, rfl⟩
      rw [← prepend_append] at hr'
      refine ⟨err', (parseWithin_error_iff he').2 ⟨f', d', hr', herr'⟩, fun hne => ?_⟩
      cases f with
      | rejected r =>
        cases hf
        exact absurd htarget hne
      | tooDeep => exact htarget.elim

/-- After an error at the end of source there are tokens to go on with. -/
theorem error_open (hdeep : err.fault ≠ .tooDeep) (hk : err.token.kind = .eof) :
    ∃ us, NoEof us ∧ ∀ e', e'.kind = .eof →
      Completes (err.fault.extra + n) (ts ++ us ++ [e']) := by
  obtain ⟨f, d, hr, hf⟩ := (parseWithin_error_iff he).1 h
  obtain ⟨fault, t⟩ := err
  obtain rfl : f = .rejected ⟨fault, t⟩ := by
    cases f with
    | rejected r => exact hf
    | tooDeep =>
      cases hf
      exact absurd rfl hdeep
  have hend : (⟨e, []⟩ : Cursor).Closed := ⟨e, List.mem_cons_self, he⟩
  obtain ⟨us, ks, pieces, hp, hd, hks, hts', hall⟩ :=
    program_fixes (closed_prepend ts hend) hdeep hr hk
  have hahead := hp.ahead
  rw [ahead_prepend] at hahead
  obtain rfl := hts.eq_of_append hp.noEof he hd hahead
  have hus : NoEof (ks.map Token.sample) := by
    intro u hu
    obtain ⟨k, hk, rfl⟩ := List.mem_map.1 hu
    exact fun hk' => hks (hk' ▸ hk)
  refine ⟨_, hus, fun e' he' => ?_⟩
  have hpass : (prepend (ts ++ ks.map .sample) ⟨e', []⟩).Passes (pieces.flatMap (·.1)) ⟨e', []⟩ := by
    rw [← hts']
    exact passes_prepend (List.forall_mem_append.2 ⟨hts, hus⟩) _
  rcases program_complete hall hpass he' with hok | ⟨-, u, d', hbad⟩
  · left
    exact ⟨_, by rw [parseWithin_append he', hok]; rfl⟩
  · right
    exact ⟨u, (parseWithin_error_iff he').2 ⟨_, d', hbad, rfl⟩⟩

end

/-- An error before the end of source is final, with the same fault at the same token unless that is
the target of an assignment. After an error at the end of source there are tokens that complete the
program, except that where a `(` is missing they may take up to ten levels too many. -/
theorem parse_error_located {ts : List Token} {e : Token} {err : ParseError} (hts : NoEof ts)
    (he : e.kind = .eof) (h : parse (ts ++ [e]) = .error err) (hdeep : err.fault ≠ .tooDeep) :
    (err.token.kind ≠ .eof → ∀ us e', NoEof us → e'.kind = .eof →
      ∃ err', parse (ts ++ us ++ [e']) = .error err' ∧
        (err.fault ≠ .invalidTarget → err' = err)) ∧
    (err.token.kind = .eof → ∃ us, NoEof us ∧ ∀ e', e'.kind = .eof →
      Completes limit (ts ++ us ++ [e']) ∨
        (∃ context, err.fault = .expected .leftParen context) ∧
        (∃ t, parse (ts ++ us ++ [e']) = .error ⟨.tooDeep, t⟩) ∧
        Completes (limit + 10) (ts ++ us ++ [e'])) := by
  refine ⟨fun hk us e' _ he' => error_final hts he h hk he', fun hk => ?_⟩
  obtain ⟨us, hus, hcomp⟩ := error_open hts he h hdeep hk
  refine ⟨us, hus, fun e' he' => ?_⟩
  have hcomp := hcomp e' he'
  rcases err.fault.extra_cases with ⟨hparen, hextra⟩ | hextra
  · rw [hextra, Nat.add_comm] at hcomp
    by_cases hlevels : ∃ t, parse (ts ++ us ++ [e']) = .error ⟨.tooDeep, t⟩
    · exact .inr ⟨hparen, hlevels, hcomp⟩
    · left
      have hsame := parseWithin_mono (List.forall_mem_append.2 ⟨hts, hus⟩) he'
        (Nat.le_add_right limit 10) fun t ht => hlevels ⟨t, ht⟩
      rwa [Completes, hsame] at hcomp
  · left
    rwa [hextra, Nat.zero_add] at hcomp

/-- `print )` -/
def strayParen : List Token := [.sample .printWord, .sample .rightParen]

/-- `print (x` -/
def openParen : List Token := [.sample .printWord, .sample .leftParen, .sample .identifier]

theorem parse_error_located_print :
    (parse (strayParen ++ [.eof 1]) = .error ⟨.expectedExpression, .sample .rightParen⟩ ∧
      ∀ us e, NoEof us → e.kind = .eof →
        parse (strayParen ++ us ++ [e]) = .error ⟨.expectedExpression, .sample .rightParen⟩) ∧
    (parse (openParen ++ [.eof 1]) = .error ⟨.expected .rightParen "after expression", .eof 1⟩ ∧
      ∃ us, NoEof us ∧ ∀ e, e.kind = .eof → Completes limit (openParen ++ us ++ [e])) := by
  have hstray : parse (strayParen ++ [.eof 1]) =
      .error ⟨.expectedExpression, .sample .rightParen⟩ := by rfl
  have hopen : parse (openParen ++ [.eof 1]) =
      .error ⟨.expected .rightParen "after expression", .eof 1⟩ := by rfl
  have hts : NoEof strayParen := by simp [NoEof, strayParen, Token.sample]
  have hts' : NoEof openParen := by simp [NoEof, openParen, Token.sample]
  refine ⟨⟨hstray, fun us e hus he => ?_⟩, hopen, ?_⟩
  · obtain ⟨hfinal, -⟩ := parse_error_located hts rfl hstray (by simp)
    obtain ⟨err, h, herr⟩ := hfinal (by simp [Token.sample]) us e hus he
    rw [h, herr (by simp)]
  · obtain ⟨-, hcomplete⟩ := parse_error_located hts' rfl hopen (by simp)
    obtain ⟨us, hus, h⟩ := hcomplete (by simp [Token.eof])
    refine ⟨us, hus, fun e he => (h e he).resolve_right ?_⟩
    rintro ⟨⟨context, hc⟩, -⟩
    cases hc

/-! ## A beginning that cannot be completed -/

/-- So many `{`, and then `if`. -/
def openIf (k : Nat) : List Token :=
  List.replicate k (.sample .leftBrace) ++ [.sample .ifWord]

/-- How nine levels fail after the `if`: six are left for the condition, which takes ten. -/
def ifFailure (c : Cursor) : ParseFailure :=
  if c.current.kind = .leftParen then .tooDeep
  else .rejected ⟨.expected .leftParen "after 'if'", c.current⟩

theorem rule_declaration_form {n : Nat} {c : Cursor} (h : c.current.kind ≠ .varWord) :
    rule (n + 2) .declaration c = rule n (Rule.formOf c.current.kind) c := by
  rw [rule, bind_of_ok (check_ok_iff.2 ⟨rfl, rfl⟩), if_neg (fun hb => h (beq_iff_eq.1 hb)),
    rule_statement]

theorem rule_openIf {k : Nat} : ∀ {c m : Cursor}, m.Closed → c.Passes (openIf k) m →
    ∃ d, rule (3 * k + 9) .declaration c = .error (ifFailure m) d := by
  induction k with
  | zero =>
    intro c m _ hp
    obtain ⟨hk, hm⟩ := hp.uncons
    obtain rfl := hm.eq_of_nil
    have hif : c.current.kind = .ifWord := congrArg Token.kind hk
    have hrule : rule 9 .declaration c = rule 7 .ifElse c := by
      rw [rule_declaration_form (by rw [hif]; decide), hif]
      rfl
    rw [hrule, rule, bind_of_ok (eat_ok_iff.2 ⟨hif, rfl, rfl⟩), ifFailure]
    split
    · rename_i hl
      -- going down from `expr` no rule looks at a token before the levels are used up
      have hdeep : rule 6 .expr c.advance.advance = .error .tooDeep c.advance.advance := rfl
      exact ⟨_, by rw [bind_of_ok (eat_ok_iff.2 ⟨hl, rfl, rfl⟩), bind_of_error hdeep]⟩
    · rename_i hl
      exact ⟨_, bind_of_error (eat_error_iff.2 ⟨hl, rfl, rfl⟩)⟩
  | succ k ih =>
    intro c m hm hp
    obtain ⟨hk, hp'⟩ := hp.uncons
    have hbrace : c.current.kind = .leftBrace := congrArg Token.kind hk
    obtain ⟨d, hd⟩ := ih hm hp'
    have hrule : rule (3 * (k + 1) + 9) .declaration c = rule (3 * k + 9 + 1) .block c := by
      rw [show 3 * (k + 1) + 9 = 3 * k + 9 + 1 + 2 by omega,
        rule_declaration_form (by rw [hbrace]; decide), hbrace]
      rfl
    have hnext : endsBlock c.advance.current.kind ≠ true := by
      cases k with
      | zero => rw [hp'.uncons.1]; decide
      | succ k => rw [hp'.uncons.1]; decide
    have hitems : items (rule (3 * k + 9) .declaration) endsBlock c.advance =
        .error (ifFailure m) d := by
      rw [items_eq (rule_advancing _ _) rfl (hp'.closed_of hm), if_neg hnext, bind_of_error hd]
    refine ⟨d, ?_⟩
    rw [hrule, rule_block, bind_of_ok (eat_ok_iff.2 ⟨hbrace, rfl, rfl⟩), bind_of_error hitems]

theorem noEof_openIf (k : Nat) : NoEof (openIf k) := by
  intro t ht
  simp only [openIf, List.mem_append, List.mem_replicate, List.mem_singleton] at ht
  rcases ht with ⟨-, rfl⟩ | rfl <;> decide

theorem parse_openIf (us : List Token) {e : Token} (he : e.kind = .eof) :
    ∃ t err, parse (openIf 162 ++ us ++ [e]) = .error err ∧
      (ifFailure (prepend us ⟨e, []⟩)).noted t = .rejected err := by
  have hend : (⟨e, []⟩ : Cursor).Closed := ⟨e, List.mem_cons_self, he⟩
  have hm := closed_prepend us hend
  have hp : (prepend (openIf 162 ++ us) ⟨e, []⟩).Passes (openIf 162) (prepend us ⟨e, []⟩) := by
    rw [prepend_append]
    exact passes_prepend (noEof_openIf 162) _
  obtain ⟨d, hd⟩ := rule_openIf hm hp
  obtain ⟨err, herr⟩ : ∃ err, (ifFailure (prepend us ⟨e, []⟩)).noted d.current = .rejected err := by
    cases ifFailure (prepend us ⟨e, []⟩) <;> exact ⟨_, rfl⟩
  have hprogram : program limit (prepend (openIf 162 ++ us) ⟨e, []⟩) = .error (.rejected err) d := by
    have hfirst : topLevel limit (prepend (openIf 162 ++ us) ⟨e, []⟩) = .error (.rejected err) d :=
      topLevel_error_iff.2 ⟨_, hd, herr.symm⟩
    have hne : ((prepend (openIf 162 ++ us) ⟨e, []⟩).current.kind == .eof) ≠ true := by
      rw [hp.uncons.1]
      decide
    rw [program_eq, items_eq (topLevel_advancing _) rfl (hp.closed_of hm), if_neg hne,
      bind_of_error hfirst]
  exact ⟨d.current, err, (parseWithin_error_iff he).2 ⟨_, d, hprogram, rfl⟩, herr⟩

/-- An error at the end of source, at a depth at which no condition can follow the `if`. -/
theorem openIf_incompletable :
    NoEof (openIf 162) ∧
      parse (openIf 162 ++ [.eof 1]) = .error ⟨.expected .leftParen "after 'if'", .eof 1⟩ ∧
      ∀ us e, NoEof us → e.kind = .eof → ¬ Completes limit (openIf 162 ++ us ++ [e]) := by
  refine ⟨noEof_openIf 162, ?_, fun us e _ he => ?_⟩
  · obtain ⟨t, err, h, herr⟩ := parse_openIf [] (show (Token.eof 1).kind = .eof from rfl)
    cases herr
    rwa [List.append_nil] at h
  · obtain ⟨t, err, h, herr⟩ := parse_openIf us he
    have hfault : err.fault ≠ .invalidTarget := by
      unfold ifFailure at herr
      split at herr <;> cases herr <;> simp
    rintro (⟨as, hok⟩ | ⟨u, hbad⟩)
    · rw [show parseWithin limit _ = _ from h] at hok
      cases hok
    · rw [show parseWithin limit _ = _ from h] at hbad
      cases hbad
      exact hfault rfl

end Lox
