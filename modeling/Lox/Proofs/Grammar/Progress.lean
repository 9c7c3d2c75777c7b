import Lox.Proofs.Grammar.Calls
import Lox.Proofs.Grammar.Stacks

/-!
# Progress of the parser

Without passing a token a rule calls only rules further down the ladder that leads from
declarations to operands and has thirteen rungs (`Rule.rung`). So a rule that is entered weighs less
than the rules around it (`Entry.weight`, `sinks_rule`). Two consequences:

* a rule inside itself is on the same rung, so tokens have been passed in between;
* no more rules are inside one another than the outermost one weighs, and a parser with more levels
  than that does not fail for want of levels (`not_deep_rule`, `rule_stable`).

The bounds of the loops never end them: operators are read up to a token that is none
(`op?_of_joined`), items up to a token that stops them (`sound_items`).

Main statement (`parser_progresses`): wherever the cursor stands in whatever tokens, rules move it
forward, a rule inside itself began further on than the one around it, and every loop ends, whatever
the limit on levels (`Progresses`).
-/

set_option autoImplicit false

namespace Lox

/-! ## Weights -/

/-- The place of a rule on the ladder from declarations down to operands: a rule that passes no
token calls only rules further down. -/
def Rule.rung : Rule → Nat
  | declaration => 12
  | statement => 11
  | varDecl | block | print | ifElse | whileLoop | exprStmt => 10
  | expr => 9
  | assignment => 8
  | level l => 8 - l.rank
  | unary => 1
  | primary => 0

theorem Rule.rung_le (r : Rule) : r.rung ≤ 12 := by
  cases r with
  | level l => cases l <;> decide
  | _ => decide

theorem Rule.rung_formOf (k : Kind) : (formOf k).rung = 10 := by cases k <;> rfl

theorem Level.rung_operand (l : Level) : l.operand.rung < (Rule.level l).rung := by
  cases l <;> decide

namespace Entry

/-- The tokens ahead count first, then the place on the ladder. -/
def weight (e : Entry) : Nat := 13 * e.start.rest.length + e.rule.rung

/-- The cursor is not before the start of the entry. -/
structure Reaches (e : Entry) (c : Cursor) : Prop where
  closed : c.Closed
  le : c.rest.length ≤ e.start.rest.length

/-- The cursor has passed a token since the start of the entry. -/
structure Passed (e : Entry) (c : Cursor) : Prop where
  closed : c.Closed
  lt : c.rest.length < e.start.rest.length

variable {e : Entry} {c d : Cursor} {t : Token} {ts : List Token}

theorem Passed.reaches (h : e.Passed c) : e.Reaches c := ⟨h.closed, Nat.le_of_lt h.lt⟩

theorem Reaches.pass (h : e.Reaches c) (hp : c.Passes (t :: ts) d) : e.Passed d := by
  have hlen := hp.length
  have hle := h.le
  rw [List.length_cons] at hlen
  exact ⟨hp.closed h.closed, by omega⟩

theorem Passed.weight_lt (h : e.Passed c) (r : Rule) : (⟨r, c⟩ : Entry).weight < e.weight := by
  have hlt := h.lt
  have hr := r.rung_le
  simp only [weight]
  omega

end Entry

/-- Each rule weighs less than those around it, and none began with more than `most` tokens
ahead. -/
structure Sinking (most : Nat) (stack : List Entry) : Prop where
  weights : stack.Pairwise fun inner outer => inner.weight < outer.weight
  within : ∀ e ∈ stack, e.start.rest.length ≤ most

theorem Sinking.singleton (r : Rule) (c : Cursor) : Sinking c.rest.length [⟨r, c⟩] :=
  ⟨List.pairwise_singleton _ _, by simp⟩

theorem Sinking.cons {most : Nat} {e e' : Entry} {outer : List Entry}
    (h : Sinking most (e :: outer)) (he : e'.weight < e.weight) :
    Sinking most (e' :: e :: outer) := by
  refine ⟨List.pairwise_cons.2 ⟨fun o ho => ?_, h.weights⟩, List.forall_mem_cons.2 ⟨?_, h.within⟩⟩
  · rcases List.mem_cons.1 ho with rfl | ho
    · exact he
    · have hlt := (List.pairwise_cons.1 h.weights).1 o ho
      omega
  · have hle := h.within e List.mem_cons_self
    have hr := e.rule.rung_le
    simp only [Entry.weight] at he
    omega

namespace Logged

/-- Wherever a rule is entered, it weighs less than those around it. The parser fails for want of
levels only if `deep` holds. -/
structure Sinks (most : Nat) (deep : Prop) (around : List Entry) (c : Cursor) {α : Type}
    (x : Logged α) : Prop where
  log : ∀ stack ∈ (x around c).2, Sinking most stack
  levels : ∀ f d, x.run around c = .error f d → f.Deep → deep

namespace Sinks

variable {most : Nat} {deep deep' : Prop} {around : List Entry} {c : Cursor} {α β : Type}

theorem mono {x : Logged α} (h : Sinks most deep around c x) (hd : deep → deep') :
    Sinks most deep' around c x :=
  ⟨h.log, fun f d hr hf => hd (h.levels f d hr hf)⟩

theorem lift {x : Parse α} (hx : ∀ f d, x c = .error f d → ¬ f.Deep) :
    Sinks most deep around c (lift x) :=
  ⟨fun _ hs => (by cases hs), fun f d hr hf => absurd hf (hx f d hr)⟩

theorem pure (a : α) : Sinks most deep around c (Pure.pure a) := lift fun _ _ h => by cases h

theorem reject {fault : ParseFault} (h : fault ≠ .tooDeep) :
    Sinks most deep around c (Logged.lift (Parse.reject fault : Parse α)) :=
  lift fun _ _ hr => by cases hr; exact h

theorem rejectAt {fault : ParseFault} (h : fault ≠ .tooDeep) (t : Token) :
    Sinks most deep around c (Logged.lift (Parse.rejectAt fault t : Parse α)) :=
  lift fun _ _ hr => by cases hr; exact h

theorem bind {x : Logged α} {f : α → Logged β} (hx : Sinks most deep around c x)
    (hf : ∀ a d, x.run around c = .ok a d → Sinks most deep around d (f a)) :
    Sinks most deep around c (x >>= f) := by
  obtain ⟨hlog, hlevels⟩ := hx
  refine ⟨?_, fun g d hr hg => ?_⟩
  · show ∀ stack ∈ (Logged.bind x f around c).2, Sinking most stack
    unfold run at hf
    unfold Logged.bind
    generalize x around c = r at hf hlog
    obtain ⟨result, log⟩ := r
    cases result with
    | ok a d => exact List.forall_mem_append.2 ⟨hlog, (hf a d rfl).log⟩
    | error g d => exact hlog
  · rw [run_bind, Parse.bind_error_iff] at hr
    rcases hr with hr | ⟨a, m, hm, hr⟩
    · exact hlevels g d hr hg
    · exact (hf a m hm).levels g d hr hg

theorem current_bind {f : Token → Logged β} (hf : Sinks most deep around c (f c.current)) :
    Sinks most deep around c (Logged.lift Parse.current >>= f) := by
  refine bind (lift fun _ _ h => by cases h) fun t d h => ?_
  obtain ⟨rfl, rfl⟩ := Parse.current_ok_iff.1 h
  exact hf

theorem check_bind {kind : Kind} {f : Bool → Logged β}
    (hf : Sinks most deep around c (f (c.current.kind == kind))) :
    Sinks most deep around c (Logged.lift (Parse.check kind) >>= f) := by
  refine bind (lift fun _ _ h => by cases h) fun b d h => ?_
  obtain ⟨rfl, rfl⟩ := Parse.check_ok_iff.1 h
  exact hf

theorem ahead_bind {f : List Token → Logged β} (hf : Sinks most deep around c (f c.rest)) :
    Sinks most deep around c (Logged.lift Parse.ahead >>= f) := by
  refine bind (lift fun _ _ h => by cases h) fun ts d h => ?_
  cases h
  exact hf

theorem advance_bind {e : Entry} (hc : e.Reaches c) (hk : c.current.kind ≠ .eof)
    {f : Token → Logged β} (hf : ∀ d, e.Passed d → Sinks most deep around d (f c.current)) :
    Sinks most deep around c (Logged.lift Parse.advance >>= f) := by
  refine bind (lift fun _ _ h => by cases h) fun t d h => ?_
  obtain ⟨rfl, rfl⟩ := Parse.advance_ok_iff.1 h
  exact hf _ (hc.pass (.step hc.closed hk))

theorem eat_bind {e : Entry} (hc : e.Reaches c) {kind : Kind} (hk : kind ≠ .eof)
    {context : String} {f : Token → Logged β}
    (hf : ∀ t d, e.Passed d → Sinks most deep around d (f t)) :
    Sinks most deep around c (Logged.lift (Parse.eat kind context) >>= f) := by
  refine bind (lift fun g d h hg => ?_) fun t d h => ?_
  · obtain ⟨-, rfl, -⟩ := Parse.eat_error_iff.1 h
    cases hg
  · obtain ⟨hkind, -, rfl⟩ := Parse.eat_ok_iff.1 h
    exact hf t _ (hc.pass (Parse.passes_eaten hc.closed hkind hk))

theorem enter {r : Rule} {x : Logged α} (hs : Sinking most (⟨r, c⟩ :: around))
    (hx : Sinks most deep (⟨r, c⟩ :: around) c x) : Sinks most deep around c (enter r x) :=
  ⟨List.forall_mem_cons.2 ⟨hs, hx.log⟩, hx.levels⟩

end Sinks

end Logged

namespace Parse

open Cursor Logged

/-! ## Rules -/

/-- A rule that succeeds has passed a token. -/
theorem sinks_bind {most n : Nat} {deep : Prop} {e : Entry} {around : List Entry} {c : Cursor}
    (hc : e.Reaches c) {r : Rule} {β : Type} {f : Node → Logged β}
    (hx : Sinks most deep around c (ruleLogged n r))
    (hf : ∀ a d, e.Passed d → Sinks most deep around d (f a)) :
    Sinks most deep around c (ruleLogged n r >>= f) := by
  refine .bind hx fun a d h => ?_
  rw [run_ruleLogged] at h
  obtain ⟨t, ts, hp⟩ := rule_advancing n r hc.closed h
  exact hf a d (hc.pass hp)

theorem passed_of_many {n : Nat} {e : Entry} {around : List Entry} {stop : Kind → Bool}
    (hstop : stop .eof = true) {c d : Cursor} {as : List Node} (hc : e.Passed c)
    (h : (Logged.many (ruleLogged n .declaration) stop c.rest).run around c = .ok as d) :
    e.Passed d := by
  rw [run_many (run_ruleLogged n _ _)] at h
  obtain ⟨pieces, -, -, hp, -⟩ := sound_items (sound n .declaration) hstop hc.closed h
  have hlen := hp.length
  have hlt := hc.lt
  exact ⟨hp.closed hc.closed, by omega⟩

/-- Every rule within `n` levels sinks, entered where it weighs less than the rules around. -/
def AllSink (most n : Nat) : Prop :=
  ∀ (r : Rule) (c : Cursor) (around : List Entry), c.Closed → Sinking most (⟨r, c⟩ :: around) →
    Sinks most (n ≤ (⟨r, c⟩ : Entry).weight) around c (ruleLogged n r)

section
variable {most n : Nat} (ih : AllSink most n) {outer : List Entry}
include ih

theorem sinks_call {e : Entry} (hs : Sinking most (e :: outer)) {c : Cursor} (hc : c.Closed)
    {r : Rule} (hw : (⟨r, c⟩ : Entry).weight < e.weight) :
    Sinks most (n < e.weight) (e :: outer) c (ruleLogged n r) :=
  (ih r c _ hc (hs.cons hw)).mono fun h => Nat.lt_of_le_of_lt h hw

/-- Without passing a token, down the ladder. -/
theorem sinks_lower {r : Rule} {c : Cursor} (hs : Sinking most (⟨r, c⟩ :: outer)) (hc : c.Closed)
    {r' : Rule} (hr : r'.rung < r.rung) :
    Sinks most (n < (⟨r, c⟩ : Entry).weight) (⟨r, c⟩ :: outer) c (ruleLogged n r') := by
  refine sinks_call ih hs hc ?_
  simp only [Entry.weight]
  omega

variable {e : Entry} (hs : Sinking most (e :: outer))
include hs

/-- After a token, to any rule. -/
theorem sinks_later {c : Cursor} (hc : e.Passed c) (r : Rule) :
    Sinks most (n < e.weight) (e :: outer) c (ruleLogged n r) :=
  sinks_call ih hs hc.closed (hc.weight_lt r)

theorem sinks_chain (l : Level) (more : List Token) (left : Node) {c : Cursor} (hc : e.Passed c) :
    Sinks most (n < e.weight) (e :: outer) c (.chain l (ruleLogged n l.operand) more left) := by
  induction more generalizing left c with
  | nil => exact .pure left
  | cons t more ihm =>
    refine .current_bind ?_
    cases hop : l.op? c.current.kind with
    | none => exact .pure left
    | some op =>
      have hne : c.current.kind ≠ .eof := by
        intro he
        rw [he, op?_eof] at hop
        cases hop
      refine .advance_bind hc.reaches hne fun d hd => ?_
      exact sinks_bind hd.reaches (sinks_later ih hs hd _) fun right d' hd' => ihm _ hd'

theorem sinks_many (stop : Kind → Bool) (more : List Token) {c : Cursor} (hc : e.Passed c) :
    Sinks most (n < e.weight) (e :: outer) c (.many (ruleLogged n .declaration) stop more) := by
  induction more generalizing c with
  | nil => exact .pure []
  | cons t more ihm =>
    refine .current_bind ?_
    split
    · exact .pure []
    · refine sinks_bind hc.reaches (sinks_later ih hs hc _) fun first d hd => ?_
      exact .bind (ihm hd) fun others _ _ => .pure (first :: others)

end

/-- Whenever a rule is entered, it weighs less than the rules around it. -/
theorem sinks_rule (most n : Nat) : AllSink most n := by
  induction n with
  | zero =>
    intro r c around _ hs
    exact .enter hs ⟨fun _ h => (by cases h), fun _ _ _ _ => Nat.zero_le _⟩
  | succ n ih =>
    intro r c around hc hs
    have hstart : (⟨r, c⟩ : Entry).Reaches c := ⟨hc, Nat.le_refl _⟩
    unfold ruleLogged
    refine .enter hs ?_
    cases r with
    | declaration =>
      refine .check_bind ?_
      split
      · exact sinks_lower ih hs hc (by decide)
      · exact sinks_lower ih hs hc (by decide)
    | varDecl =>
      refine .eat_bind hstart (by decide) fun _ _ h₁ => ?_
      refine .eat_bind h₁.reaches (by decide) fun x _ h₂ => .check_bind ?_
      split
      · rename_i hk
        refine .advance_bind h₂.reaches (by rw [beq_iff_eq.1 hk]; decide) fun _ h₃ => ?_
        refine sinks_bind h₃.reaches (sinks_later ih hs h₃ _) fun a _ h₄ => ?_
        exact .eat_bind h₄.reaches (by decide) fun _ _ _ => .pure _
      · exact .eat_bind h₂.reaches (by decide) fun _ _ _ => .pure _
    | statement =>
      refine .current_bind (sinks_lower ih hs hc ?_)
      rw [Rule.rung_formOf]
      decide
    | block =>
      refine .eat_bind hstart (by decide) fun token _ h₁ => .ahead_bind ?_
      refine .bind (sinks_many ih hs _ _ h₁) fun as _ h => ?_
      exact .eat_bind (passed_of_many rfl h₁ h).reaches (by decide) fun _ _ _ => .pure _
    | print =>
      refine .eat_bind hstart (by decide) fun token _ h₁ => ?_
      refine sinks_bind h₁.reaches (sinks_later ih hs h₁ _) fun a _ h₂ => ?_
      exact .eat_bind h₂.reaches (by decide) fun _ _ _ => .pure _
    | ifElse =>
      refine .eat_bind hstart (by decide) fun token _ h₁ => ?_
      refine .eat_bind h₁.reaches (by decide) fun _ _ h₂ => ?_
      refine sinks_bind h₂.reaches (sinks_later ih hs h₂ _) fun condition _ h₃ => ?_
      refine .eat_bind h₃.reaches (by decide) fun _ _ h₄ => ?_
      refine sinks_bind h₄.reaches (sinks_later ih hs h₄ _) fun branch _ h₅ => .check_bind ?_
      split
      · rename_i hk
        refine .advance_bind h₅.reaches (by rw [beq_iff_eq.1 hk]; decide) fun _ h₆ => ?_
        exact sinks_bind h₆.reaches (sinks_later ih hs h₆ _) fun _ _ _ => .pure _
      · exact .pure _
    | whileLoop =>
      refine .eat_bind hstart (by decide) fun token _ h₁ => ?_
      refine .eat_bind h₁.reaches (by decide) fun _ _ h₂ => ?_
      refine sinks_bind h₂.reaches (sinks_later ih hs h₂ _) fun condition _ h₃ => ?_
      refine .eat_bind h₃.reaches (by decide) fun _ _ h₄ => ?_
      exact sinks_bind h₄.reaches (sinks_later ih hs h₄ _) fun _ _ _ => .pure _
    | exprStmt =>
      refine .current_bind ?_
      refine sinks_bind hstart (sinks_lower ih hs hc (by decide)) fun a _ h₁ => ?_
      exact .eat_bind h₁.reaches (by decide) fun _ _ _ => .pure _
    | expr => exact sinks_lower ih hs hc (by decide)
    | assignment =>
      refine sinks_bind hstart (sinks_lower ih hs hc (by decide)) fun target _ h₁ => .check_bind ?_
      split
      · rename_i hk
        refine .advance_bind h₁.reaches (by rw [beq_iff_eq.1 hk]; decide) fun _ h₂ => ?_
        refine sinks_bind h₂.reaches (sinks_later ih hs h₂ _) fun value _ _ => ?_
        cases target with
        | var name => exact .pure _
        | _ => exact .rejectAt (by simp) _
      · exact .pure target
    | level l =>
      refine sinks_bind hstart (sinks_lower ih hs hc l.rung_operand) fun left _ h₁ => .ahead_bind ?_
      exact sinks_chain ih hs l _ left h₁
    | unary =>
      refine .current_bind ?_
      cases hop : Op.ofUnary? c.current.kind with
      | none => exact sinks_lower ih hs hc (by decide)
      | some op =>
        have hne : c.current.kind ≠ .eof := by
          intro he
          rw [he] at hop
          cases hop
        refine .advance_bind hstart hne fun _ h₁ => ?_
        exact sinks_bind h₁.reaches (sinks_later ih hs h₁ _) fun _ _ _ => .pure _
    | primary =>
      refine .current_bind ?_
      cases hk : c.current.kind with
      | number | string | trueWord | falseWord | nilWord | identifier =>
        exact .advance_bind hstart (by rw [hk]; decide) fun _ _ => .pure _
      | leftParen =>
        refine .advance_bind hstart (by rw [hk]; decide) fun _ h₁ => ?_
        refine sinks_bind h₁.reaches (sinks_later ih hs h₁ _) fun _ _ h₂ => ?_
        exact .eat_bind h₂.reaches (by decide) fun _ _ _ => .pure _
      | _ => exact .reject (by simp)

/-! ## Loops -/

/-- Operators of a level are read up to a token that is none. -/
theorem op?_of_joined {operand : Parse Node} (hadv : Advancing operand) {l : Level} {left a : Node}
    {c d : Cursor} (hc : c.Closed) (h : joined l operand left c = .ok a d) :
    l.op? d.current.kind = none := by
  -- on the number of tokens ahead: each round passes an operator
  obtain ⟨k, hk⟩ : ∃ k, c.rest.length < k := ⟨_, Nat.lt_succ_self _⟩
  induction k generalizing c left with
  | zero => omega
  | succ k ih =>
    rw [joined_eq hadv l left hc] at h
    split at h
    · cases h
      assumption
    · rename_i op hop
      have hne : c.current.kind ≠ .eof := by
        intro he
        rw [he, op?_eof] at hop
        cases hop
      obtain ⟨_, _, hstep, h⟩ := bind_ok_iff.1 h
      obtain ⟨-, rfl⟩ := advance_ok_iff.1 hstep
      obtain ⟨right, m, hright, h⟩ := bind_ok_iff.1 h
      have hp := Passes.step hc hne
      obtain ⟨t, ts, hp'⟩ := hadv (hp.closed hc) hright
      have hlen := (hp.trans hp').length
      simp only [List.length_append, List.length_cons, List.length_nil] at hlen
      exact ih ((hp.trans hp').closed hc) h (by omega)

/-- Items fail where one of them fails. -/
theorem exists_of_items_error {item : Parse Node} (hadv : Advancing item) {stop : Kind → Bool}
    (hstop : stop .eof = true) {c d : Cursor} {f : ParseFailure} (hc : c.Closed)
    (h : items item stop c = .error f d) : ∃ ts m, c.Passes ts m ∧ item m = .error f d := by
  -- on the number of tokens ahead: each item passes at least one
  obtain ⟨k, hk⟩ : ∃ k, c.rest.length < k := ⟨_, Nat.lt_succ_self _⟩
  induction k generalizing c with
  | zero => omega
  | succ k ih =>
    rw [items_eq hadv hstop hc] at h
    split at h
    · cases h
    · rcases bind_error_iff.1 h with h | ⟨first, m, hfirst, h⟩
      · exact ⟨[], c, .refl c, h⟩
      · obtain ⟨t, ts, hp⟩ := hadv hc hfirst
        have hlen := hp.length
        rw [List.length_cons] at hlen
        rcases bind_error_iff.1 h with h | ⟨others, m', -, h⟩
        · obtain ⟨us, m', hp', hm'⟩ := ih (hp.closed hc) h (by omega)
          exact ⟨_, m', hp.trans hp', hm'⟩
        · cases h

/-- A program fails where one of its declarations fails. -/
theorem exists_of_program_error {n : Nat} {c d : Cursor} {f : ParseFailure} (hc : c.Closed)
    (h : program n c = .error f d) :
    ∃ ts m g, c.Passes ts m ∧ rule n .declaration m = .error g d ∧ f = g.noted d.current := by
  rw [program_eq] at h
  obtain ⟨ts, m, hp, hm⟩ := exists_of_items_error (topLevel_advancing n) rfl hc h
  obtain ⟨g, hg, hf⟩ := topLevel_error_iff.1 hm
  exact ⟨ts, m, g, hp, hg, hf⟩

/-! ## Enough levels -/

/-- As many levels as the rungs that whatever is ahead can take. -/
def enough (c : Cursor) : Nat := 13 * (c.rest.length + 1)

section
variable {n : Nat} {c : Cursor} (hc : c.Closed) (hn : enough c ≤ n)
include hc hn

theorem not_deep_rule {r : Rule} {f : ParseFailure} {d : Cursor} (h : rule n r c = .error f d) :
    ¬ f.Deep := by
  intro hf
  have hsinks := sinks_rule c.rest.length n r c [] hc (.singleton r c)
  have hle := hsinks.levels f d (by rw [run_ruleLogged]; exact h) hf
  have hr := r.rung_le
  simp only [Entry.weight] at hle
  unfold enough at hn
  omega

theorem not_deep_program {f : ParseFailure} {d : Cursor} (h : program n c = .error f d) :
    ¬ f.Deep := by
  obtain ⟨ts, m, g, hp, hg, rfl⟩ := exists_of_program_error hc h
  have hlen := hp.length
  have henough : enough m ≤ n := by
    unfold enough at hn ⊢
    omega
  have hdeep := not_deep_rule (hp.closed hc) henough hg
  cases g with
  | rejected e => exact hdeep
  | tooDeep => exact absurd trivial hdeep

end

theorem exists_prepend {c : Cursor} (hc : c.Closed) :
    ∃ as old, c = prepend as old ∧ NoEof as ∧ old.current.kind = .eof := by
  obtain ⟨as, e, behind, hahead, has, he⟩ := exists_first_eof hc
  exact ⟨as, ⟨e, behind⟩, eq_of_ahead (by rw [hahead, ahead_prepend]; rfl), has, he⟩

section
variable {n m : Nat} {c : Cursor} (hc : c.Closed) (hn : enough c ≤ n) (hm : n ≤ m)
include hc hn hm

theorem rule_stable (r : Rule) : rule m r c = rule n r c := by
  obtain ⟨as, old, rfl, has, hold⟩ := exists_prepend hc
  have hclosed : old.Closed := ⟨old.current, List.mem_cons_self, hold⟩
  exact (rule_grows hold hclosed hm False.elim has r).eq fun f d => not_deep_rule hc hn

theorem program_stable : program m c = program n c := by
  obtain ⟨as, old, rfl, has, hold⟩ := exists_prepend hc
  have hclosed : old.Closed := ⟨old.current, List.mem_cons_self, hold⟩
  exact (program_grows hold hclosed hm False.elim has).eq fun f d => not_deep_program hc hn

end

/-! ## Progress -/

/-- The number of tokens that the cursor has passed. -/
def position (tokens : List Token) (c : Cursor) : Nat := Parsing.position ⟨close tokens, c⟩

/-- How the parser gets on from the cursor `c`, which stands on one of `tokens`. -/
structure Progresses (tokens : List Token) (c : Cursor) : Prop where
  /-- A rule that succeeds moves the cursor forward. -/
  success : ∀ n r a d, rule n r c = .ok a d → position tokens c < position tokens d
  /-- A rule that is entered inside itself begins further on than the one around it. -/
  reentry : ∀ n r, ∃ log, ruleLogged n r [] c = (rule n r c, log) ∧ ∀ stack ∈ log,
    stack.Pairwise fun inner outer => inner.rule = outer.rule →
      position tokens outer.start < position tokens inner.start
  /-- The loop of a level of operators ends at a token that is no operator of the level. -/
  operators : ∀ n l left a d, chain l (rule n l.operand) c.rest left c = .ok a d →
    l.op? d.current.kind = none
  /-- The loop of a block ends at the end of the block or of the source. -/
  blocks : ∀ n as d, many (rule n .declaration) endsBlock c.rest c = .ok as d →
    endsBlock d.current.kind = true
  /-- With enough levels a rule does not fail for want of them, and more levels change nothing. -/
  rules : ∀ n m r, enough c ≤ n → n ≤ m →
    rule m r c = rule n r c ∧ ∀ d, rule n r c ≠ .error .tooDeep d
  /-- A program ends at the end of the source or with an error. With enough levels the error is not
  for want of them, and more levels change nothing. -/
  programs : ∀ n, ((∃ as d, program n c = .ok as d ∧ d.current.kind = .eof) ∨
      ∃ e d, program n c = .error (.rejected e) d ∧ (enough c ≤ n → e.fault ≠ .tooDeep)) ∧
    ∀ m, enough c ≤ n → n ≤ m → program m c = program n c

theorem closed_of_close {tokens before : List Token} {c : Cursor}
    (h : close tokens = before ++ c.ahead) : c.Closed := by
  obtain ⟨e, he, hk⟩ := Parsing.exists_getLast?_close tokens
  refine ⟨e, ?_, hk⟩
  have hlast : (before ++ c.ahead).getLast? = c.ahead.getLast? := by
    rw [List.getLast?_append, Cursor.ahead, List.getLast?_cons]
    rfl
  rw [h, hlast] at he
  exact List.mem_of_getLast? he

theorem position_lt {tokens before : List Token} {c d d' : Cursor}
    (h : close tokens = before ++ c.ahead) (hd : d.rest.length ≤ c.rest.length)
    (hlt : d'.rest.length < d.rest.length) : position tokens d < position tokens d' := by
  have hlen : (close tokens).length = before.length + (c.rest.length + 1) := by
    rw [h, List.length_append]
    rfl
  simp only [position, Parsing.position, Cursor.ahead, List.length_cons, hlen]
  omega

/-- Wherever the cursor stands in whatever tokens, the parser makes progress and comes to an end. -/
theorem parser_progresses {tokens before : List Token} {c : Cursor}
    (h : close tokens = before ++ c.ahead) : Progresses tokens c := by
  have hc := closed_of_close h
  refine ⟨fun n r a d hr => ?_, fun n r => ?_, fun n l left a d hr => ?_, fun n as d hr => ?_,
    fun n m r hn hm => ⟨rule_stable hc hn hm r, fun d hr => ?_⟩,
    fun n => ⟨?_, fun m hn hm => program_stable hc hn hm⟩⟩
  · obtain ⟨t, ts, hp⟩ := rule_advancing n r hc hr
    have hlen := hp.length
    rw [List.length_cons] at hlen
    exact position_lt h (Nat.le_refl _) (by omega)
  · refine ⟨_, Prod.ext (congrFun (run_ruleLogged n r []) c) rfl, fun stack hmem => ?_⟩
    have hs := (sinks_rule c.rest.length n r c [] hc (.singleton r c)).log stack hmem
    refine hs.weights.imp_of_mem fun {inner outer} _ houter hw hr => ?_
    simp only [Entry.weight, hr] at hw
    exact position_lt h (hs.within outer houter) (by omega)
  · exact op?_of_joined (rule_advancing n _) hc hr
  · obtain ⟨-, -, -, -, hstop⟩ := sound_items (sound n .declaration) rfl hc hr
    exact hstop
  · exact not_deep_rule hc hn hr trivial
  · cases hr : program n c with
    | ok as d =>
      obtain ⟨-, -, -, -, hd⟩ := program_sound hc hr
      exact .inl ⟨as, d, rfl, hd⟩
    | error f d =>
      obtain ⟨-, -, g, -, -, rfl⟩ := exists_of_program_error hc hr
      have hdeep : enough c ≤ n → ¬ (g.noted d.current).Deep := fun hn => not_deep_program hc hn hr
      cases g with
      | rejected e => exact .inr ⟨e, d, rfl, hdeep⟩
      | tooDeep => exact .inr ⟨_, d, rfl, hdeep⟩

/-- `x = - - (y)`, an end of source, and what nobody will read. -/
def nestedTokens : List Token :=
  [⟨.identifier, "x", .nil, 1⟩, ⟨.equal, "=", .nil, 1⟩, ⟨.minus, "-", .nil, 1⟩,
   ⟨.minus, "-", .nil, 1⟩, ⟨.leftParen, "(", .nil, 1⟩, ⟨.identifier, "y", .nil, 1⟩,
   ⟨.rightParen, ")", .nil, 1⟩, .eof 1, ⟨.rightBrace, "\x7d", .nil, 2⟩]

/-- The cursor after so many of the tokens; the first minus is at two. -/
def nestedAt : Nat → Cursor
  | 0 => start nestedTokens
  | k + 1 => (nestedAt k).advance

/-- The rules under way when the `y` is read. -/
def nestedStack : List Entry :=
  [⟨.primary, nestedAt 5⟩, ⟨.unary, nestedAt 5⟩, ⟨.level .factor, nestedAt 5⟩,
   ⟨.level .term, nestedAt 5⟩, ⟨.level .comparison, nestedAt 5⟩, ⟨.level .equality, nestedAt 5⟩,
   ⟨.level .and, nestedAt 5⟩, ⟨.level .or, nestedAt 5⟩, ⟨.assignment, nestedAt 5⟩,
   ⟨.expr, nestedAt 5⟩, ⟨.primary, nestedAt 4⟩, ⟨.unary, nestedAt 4⟩, ⟨.unary, nestedAt 3⟩,
   ⟨.unary, nestedAt 2⟩]

theorem parser_progresses_nested :
    close nestedTokens = nestedTokens.take 2 ++ (nestedAt 2).ahead ∧
      (∃ a d, rule 20 .unary (nestedAt 2) = .ok a d ∧
        position nestedTokens (nestedAt 2) < position nestedTokens d) ∧
      nestedStack ∈ (ruleLogged 20 .unary [] (nestedAt 2)).2 ∧
      nestedStack.Pairwise (fun inner outer => inner.rule = outer.rule →
        position nestedTokens outer.start < position nestedTokens inner.start) ∧
      ∃ e d, program 500 (nestedAt 2) = .error (.rejected e) d ∧ e.fault ≠ .tooDeep := by
  have h : close nestedTokens = nestedTokens.take 2 ++ (nestedAt 2).ahead := rfl
  have hprogress := parser_progresses h
  have hlast : (ruleLogged 20 .unary [] (nestedAt 2)).2.getLast? = some nestedStack := rfl
  have hmem := List.mem_of_getLast? hlast
  obtain ⟨log, hlog, hstacks⟩ := hprogress.reentry 20 .unary
  refine ⟨h, ⟨_, _, rfl, hprogress.success 20 .unary _ _ rfl⟩, hmem, hstacks _ ?_, ?_⟩
  · rwa [hlog] at hmem
  · rcases (hprogress.programs 500).1 with ⟨as, d, hok, -⟩ | ⟨e, d, herror, hdeep⟩
    · cases hok
    · exact ⟨e, d, herror, hdeep (by decide)⟩

end Parse

end Lox
