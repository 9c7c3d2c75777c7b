import Lox.Proofs.Grammar.Derivation

/-!
# The grammar as rules of sequences

The grammar in the notation in which it is documented: `Rule.body` is the right-hand side of a rule,
and `Generates` says which tokens a right-hand side stands for. It says nothing of trees, of levels
of nesting or of the `if` that an `else` belongs to.

`generates_iff`: the rules generate exactly the tokens that have a derivation. An `else` that could
follow several `if`s is given to the nearest one (`Derives.attach`), so nothing is lost by having
only derivations of that form.
-/

set_option autoImplicit false

namespace Lox

/-- Right-hand sides of rules. -/
inductive Ebnf where
  /-- A token of one of these kinds. -/
  | word (kinds : List Kind)
  | rule (r : Rule)
  | seq (first second : Ebnf)
  | alt (first second : Ebnf)
  /-- The part or nothing. -/
  | maybe (part : Ebnf)
  /-- The part any number of times. -/
  | many (part : Ebnf)

namespace Ebnf

def one (k : Kind) : Ebnf := word [k]

end Ebnf

open Ebnf in
/-- The right-hand side of a rule. -/
def Rule.body : Rule → Ebnf
  | declaration => alt (rule varDecl) (rule statement)
  | varDecl =>
    seq (one .varWord) <| seq (one .identifier) <|
      seq (maybe (seq (one .equal) (rule expr))) (one .semicolon)
  | statement =>
    alt (rule ifElse) <| alt (rule whileLoop) <| alt (rule block) <|
      alt (rule print) (rule exprStmt)
  | block => seq (one .leftBrace) <| seq (many (rule declaration)) (one .rightBrace)
  | print => seq (one .printWord) <| seq (rule expr) (one .semicolon)
  | ifElse =>
    seq (one .ifWord) <| seq (one .leftParen) <| seq (rule expr) <| seq (one .rightParen) <|
      seq (rule statement) (maybe (seq (one .elseWord) (rule statement)))
  | whileLoop =>
    seq (one .whileWord) <| seq (one .leftParen) <| seq (rule expr) <| seq (one .rightParen)
      (rule statement)
  | exprStmt => seq (rule expr) (one .semicolon)
  | expr => rule assignment
  | assignment =>
    alt (seq (one .identifier) <| seq (one .equal) (rule assignment)) (rule (level .or))
  | level l => seq (rule l.operand) (many (seq (word l.kinds) (rule l.operand)))
  | unary => alt (seq (word [.minus, .bang]) (rule unary)) (rule primary)
  | primary =>
    alt (word [.number, .string, .trueWord, .falseWord, .nilWord, .identifier]) <|
      seq (one .leftParen) <| seq (rule expr) (one .rightParen)

/-- A program is any number of declarations. -/
def Ebnf.program : Ebnf := many (rule .declaration)

/-- The tokens that a right-hand side stands for. -/
inductive Generates : Ebnf → List Token → Prop
  | word {kinds : List Kind} {t : Token} (h : t.kind ∈ kinds) : Generates (.word kinds) [t]
  | rule {r : Rule} {ts : List Token} (h : Generates r.body ts) : Generates (.rule r) ts
  | seq {a b : Ebnf} {ts us : List Token} (ha : Generates a ts) (hb : Generates b us) :
      Generates (.seq a b) (ts ++ us)
  | first {a b : Ebnf} {ts : List Token} (h : Generates a ts) : Generates (.alt a b) ts
  | second {a b : Ebnf} {ts : List Token} (h : Generates b ts) : Generates (.alt a b) ts
  | none {a : Ebnf} : Generates (.maybe a) []
  | some {a : Ebnf} {ts : List Token} (h : Generates a ts) : Generates (.maybe a) ts
  | stop {a : Ebnf} : Generates (.many a) []
  | more {a : Ebnf} {ts us : List Token} (ha : Generates a ts) (hm : Generates (.many a) us) :
      Generates (.many a) (ts ++ us)

/-! ## Generated tokens have a derivation -/

/-- The tokens of a right-hand side in which the rules stand for the tokens that `R` says. -/
def Ebnf.Matches (R : Rule → List Token → Prop) : Ebnf → List Token → Prop
  | .word kinds, ts => ∃ t, ts = [t] ∧ t.kind ∈ kinds
  | .rule r, ts => R r ts
  | .seq a b, ts => ∃ xs ys, ts = xs ++ ys ∧ a.Matches R xs ∧ b.Matches R ys
  | .alt a b, ts => a.Matches R ts ∨ b.Matches R ts
  | .maybe a, ts => ts = [] ∨ a.Matches R ts
  | .many a, ts => ∃ pieces : List (List Token), ts = pieces.flatten ∧ ∀ p ∈ pieces, a.Matches R p

/-- What every rule keeps from its right-hand side holds of all that is generated. -/
theorem Generates.matches {R : Rule → List Token → Prop}
    (hR : ∀ r ts, r.body.Matches R ts → R r ts) {e : Ebnf} {ts : List Token}
    (h : Generates e ts) : e.Matches R ts := by
  induction h with
  | word h => exact ⟨_, rfl, h⟩
  | rule _ ih => exact hR _ _ ih
  | seq _ _ iha ihb => exact ⟨_, _, rfl, iha, ihb⟩
  | first _ ih => exact .inl ih
  | second _ ih => exact .inr ih
  | none => exact .inl rfl
  | some _ ih => exact .inr ih
  | stop => exact ⟨[], rfl, by simp⟩
  | more _ _ iha ihm =>
    obtain ⟨pieces, rfl, hp⟩ := ihm
    exact ⟨_ :: pieces, rfl, List.forall_mem_cons.2 ⟨iha, hp⟩⟩

theorem Level.exists_op? {l : Level} {k : Kind} (h : k ∈ l.kinds) : ∃ op, l.op? k = some op := by
  cases l <;> cases k <;> first | exact ⟨_, rfl⟩ | exact absurd h (by decide)

theorem Level.mem_kinds {l : Level} {k : Kind} {op : Op} (h : l.op? k = some op) :
    k ∈ l.kinds := by
  unfold op? at h
  split at h
  · assumption
  · cases h

namespace Derives

variable {n m : Nat} {r : Rule} {ts es : List Token} {a e : Node} {w : Token}

/-- A tree that ends in an `if` without `else` takes an `else` that follows. -/
theorem attach (h : Derives False n r ts a) (hd : a.dangles = true) (hw : w.kind = .elseWord)
    (he : Derives False m .statement es e) : ∃ b, Derives False (m + n) r (ts ++ w :: es) b := by
  induction h with
  | declared _ ih =>
    obtain ⟨b, hb⟩ := ih hd
    exact ⟨b, .declared hb⟩
  | stated _ ih =>
    obtain ⟨b, hb⟩ := ih hd
    exact ⟨b, .stated hb⟩
  | form hr _ ih =>
    obtain ⟨b, hb⟩ := ih hd
    exact ⟨b, .form hr hb⟩
  | @ifThen n i l r cs ts c t hi hl hc hr ht _ iht =>
    have hc' := hc.mono (Nat.le_add_left n m)
    simp only [List.cons_append, List.append_assoc]
    cases hdt : t.dangles with
    | true =>
      obtain ⟨b, hb⟩ := iht hdt
      exact ⟨_, .ifThen hi hl hc' hr hb⟩
    | false =>
      exact ⟨_, .ifElse hi hl hc' hr (ht.mono (Nat.le_add_left n m)) hdt hw
        (he.mono (Nat.le_add_right m n))⟩
  | @ifElse n i l r v cs ts es c t e hi hl hc hr ht hdt hv _ _ _ ihe =>
    obtain ⟨b, hb⟩ := ihe hd
    simp only [List.cons_append, List.append_assoc]
    exact ⟨_, .ifElse hi hl (hc.mono (Nat.le_add_left n m)) hr (ht.mono (Nat.le_add_left n m)) hdt
      hv hb⟩
  | @whileLoop n v l r cs ts c t hv hl hc hr ht _ iht =>
    obtain ⟨b, hb⟩ := iht hd
    simp only [List.cons_append, List.append_assoc]
    exact ⟨_, .whileLoop hv hl (hc.mono (Nat.le_add_left n m)) hr hb⟩
  | expr h | or h | primary h => exact absurd hd (by rw [h.dangles_eq_false rfl]; decide)
  | operand h => exact absurd hd (by rw [h.dangles_eq_false (Level.isExpr_operand _)]; decide)
  | @assign _ _ _ _ t => cases t <;> cases hd
  | join => exact absurd hd (by rw [Level.dangles_join]; decide)
  | _ => cases hd

/-- Pieces that are derived one by one are derived within one number of levels. -/
theorem exists_pieces {pieces : List (List Token)}
    (h : ∀ p ∈ pieces, ∃ n a, Derives False n r p a) :
    ∃ (n : Nat) (ps : List (List Token × Node)), pieces.flatten = ps.flatMap (·.1) ∧
      ∀ p ∈ ps, Derives False n r p.1 p.2 := by
  induction pieces with
  | nil => exact ⟨0, [], rfl, by simp⟩
  | cons p pieces ih =>
    obtain ⟨⟨k, a, ha⟩, hp⟩ := List.forall_mem_cons.1 h
    obtain ⟨n, ps, hps, hd⟩ := ih hp
    refine ⟨k + n, (p, a) :: ps, by rw [List.flatten_cons, hps]; rfl, ?_⟩
    refine List.forall_mem_cons.2 ⟨ha.mono (Nat.le_add_right k n), fun q hq => ?_⟩
    exact (hd q hq).mono (Nat.le_add_left n k)

/-- Operands after the first are joined to the left. -/
theorem exists_chain {l : Level} {pieces : List (List Token)}
    (h : ∀ p ∈ pieces, ∃ m bs, p = m :: bs ∧ m.kind ∈ l.kinds ∧
      ∃ n b, Derives False n l.operand bs b)
    (ha : Derives False n (.level l) ts a) :
    ∃ k b, Derives False k (.level l) (ts ++ pieces.flatten) b := by
  induction pieces generalizing n ts a with
  | nil => exact ⟨n, a, by rwa [List.flatten_nil, List.append_nil]⟩
  | cons p pieces ih =>
    obtain ⟨⟨m, bs, rfl, hm, k, b, hb⟩, hp⟩ := List.forall_mem_cons.1 h
    obtain ⟨op, hop⟩ := Level.exists_op? hm
    have ha' : Derives False (k + n + 1) (.level l) ts a := ha.mono (by omega)
    have hb' : Derives False (k + n) l.operand bs b := hb.mono (by omega)
    have := ih hp (.join ha' hop hb')
    rwa [List.append_assoc] at this

end Derives

/-- The rule derives the tokens with some tree. -/
def Derivable (r : Rule) (ts : List Token) : Prop := ∃ n a, Derives False n r ts a

namespace Derivable

open Ebnf

theorem declaration {ts : List Token} (h : Rule.declaration.body.Matches Derivable ts) :
    Derivable .declaration ts := by
  obtain ⟨n, a, h⟩ | ⟨n, a, h⟩ := h
  · exact ⟨_, _, .declared h⟩
  · exact ⟨_, _, .stated h⟩

theorem varDecl {ts : List Token} (h : Rule.varDecl.body.Matches Derivable ts) :
    Derivable .varDecl ts := by
  obtain ⟨_, _, rfl, ⟨v, rfl, hv⟩, _, _, rfl, ⟨x, rfl, hx⟩, _, _, rfl, h, ⟨s, rfl, hs⟩⟩ := h
  rw [List.mem_singleton] at hv hx hs
  obtain rfl | ⟨_, _, rfl, ⟨q, rfl, hq⟩, n, a, h⟩ := h
  · exact ⟨1, _, .varNil hv hx hs⟩
  · rw [List.mem_singleton] at hq
    exact ⟨_, _, .varInit hv hx hq h hs⟩

theorem statement {ts : List Token} (h : Rule.statement.body.Matches Derivable ts) :
    Derivable .statement ts := by
  obtain ⟨n, a, h⟩ | ⟨n, a, h⟩ | ⟨n, a, h⟩ | ⟨n, a, h⟩ | ⟨n, a, h⟩ := h <;>
    exact ⟨_, _, .form (by decide) h⟩

theorem block {ts : List Token} (h : Rule.block.body.Matches Derivable ts) :
    Derivable .block ts := by
  obtain ⟨_, _, rfl, ⟨l, rfl, hl⟩, _, _, rfl, ⟨pieces, rfl, hp⟩, ⟨r, rfl, hr⟩⟩ := h
  rw [List.mem_singleton] at hl hr
  obtain ⟨n, ps, hps, hd⟩ := Derives.exists_pieces hp
  rw [hps]
  exact ⟨_, _, .block hl hd hr⟩

theorem print {ts : List Token} (h : Rule.print.body.Matches Derivable ts) :
    Derivable .print ts := by
  obtain ⟨_, _, rfl, ⟨p, rfl, hp⟩, _, _, rfl, ⟨n, a, h⟩, ⟨s, rfl, hs⟩⟩ := h
  rw [List.mem_singleton] at hp hs
  exact ⟨_, _, .print hp h hs⟩

theorem ifElse {ts : List Token} (h : Rule.ifElse.body.Matches Derivable ts) :
    Derivable .ifElse ts := by
  obtain ⟨_, _, rfl, ⟨i, rfl, hi⟩, _, _, rfl, ⟨l, rfl, hl⟩, _, _, rfl, ⟨n, c, hc⟩, _, _, rfl,
    ⟨r, rfl, hr⟩, _, _, rfl, ⟨m, t, ht⟩, h⟩ := h
  rw [List.mem_singleton] at hi hl hr
  have hc' := hc.mono (Nat.le_add_right n m)
  have ht' := ht.mono (Nat.le_add_left m n)
  obtain rfl | ⟨_, _, rfl, ⟨w, rfl, hw⟩, k, e, he⟩ := h
  · rw [List.append_nil]
    exact ⟨_, _, .ifThen hi hl hc' hr ht'⟩
  · rw [List.mem_singleton] at hw
    cases hd : t.dangles with
    | true =>
      obtain ⟨b, hb⟩ := ht'.attach hd hw he
      exact ⟨_, _, .ifThen hi hl (hc'.mono (Nat.le_add_left _ k)) hr hb⟩
    | false =>
      exact ⟨_, _, .ifElse hi hl (hc'.mono (Nat.le_add_left _ k)) hr
        (ht'.mono (Nat.le_add_left _ k)) hd hw (he.mono (Nat.le_add_right k _))⟩

theorem whileLoop {ts : List Token} (h : Rule.whileLoop.body.Matches Derivable ts) :
    Derivable .whileLoop ts := by
  obtain ⟨_, _, rfl, ⟨w, rfl, hw⟩, _, _, rfl, ⟨l, rfl, hl⟩, _, _, rfl, ⟨n, c, hc⟩, _, _, rfl,
    ⟨r, rfl, hr⟩, m, t, ht⟩ := h
  rw [List.mem_singleton] at hw hl hr
  exact ⟨_, _, .whileLoop hw hl (hc.mono (Nat.le_add_right n m)) hr
    (ht.mono (Nat.le_add_left m n))⟩

theorem exprStmt {ts : List Token} (h : Rule.exprStmt.body.Matches Derivable ts) :
    Derivable .exprStmt ts := by
  obtain ⟨_, _, rfl, ⟨n, a, h⟩, ⟨s, rfl, hs⟩⟩ := h
  rw [List.mem_singleton] at hs
  obtain ⟨t, us, rfl⟩ := h.exists_cons
  exact ⟨_, _, .exprStmt h hs⟩

/-- A variable on its own, up the ladder of operators. -/
theorem variable_or {n : Nat} {x : Token} (hx : x.kind = .identifier) :
    Derives False (n + 8) (.level .or) [x] (.var x) :=
  .operand <| .operand (l := .and) <| .operand (l := .equality) <| .operand (l := .comparison) <|
    .operand (l := .term) <| .operand (l := .factor) <| .primary <| .var hx

theorem assignment {ts : List Token} (h : Rule.assignment.body.Matches Derivable ts) :
    Derivable .assignment ts := by
  obtain ⟨_, _, rfl, ⟨x, rfl, hx⟩, _, _, rfl, ⟨q, rfl, hq⟩, n, a, h⟩ | ⟨n, a, h⟩ := h
  · rw [List.mem_singleton] at hx hq
    exact ⟨_, _, .assign (variable_or hx) (.inr ⟨x, rfl⟩) hq (h.mono (Nat.le_add_right n 8))⟩
  · exact ⟨_, _, .or h⟩

theorem level {l : Level} {ts : List Token} (h : (Rule.level l).body.Matches Derivable ts) :
    Derivable (.level l) ts := by
  obtain ⟨_, _, rfl, ⟨n, a, h⟩, pieces, rfl, hp⟩ := h
  refine Derives.exists_chain (fun p hm => ?_) (.operand h)
  obtain ⟨_, bs, rfl, ⟨m, rfl, hk⟩, hb⟩ := hp p hm
  exact ⟨m, bs, rfl, hk, hb⟩

theorem unary {ts : List Token} (h : Rule.unary.body.Matches Derivable ts) :
    Derivable .unary ts := by
  obtain ⟨_, _, rfl, ⟨m, rfl, hm⟩, n, a, h⟩ | ⟨n, a, h⟩ := h
  · simp only [List.mem_cons, List.not_mem_nil, or_false] at hm
    have hop : ∃ op, Op.ofUnary? m.kind = some op := by
      rcases hm with hm | hm <;> exact ⟨_, by rw [hm]; rfl⟩
    obtain ⟨op, hop⟩ := hop
    exact ⟨_, _, .unary hop h⟩
  · exact ⟨_, _, .primary h⟩

theorem primary {ts : List Token} (h : Rule.primary.body.Matches Derivable ts) :
    Derivable .primary ts := by
  obtain ⟨t, rfl, ht⟩ | ⟨_, _, rfl, ⟨l, rfl, hl⟩, _, _, rfl, ⟨n, a, h⟩, ⟨r, rfl, hr⟩⟩ := h
  · simp only [List.mem_cons, List.not_mem_nil, or_false] at ht
    rcases ht with ht | ht | ht | ht | ht | ht
    · exact ⟨1, _, .literal (.inl ht)⟩
    · exact ⟨1, _, .literal (.inr ht)⟩
    · exact ⟨1, _, .truth ht⟩
    · exact ⟨1, _, .falsity ht⟩
    · exact ⟨1, _, .nil ht⟩
    · exact ⟨1, _, .var ht⟩
  · rw [List.mem_singleton] at hl hr
    exact ⟨_, _, .grouping hl h hr⟩

theorem of_matches (r : Rule) (ts : List Token) (h : r.body.Matches Derivable ts) :
    Derivable r ts := by
  cases r with
  | declaration => exact declaration h
  | varDecl => exact varDecl h
  | statement => exact statement h
  | block => exact block h
  | print => exact print h
  | ifElse => exact ifElse h
  | whileLoop => exact whileLoop h
  | exprStmt => exact exprStmt h
  | expr =>
    obtain ⟨n, a, h⟩ := h
    exact ⟨_, _, .expr h⟩
  | assignment => exact assignment h
  | level l => exact level h
  | unary => exact unary h
  | primary => exact primary h

end Derivable

/-! ## What has a derivation is generated -/

namespace Generates

open Ebnf

theorem one {k : Kind} {t : Token} (h : t.kind = k) : Generates (.one k) [t] :=
  .word (List.mem_singleton.2 h)

/-- A token and then more. -/
theorem cons {kinds : List Kind} {t : Token} {ts : List Token} {a : Ebnf} (h : t.kind ∈ kinds)
    (ha : Generates a ts) : Generates (.seq (.word kinds) a) (t :: ts) :=
  .seq (.word h) ha

theorem oneThen {k : Kind} {t : Token} {ts : List Token} {a : Ebnf} (h : t.kind = k)
    (ha : Generates a ts) : Generates (.seq (.one k) a) (t :: ts) :=
  .seq (.one h) ha

theorem seqNil {a b : Ebnf} {ts : List Token} (ha : Generates a ts) (hb : Generates b []) :
    Generates (.seq a b) ts := by
  have := Generates.seq ha hb
  rwa [List.append_nil] at this

theorem many_append {a : Ebnf} {ts us : List Token} (h : Generates (.many a) ts)
    (hu : Generates a us) : Generates (.many a) (ts ++ us) := by
  generalize he : Ebnf.many a = e at h
  induction h with
  | stop =>
    have := Generates.more hu (.stop (a := a))
    rw [List.append_nil] at this
    exact he ▸ this
  | @more a' xs ys hx hy _ ihm =>
    cases he
    have := Generates.more hx (ihm rfl)
    rwa [List.append_assoc]
  | _ => cases he

theorem many_flatMap {a : Ebnf} {pieces : List (List Token × Node)}
    (h : ∀ p ∈ pieces, Generates a p.1) : Generates (.many a) (pieces.flatMap (·.1)) := by
  induction pieces with
  | nil => exact .stop
  | cons p pieces ih =>
    obtain ⟨hp, hps⟩ := List.forall_mem_cons.1 h
    exact .more hp (ih hps)

end Generates

namespace Derives

variable {n : Nat} {r : Rule} {ts : List Token} {a : Node}

/-- An expression that is a variable is written as that variable. -/
theorem eq_of_var {x : Token} (h : Derives False n r ts (.var x)) (hr : r.isExpr = true) :
    ts = [x] ∧ x.kind = .identifier := by
  generalize ha : Node.var x = a at h
  induction h with
  | expr _ ih | or _ ih | primary _ ih => exact ih rfl ha
  | operand _ ih => exact ih (Level.isExpr_operand _) ha
  | @assign _ _ _ _ t => cases t <;> cases ha
  | @join _ l => cases l <;> cases ha
  | var h =>
    cases ha
    exact ⟨rfl, h⟩
  | unary | literal | truth | falsity | nil | grouping => cases ha
  | _ => cases hr

theorem generates (h : Derives False n r ts a) : Generates (.rule r) ts := by
  induction h with
  | declared _ ih => exact .rule (.first ih)
  | stated _ ih => exact .rule (.second ih)
  | varNil hv hx hs => exact .rule (.oneThen hv (.oneThen hx (.seq .none (.one hs))))
  | varInit hv hx hq _ hs ih =>
    exact .rule (.oneThen hv (.oneThen hx (.seq (.some (.oneThen hq ih)) (.one hs))))
  | form hr _ ih =>
    simp only [Rule.forms, List.mem_cons, List.not_mem_nil, or_false] at hr
    rcases hr with rfl | rfl | rfl | rfl | rfl
    · exact .rule (.first ih)
    · exact .rule (.second (.first ih))
    · exact .rule (.second (.second (.first ih)))
    · exact .rule (.second (.second (.second (.first ih))))
    · exact .rule (.second (.second (.second (.second ih))))
  | block hl _ hr ih => exact .rule (.oneThen hl (.seq (.many_flatMap ih) (.one hr)))
  | print hp _ hs ih => exact .rule (.oneThen hp (.seq ih (.one hs)))
  | ifThen hi hl _ hr _ ihc iht =>
    exact .rule (.oneThen hi (.oneThen hl (.seq ihc (.oneThen hr (.seqNil iht .none)))))
  | ifElse hi hl _ hr _ _ hw _ ihc iht ihe =>
    exact .rule (.oneThen hi (.oneThen hl (.seq ihc (.oneThen hr
      (.seq iht (.some (.oneThen hw ihe)))))))
  | whileLoop hw hl _ hr _ ihc iht =>
    exact .rule (.oneThen hw (.oneThen hl (.seq ihc (.oneThen hr iht))))
  | exprStmt _ hs ih => exact .rule (.seq ih (.one hs))
  | expr _ ih => exact .rule ih
  | or _ ih => exact .rule (.second ih)
  | assign ht hx hq _ _ ih =>
    obtain ⟨x, rfl⟩ := hx.resolve_left id
    obtain ⟨rfl, hk⟩ := ht.eq_of_var rfl
    exact .rule (.first (.oneThen hk (.oneThen hq ih)))
  | operand _ ih => exact .rule (.seqNil ih .stop)
  | @join _ l m op as bs _ _ _ hm _ iha ihb =>
    cases iha with
    | rule h => cases h with
      | @seq _ _ xs ys hx hy =>
        rw [List.append_assoc]
        exact .rule (.seq hx (.many_append hy (.cons (Level.mem_kinds hm) ihb)))
  | unary hm _ ih =>
    refine .rule (.first (.cons ?_ ih))
    cases hk : Token.kind _ <;> rw [hk] at hm <;> first | decide | cases hm
  | primary _ ih => exact .rule (.second ih)
  | literal h =>
    refine .rule (.first (.word ?_))
    rcases h with h | h <;> rw [h] <;> decide
  | truth h | falsity h | nil h | var h => exact .rule (.first (.word (by rw [h]; decide)))
  | grouping hl _ hr ih => exact .rule (.second (.oneThen hl (.seq ih (.one hr))))

end Derives

/-- A rule generates the tokens that it derives with some tree. -/
theorem generates_iff {r : Rule} {ts : List Token} :
    Generates (.rule r) ts ↔ Derivable r ts :=
  ⟨fun h => h.matches Derivable.of_matches, by rintro ⟨_, _, h⟩; exact h.generates⟩

theorem generates_program_iff {ts : List Token} :
    Generates .program ts ↔
      ∃ (n : Nat) (pieces : List (List Token × Node)), ts = pieces.flatMap (·.1) ∧
        ∀ p ∈ pieces, Derives False n .declaration p.1 p.2 := by
  constructor
  · intro h
    obtain ⟨pieces, rfl, hp⟩ := h.matches Derivable.of_matches
    exact Derives.exists_pieces hp
  · rintro ⟨n, pieces, rfl, hp⟩
    exact .many_flatMap fun p hm => (hp p hm).generates

end Lox
