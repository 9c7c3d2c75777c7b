import Lox.Proofs.Grammar.Runs

/-!
# Derivations

`Derives lax n r ts a`: the rule `r` derives the tokens `ts` with the tree `a`, through at most `n`
rules inside one another. An `else` goes to the nearest `if`. The target of an assignment is a
variable; if `lax` holds it may be any tree that the parser reads before it looks at the target.

`Stops r a k`: a token of kind `k` does not go on with the tree `a` that the rule `r` has read. The
parser reads a derived tree up to the first token that stops it (`Soundness`, `Completeness`).
-/

set_option autoImplicit false

namespace Lox

/-- Whether the tree ends in an `if` without `else`, so that an `else` after it would be its own. -/
def Node.dangles : Node → Bool
  | .ifElse _ _ none _ => true
  | .ifElse _ _ (some branch) _ => branch.dangles
  | .whileLoop _ body _ => body.dangles
  | _ => false

/-- The tree of an assignment to what `target` names. -/
def Node.assignTo (target value : Node) : Node :=
  match target with
  | .var name => .assign name value
  | _ => .bare .nil

/-- The place of a level on the ladder of operators, from loose to tight. -/
def Level.rank : Level → Nat
  | or => 1
  | and => 2
  | equality => 3
  | comparison => 4
  | term => 5
  | factor => 6

/-- The place of an operator on the ladder. -/
def Op.rank : Op → Nat
  | or => 1
  | and => 2
  | eq | ne => 3
  | gt | ge | lt | le => 4
  | add | sub => 5
  | mul | div => 6
  | neg | not => 7

/-- The place of a rule on the ladder of operators; what is no expression stands at the top. -/
def Rule.rank : Rule → Nat
  | expr | assignment => 0
  | level l => l.rank
  | unary => 7
  | _ => 8

/-- The rules of expressions. -/
def Rule.isExpr : Rule → Bool
  | expr | assignment | level _ | unary | primary => true
  | _ => false

/-- The rules that a statement may be an instance of. -/
def Rule.forms : List Rule := [.ifElse, .whileLoop, .block, .print, .exprStmt]

theorem Rule.formOf_mem (k : Kind) : formOf k ∈ forms := by cases k <;> decide

@[simp] theorem Level.rank_operand (l : Level) : l.operand.rank = l.rank + 1 := by
  cases l <;> rfl

theorem Level.rank_pos (l : Level) : 0 < l.rank := by cases l <;> decide

@[simp] theorem Level.isExpr_operand (l : Level) : l.operand.isExpr = true := by cases l <;> rfl

@[simp] theorem Level.dangles_join (l : Level) (a b : Node) (op : Op) (line : Int) :
    (l.join a op b line).dangles = false := by
  cases l <;> simp [Level.join, Node.dangles]

inductive Derives (lax : Prop) : Nat → Rule → List Token → Node → Prop
  | declared {n : Nat} {ts : List Token} {a : Node} (h : Derives lax n .varDecl ts a) :
      Derives lax (n + 1) .declaration ts a
  | stated {n : Nat} {ts : List Token} {a : Node} (h : Derives lax n .statement ts a) :
      Derives lax (n + 1) .declaration ts a
  | varNil {n : Nat} {v x s : Token} (hv : v.kind = .varWord) (hx : x.kind = .identifier)
      (hs : s.kind = .semicolon) : Derives lax (n + 1) .varDecl [v, x, s] (.varDecl x none)
  | varInit {n : Nat} {v x q s : Token} {ts : List Token} {a : Node} (hv : v.kind = .varWord)
      (hx : x.kind = .identifier) (hq : q.kind = .equal) (h : Derives lax n .expr ts a)
      (hs : s.kind = .semicolon) :
      Derives lax (n + 1) .varDecl (v :: x :: q :: (ts ++ [s])) (.varDecl x (some a))
  | form {n : Nat} {r : Rule} {ts : List Token} {a : Node} (hr : r ∈ Rule.forms)
      (h : Derives lax n r ts a) : Derives lax (n + 1) .statement ts a
  | block {n : Nat} {l r : Token} {pieces : List (List Token × Node)} (hl : l.kind = .leftBrace)
      (h : ∀ p ∈ pieces, Derives lax n .declaration p.1 p.2) (hr : r.kind = .rightBrace) :
      Derives lax (n + 1) .block (l :: (pieces.flatMap (·.1) ++ [r]))
        (.block (pieces.map (·.2)) l.line)
  | print {n : Nat} {p s : Token} {ts : List Token} {a : Node} (hp : p.kind = .printWord)
      (h : Derives lax n .expr ts a) (hs : s.kind = .semicolon) :
      Derives lax (n + 1) .print (p :: (ts ++ [s])) (.print a p.line)
  | ifThen {n : Nat} {i l r : Token} {cs ts : List Token} {c t : Node} (hi : i.kind = .ifWord)
      (hl : l.kind = .leftParen) (hc : Derives lax n .expr cs c) (hr : r.kind = .rightParen)
      (ht : Derives lax n .statement ts t) :
      Derives lax (n + 1) .ifElse (i :: l :: (cs ++ r :: ts)) (.ifElse c t none i.line)
  | ifElse {n : Nat} {i l r w : Token} {cs ts es : List Token} {c t e : Node}
      (hi : i.kind = .ifWord) (hl : l.kind = .leftParen) (hc : Derives lax n .expr cs c)
      (hr : r.kind = .rightParen) (ht : Derives lax n .statement ts t) (hd : t.dangles = false)
      (hw : w.kind = .elseWord) (he : Derives lax n .statement es e) :
      Derives lax (n + 1) .ifElse (i :: l :: (cs ++ r :: (ts ++ w :: es)))
        (.ifElse c t (some e) i.line)
  | whileLoop {n : Nat} {w l r : Token} {cs ts : List Token} {c t : Node}
      (hw : w.kind = .whileWord) (hl : l.kind = .leftParen) (hc : Derives lax n .expr cs c)
      (hr : r.kind = .rightParen) (ht : Derives lax n .statement ts t) :
      Derives lax (n + 1) .whileLoop (w :: l :: (cs ++ r :: ts)) (.whileLoop c t w.line)
  | exprStmt {n : Nat} {t s : Token} {ts : List Token} {a : Node}
      (h : Derives lax n .expr (t :: ts) a) (hs : s.kind = .semicolon) :
      Derives lax (n + 1) .exprStmt (t :: ts ++ [s]) (.exprStmt a t.line)
  | expr {n : Nat} {ts : List Token} {a : Node} (h : Derives lax n .assignment ts a) :
      Derives lax (n + 1) .expr ts a
  | or {n : Nat} {ts : List Token} {a : Node} (h : Derives lax n (.level .or) ts a) :
      Derives lax (n + 1) .assignment ts a
  | assign {n : Nat} {q : Token} {xs ts : List Token} {t a : Node}
      (ht : Derives lax n (.level .or) xs t) (hx : lax ∨ ∃ x, t = .var x) (hq : q.kind = .equal)
      (h : Derives lax n .assignment ts a) :
      Derives lax (n + 1) .assignment (xs ++ q :: ts) (t.assignTo a)
  | operand {n : Nat} {l : Level} {ts : List Token} {a : Node}
      (h : Derives lax n l.operand ts a) : Derives lax (n + 1) (.level l) ts a
  | join {n : Nat} {l : Level} {m : Token} {op : Op} {as bs : List Token} {a b : Node}
      (ha : Derives lax (n + 1) (.level l) as a) (hm : l.op? m.kind = some op)
      (hb : Derives lax n l.operand bs b) :
      Derives lax (n + 1) (.level l) (as ++ m :: bs) (l.join a op b m.line)
  | unary {n : Nat} {m : Token} {op : Op} {ts : List Token} {a : Node}
      (hm : Op.ofUnary? m.kind = some op) (h : Derives lax n .unary ts a) :
      Derives lax (n + 1) .unary (m :: ts) (.unary op a m.line)
  | primary {n : Nat} {ts : List Token} {a : Node} (h : Derives lax n .primary ts a) :
      Derives lax (n + 1) .unary ts a
  | literal {n : Nat} {t : Token} (h : t.kind = .number ∨ t.kind = .string) :
      Derives lax (n + 1) .primary [t] (.literal t.literal)
  | truth {n : Nat} {t : Token} (h : t.kind = .trueWord) :
      Derives lax (n + 1) .primary [t] (.literal (.bool true))
  | falsity {n : Nat} {t : Token} (h : t.kind = .falseWord) :
      Derives lax (n + 1) .primary [t] (.literal (.bool false))
  | nil {n : Nat} {t : Token} (h : t.kind = .nilWord) :
      Derives lax (n + 1) .primary [t] (.literal .nil)
  | var {n : Nat} {t : Token} (h : t.kind = .identifier) : Derives lax (n + 1) .primary [t] (.var t)
  | grouping {n : Nat} {l r : Token} {ts : List Token} {a : Node} (hl : l.kind = .leftParen)
      (h : Derives lax n .expr ts a) (hr : r.kind = .rightParen) :
      Derives lax (n + 1) .primary (l :: (ts ++ [r])) (.grouping a)

namespace Derives

variable {lax : Prop} {n : Nat} {r : Rule} {ts : List Token} {a : Node}

theorem ne_nil (h : Derives lax n r ts a) : ts ≠ [] := by
  induction h <;> simp_all

theorem exists_cons (h : Derives lax n r ts a) : ∃ t us, ts = t :: us :=
  List.exists_cons_of_ne_nil h.ne_nil

theorem dangles_eq_false (h : Derives lax n r ts a) (hr : r.isExpr = true) :
    a.dangles = false := by
  induction h with
  | expr _ ih | or _ ih => exact ih rfl
  | operand _ ih => exact ih (Level.isExpr_operand _)
  | primary _ ih => exact ih rfl
  | @assign _ _ _ _ t _ => cases t <;> rfl
  | join => exact Level.dangles_join ..
  | unary | literal | truth | falsity | nil | var | grouping => rfl
  | _ => cases hr

/-- More levels and freer targets derive more. -/
theorem weaken {lax' : Prop} (hlax : lax → lax') (k : Nat) (h : Derives lax n r ts a) :
    Derives lax' (k + n) r ts a := by
  induction h with
  | declared _ ih => exact .declared ih
  | stated _ ih => exact .stated ih
  | varNil hv hx hs => exact .varNil hv hx hs
  | varInit hv hx hq _ hs ih => exact .varInit hv hx hq ih hs
  | form hr _ ih => exact .form hr ih
  | block hl _ hr ih => exact .block hl ih hr
  | print hp _ hs ih => exact .print hp ih hs
  | ifThen hi hl _ hr _ ihc iht => exact .ifThen hi hl ihc hr iht
  | ifElse hi hl _ hr _ hd hw _ ihc iht ihe => exact .ifElse hi hl ihc hr iht hd hw ihe
  | whileLoop hw hl _ hr _ ihc iht => exact .whileLoop hw hl ihc hr iht
  | exprStmt _ hs ih => exact .exprStmt ih hs
  | expr _ ih => exact .expr ih
  | or _ ih => exact .or ih
  | assign _ hx hq _ iht ih => exact .assign iht (hx.imp_left hlax) hq ih
  | operand _ ih => exact .operand ih
  | join _ hm _ iha ihb => exact .join iha hm ihb
  | unary hm _ ih => exact .unary hm ih
  | primary _ ih => exact .primary ih
  | literal h => exact .literal h
  | truth h => exact .truth h
  | falsity h => exact .falsity h
  | nil h => exact .nil h
  | var h => exact .var h
  | grouping hl _ hr ih => exact .grouping hl ih hr

theorem mono {m : Nat} (h : Derives lax n r ts a) (hm : n ≤ m) : Derives lax m r ts a := by
  have := h.weaken id (m - n)
  rwa [Nat.sub_add_cancel hm] at this

theorem loosen (h : Derives False n r ts a) : Derives lax n r ts a := by
  have : Derives lax (0 + n) r ts a := h.weaken False.elim 0
  rwa [Nat.zero_add] at this

/-- A level of operators derives an operand, or what it derives and one operand more. -/
theorem level_induction {l : Level} {motive : List Token → Node → Prop}
    (operand : ∀ {ts : List Token} {a : Node}, Derives lax n l.operand ts a → motive ts a)
    (join : ∀ {as bs : List Token} {a b : Node} {m : Token} {op : Op},
      Derives lax (n + 1) (.level l) as a → motive as a → l.op? m.kind = some op →
      Derives lax n l.operand bs b → motive (as ++ m :: bs) (l.join a op b m.line))
    (h : Derives lax (n + 1) (.level l) ts a) : motive ts a := by
  generalize hk : n + 1 = k at h
  generalize hr : Rule.level l = r at h
  induction h with
  | operand h =>
    cases hk
    cases hr
    exact operand h
  | join ha hm hb iha =>
    cases hk
    cases hr
    exact join ha (iha rfl rfl) hm hb
  | _ => cases hr

end Derives

/-! ## First tokens -/

/-- The kinds that an operand without sign starts with. -/
def Kind.primaries : List Kind :=
  [.number, .string, .trueWord, .falseWord, .nilWord, .identifier, .leftParen]

/-- The kinds that an expression starts with. -/
def Kind.starters : List Kind := .minus :: .bang :: primaries

namespace Derives

variable {lax : Prop} {n : Nat} {r : Rule} {t : Token} {ts : List Token} {a : Node}

theorem head_primary (h : Derives lax n .primary (t :: ts) a) : t.kind ∈ Kind.primaries := by
  cases h with
  | literal h => rcases h with h | h <;> rw [h] <;> decide
  | truth h | falsity h | nil h | var h => rw [h]; decide
  | grouping hl => rw [hl]; decide

theorem head_expr (h : Derives lax n r ts a) (hr : r.isExpr = true) :
    ∃ t us, ts = t :: us ∧ t.kind ∈ Kind.starters := by
  induction h with
  | expr _ ih | or _ ih => exact ih rfl
  | operand _ ih => exact ih (Level.isExpr_operand _)
  | @primary _ ts _ h =>
    obtain ⟨t, us, rfl⟩ := h.exists_cons
    exact ⟨t, us, rfl, List.mem_cons_of_mem _ (List.mem_cons_of_mem _ h.head_primary)⟩
  | @unary _ m op _ _ hm =>
    refine ⟨m, _, rfl, ?_⟩
    cases hk : m.kind <;> rw [hk] at hm <;> first | decide | cases hm
  | assign _ _ _ _ ih =>
    obtain ⟨t, us, rfl, ht⟩ := ih rfl
    exact ⟨t, _, rfl, ht⟩
  | join _ _ _ ih =>
    obtain ⟨t, us, rfl, ht⟩ := ih rfl
    exact ⟨t, _, rfl, ht⟩
  | @literal _ t h =>
    refine ⟨t, [], rfl, ?_⟩
    rcases h with h | h <;> rw [h] <;> decide
  | @truth _ t h | @falsity _ t h | @nil _ t h | @var _ t h =>
    exact ⟨t, [], rfl, by rw [h]; decide⟩
  | @grouping _ l _ _ _ hl => exact ⟨l, _, rfl, by rw [hl]; decide⟩
  | _ => cases hr

/-- The first token of a statement tells its form. -/
theorem head_form (h : Derives lax n r (t :: ts) a) (hr : r ∈ Rule.forms) :
    Rule.formOf t.kind = r ∧ t.kind ∉ [Kind.varWord, .elseWord, .rightBrace, .eof] := by
  simp only [Rule.forms, List.mem_cons, List.not_mem_nil, or_false] at hr
  rcases hr with rfl | rfl | rfl | rfl | rfl
  · cases h with
    | ifThen hk | ifElse hk => rw [hk]; exact ⟨rfl, by decide⟩
  · cases h with
    | whileLoop hk => rw [hk]; exact ⟨rfl, by decide⟩
  · cases h with
    | block hk => rw [hk]; exact ⟨rfl, by decide⟩
  · cases h with
    | print hk => rw [hk]; exact ⟨rfl, by decide⟩
  · cases h with
    | exprStmt h =>
      obtain ⟨u, us, he, hu⟩ := h.head_expr rfl
      obtain ⟨rfl, -⟩ := List.cons.inj he
      simp only [Kind.starters, Kind.primaries, List.mem_cons, List.not_mem_nil, or_false] at hu
      rcases hu with h | h | h | h | h | h | h | h | h <;> rw [h] <;> exact ⟨rfl, by decide⟩

theorem head_statement (h : Derives lax n .statement (t :: ts) a) :
    t.kind ∉ [Kind.varWord, .elseWord, .rightBrace, .eof] := by
  cases h with
  | form hr h => exact (h.head_form hr).2

theorem head_declaration (h : Derives lax n .declaration (t :: ts) a) :
    t.kind ∉ [Kind.elseWord, .rightBrace, .eof] := by
  cases h with
  | declared h => cases h with
    | varNil hv | varInit hv => rw [hv]; decide
  | stated h => exact fun hm => h.head_statement (List.mem_cons_of_mem _ hm)

end Derives

/-! ## What stops a rule -/

/-- A token of kind `k` does not go on with a tree `a` that the rule `r` has read. -/
structure Stops (r : Rule) (a : Node) (k : Kind) : Prop where
  operator : ∀ l : Level, r.rank ≤ l.rank → l.op? k = none
  equal : r.rank = 0 → k ≠ .equal
  branch : a.dangles = true → k ≠ .elseWord

theorem Stops.of_top {r : Rule} {a : Node} {k : Kind} (hr : r.rank = 8)
    (ha : a.dangles = true → k ≠ .elseWord) : Stops r a k := by
  refine ⟨fun l hl => ?_, fun h => ?_, ha⟩
  · rw [hr] at hl
    cases l <;> exact absurd hl (by decide)
  · rw [hr] at h
    cases h

theorem Stops.of_solid {r : Rule} {a : Node} {k : Kind} (hr : r.rank = 8)
    (ha : a.dangles = false) : Stops r a k :=
  .of_top hr fun h => by rw [ha] at h; cases h

theorem Stops.of_unary {a : Node} {k : Kind} (ha : a.dangles = false) : Stops .unary a k where
  operator l hl := by cases l <;> exact absurd hl (by decide)
  equal h := by cases h
  branch h := by rw [ha] at h; cases h

end Lox
