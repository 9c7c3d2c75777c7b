import Mathlib.Data.List.Forall2
import Lox.Syntax.WellFormed
import Lox.Proofs.Grammar.Completeness
import Lox.Proofs.Grammar.Ebnf

/-!
# Trees written out again

`Node.yield` writes a tree out, one sign for each token: the kind of the token, and what the tree
keeps of it (a name the whole token, a literal its value, an operator or the start of a statement its
line). `Node.laddered` and `Node.placed` tell the trees that respect the ladder of operators, that
have declarations where the grammar has them, and in which every `else` belongs to the nearest `if`.

`derives_iff`: the trees that a rule derives tokens with are the trees of this form that the tokens
fit. So tokens have one tree at most.
-/

set_option autoImplicit false

namespace Lox

/-! ## Signs -/

/-- What a tree says of one token. -/
structure Sign where
  kind : Kind
  token : Option Token
  literal : Option Value
  lines : List Int

namespace Sign

def word (kind : Kind) : Sign := ⟨kind, none, none, []⟩

/-- A token of this kind whose line the tree keeps. -/
def mark (kind : Kind) (line : Int) : Sign := ⟨kind, none, none, [line]⟩

/-- An identifier, which the tree keeps whole. -/
def ident (token : Token) : Sign := ⟨.identifier, some token, none, []⟩

/-- A number or string, of which the tree keeps the literal. -/
def carrier (kind : Kind) (v : Value) : Sign := ⟨kind, none, some v, []⟩

def Fits (s : Sign) (t : Token) : Prop :=
  t.kind = s.kind ∧ (∀ x, s.token = some x → t = x) ∧ (∀ v, s.literal = some v → t.literal = v) ∧
    ∀ line ∈ s.lines, t.line = line

@[simp] theorem fits_word {k : Kind} {t : Token} : (word k).Fits t ↔ t.kind = k := by
  simp [Fits, word]

@[simp] theorem fits_mark {k : Kind} {line : Int} {t : Token} :
    (mark k line).Fits t ↔ t.kind = k ∧ t.line = line := by
  simp [Fits, mark]

@[simp] theorem fits_ident {x t : Token} : (ident x).Fits t ↔ t.kind = .identifier ∧ t = x := by
  simp [Fits, ident]

@[simp] theorem fits_carrier {k : Kind} {v : Value} {t : Token} :
    (carrier k v).Fits t ↔ t.kind = k ∧ t.literal = v := by
  simp [Fits, carrier]

/-- The first of the signs also keeps a line. -/
def firstOn (line : Int) : List Sign → List Sign
  | [] => []
  | s :: ss => { s with lines := line :: s.lines } :: ss

end Sign

/-- The tokens fit the signs one by one. -/
def Spells (ss : List Sign) (ts : List Token) : Prop := List.Forall₂ Sign.Fits ss ts

section
variable {s : Sign} {ss ss' : List Sign} {ts : List Token}

@[simp] theorem spells_nil : Spells [] ts ↔ ts = [] := List.forall₂_nil_left_iff

theorem spells_cons : Spells (s :: ss) ts ↔ ∃ t us, ts = t :: us ∧ s.Fits t ∧ Spells ss us := by
  constructor
  · rintro (_ | ⟨h, hs⟩)
    exact ⟨_, _, rfl, h, hs⟩
  · rintro ⟨t, us, rfl, h, hs⟩
    exact .cons h hs

theorem spells_single : Spells [s] ts ↔ ∃ t, ts = [t] ∧ s.Fits t := by
  simp [spells_cons]

namespace Spells

variable {t : Token} {k : Kind}

theorem nil : Spells [] [] := List.Forall₂.nil

theorem word (h : t.kind = k) (hs : Spells ss ts) : Spells (.word k :: ss) (t :: ts) :=
  .cons (Sign.fits_word.2 h) hs

theorem mark (h : t.kind = k) (hs : Spells ss ts) : Spells (.mark k t.line :: ss) (t :: ts) :=
  .cons (Sign.fits_mark.2 ⟨h, rfl⟩) hs

theorem ident (h : t.kind = .identifier) (hs : Spells ss ts) : Spells (.ident t :: ss) (t :: ts) :=
  .cons (Sign.fits_ident.2 ⟨h, rfl⟩) hs

theorem append {us : List Token} (h : Spells ss ts) (h' : Spells ss' us) :
    Spells (ss ++ ss') (ts ++ us) := List.rel_append h h'

end Spells

theorem spells_append :
    Spells (ss ++ ss') ts ↔ ∃ us vs, ts = us ++ vs ∧ Spells ss us ∧ Spells ss' vs := by
  induction ss generalizing ts with
  | nil => simp
  | cons s ss ih =>
    simp only [List.cons_append, spells_cons, ih]
    constructor
    · rintro ⟨t, _, rfl, h, us, vs, rfl, hu, hv⟩
      exact ⟨t :: us, vs, rfl, ⟨t, us, rfl, h, hu⟩, hv⟩
    · rintro ⟨_, vs, rfl, ⟨t, us, rfl, h, hu⟩, hv⟩
      exact ⟨t, us ++ vs, rfl, h, us, vs, rfl, hu, hv⟩

theorem spells_firstOn {line : Int} :
    Spells (Sign.firstOn line ss) ts ↔ Spells ss ts ∧ ∀ t ∈ ts.head?, t.line = line := by
  cases ss with
  | nil =>
    simp only [Sign.firstOn, spells_nil]
    exact ⟨fun h => ⟨h, by simp [h]⟩, And.left⟩
  | cons s ss =>
    simp only [Sign.firstOn, spells_cons, Sign.Fits, List.forall_mem_cons]
    constructor
    · rintro ⟨t, us, rfl, ⟨hk, hx, hv, hl, hls⟩, hs⟩
      exact ⟨⟨t, us, rfl, ⟨hk, hx, hv, hls⟩, hs⟩, by simpa using hl⟩
    · rintro ⟨⟨t, us, rfl, ⟨hk, hx, hv, hls⟩, hs⟩, hl⟩
      exact ⟨t, us, rfl, ⟨hk, hx, hv, hl t rfl, hls⟩, hs⟩

end

/-! ## The yield of a tree -/

/-- The kind of token that an operator is written with. -/
def Op.kind : Op → Kind
  | add => .plus | sub => .minus | mul => .star | div => .slash | eq => .equalEqual
  | ne => .bangEqual | gt => .greater | ge => .greaterEqual | lt => .less | le => .lessEqual
  | neg => .minus | not => .bang | and => .andWord | or => .orWord

/-- The sign of a literal; a native has none. -/
def Value.signs : Value → List Sign
  | nil => [.word .nilWord]
  | bool true => [.word .trueWord]
  | bool false => [.word .falseWord]
  | num x => [.carrier .number (.num x)]
  | str s => [.carrier .string (.str s)]
  | native _ => []

namespace Node

mutual

/-- The tree written out, without parentheses but those that are nodes. -/
def yield : Node → List Sign
  | literal v => v.signs
  | var x => [.ident x]
  | unary op a line => .mark op.kind line :: a.yield
  | binary a op b line | logical a op b line => a.yield ++ .mark op.kind line :: b.yield
  | grouping a => .word .leftParen :: (a.yield ++ [.word .rightParen])
  | assign x a => .ident x :: .word .equal :: a.yield
  | varDecl x none => [.word .varWord, .ident x, .word .semicolon]
  | varDecl x (some a) =>
    .word .varWord :: .ident x :: .word .equal :: (a.yield ++ [.word .semicolon])
  | exprStmt a line => Sign.firstOn line a.yield ++ [.word .semicolon]
  | print a line => .mark .printWord line :: (a.yield ++ [.word .semicolon])
  | ifElse c t e line =>
    .mark .ifWord line :: .word .leftParen ::
      (c.yield ++ .word .rightParen :: (t.yield ++ yieldElse e))
  | whileLoop c t line =>
    .mark .whileWord line :: .word .leftParen :: (c.yield ++ .word .rightParen :: t.yield)
  | block as line => .mark .leftBrace line :: (yieldAll as ++ [.word .rightBrace])
  | bare _ => []

def yieldElse : Option Node → List Sign
  | none => []
  | some e => .word .elseWord :: e.yield

/-- The yield of a program. -/
def yieldAll : List Node → List Sign
  | [] => []
  | a :: as => a.yield ++ yieldAll as

end

/-- The place of an expression on the ladder of operators. -/
def rank : Node → Nat
  | assign _ _ => 0
  | binary _ op _ _ | logical _ op _ _ => op.rank
  | unary _ _ _ => 7
  | _ => 8

/-- Expressions that respect the ladder: operands are tighter than their operator, but the left
operand may be of the same level, the operand of a sign may be signed, and the value of an
assignment may be any expression. -/
def laddered : Node → Bool
  | literal (.native _) => false
  | literal _ | var _ => true
  | unary op a _ => op.isUnary && decide (7 ≤ a.rank) && a.laddered
  | binary a op b _ =>
    op.isBinary && decide (op.rank ≤ a.rank) && decide (op.rank < b.rank) && a.laddered &&
      b.laddered
  | logical a op b _ =>
    op.isLogical && decide (op.rank ≤ a.rank) && decide (op.rank < b.rank) && a.laddered &&
      b.laddered
  | grouping a | assign _ a => a.laddered
  | _ => false

mutual

/-- Statements, and declarations if `decl` allows them, with every `else` at the nearest `if`. -/
def placed (decl : Bool) : Node → Bool
  | varDecl _ none => decl
  | varDecl _ (some a) => decl && a.laddered
  | exprStmt a _ | print a _ => a.laddered
  | ifElse c t none _ => c.laddered && t.placed false
  | ifElse c t (some e) _ => c.laddered && t.placed false && !t.dangles && e.placed false
  | whileLoop c t _ => c.laddered && t.placed false
  | block as _ => allPlaced as
  | _ => false

/-- Programs of which every declaration is placed. -/
def allPlaced : List Node → Bool
  | [] => true
  | a :: as => a.placed true && allPlaced as

end

end Node

/-- The trees that a rule may derive tokens with. -/
def Rule.admits (r : Rule) (a : Node) : Bool :=
  if r.isExpr then a.laddered && decide (r.rank ≤ a.rank)
  else a.placed (r == .declaration || r == .varDecl)

theorem Rule.admits_iff {r : Rule} (hr : r.isExpr = true) {a : Node} :
    r.admits a = true ↔ a.laddered = true ∧ r.rank ≤ a.rank := by
  simp [admits, hr]

theorem Rule.admits_expr {a : Node} : Rule.expr.admits a = true ↔ a.laddered = true := by
  rw [admits_iff rfl]
  exact and_iff_left (Nat.zero_le _)

/-- A statement may stand where a declaration may. -/
theorem Node.placed_of_false {a : Node} (h : a.placed false = true) : a.placed true = true := by
  cases a with
  | varDecl x e => cases e <;> simp [placed] at h
  | ifElse c t e line => cases e <;> simpa only [placed] using h
  | _ => simpa only [placed] using h

theorem Node.allPlaced_iff {as : List Node} :
    allPlaced as = true ↔ ∀ a ∈ as, a.placed true = true := by
  induction as with
  | nil => simp [allPlaced]
  | cons a as ih => simp [allPlaced, ih]

/-- A number carries a number as its literal, and a string a string. -/
def Token.Carries (t : Token) : Prop :=
  (t.kind = .number → ∃ x, t.literal = .num x) ∧ (t.kind = .string → ∃ s, t.literal = .str s)

theorem Spells.all {pieces : List (List Token × Node)} (h : ∀ p ∈ pieces, Spells p.2.yield p.1) :
    Spells (Node.yieldAll (pieces.map (·.2))) (pieces.flatMap (·.1)) := by
  induction pieces with
  | nil => exact .nil
  | cons p pieces ih =>
    obtain ⟨hp, hps⟩ := List.forall_mem_cons.1 h
    exact .append hp (ih hps)

/-! ## Derived trees -/

theorem Op.kind_of_ofUnary? {k : Kind} {op : Op} (h : ofUnary? k = some op) : k = op.kind := by
  cases k <;> cases h <;> rfl

theorem Level.kind_of_op? {l : Level} {k : Kind} {op : Op} (h : l.op? k = some op) :
    k = op.kind := by
  cases l <;> cases k <;> cases h <;> rfl

@[simp] theorem Level.yield_join (l : Level) (a b : Node) (op : Op) (line : Int) :
    (l.join a op b line).yield = a.yield ++ .mark op.kind line :: b.yield := by
  cases l <;> simp only [join, Node.yield]

@[simp] theorem Level.rank_join (l : Level) (a b : Node) (op : Op) (line : Int) :
    (l.join a op b line).rank = op.rank := by
  cases l <;> rfl

theorem Level.laddered_join {l : Level} {k : Kind} {op : Op} (h : l.op? k = some op) (a b : Node)
    (line : Int) :
    (l.join a op b line).laddered = true ↔
      l.rank ≤ a.rank ∧ l.rank < b.rank ∧ a.laddered = true ∧ b.laddered = true := by
  have hop : (l.join a op b line).laddered =
      (decide (l.rank ≤ a.rank) && decide (l.rank < b.rank) && a.laddered && b.laddered) := by
    cases l <;> cases k <;> cases h <;> rfl
  simp [hop, and_assoc]

namespace Derives

variable {n : Nat} {r : Rule} {ts : List Token} {a : Node}

theorem spells (h : Derives False n r ts a) (hc : ∀ t ∈ ts, t.Carries) : Spells a.yield ts := by
  induction h with
  | declared _ ih | stated _ ih | form _ _ ih | expr _ ih | or _ ih | operand _ ih
  | primary _ ih => exact ih hc
  | varNil hv hx hs =>
    simp only [Node.yield]
    exact .word hv (.ident hx (.word hs .nil))
  | varInit hv hx hq _ hs ih =>
    simp only [List.forall_mem_cons, List.forall_mem_append] at hc
    obtain ⟨-, -, -, ha, -⟩ := hc
    simp only [Node.yield]
    exact .word hv (.ident hx (.word hq (.append (ih ha) (.word hs .nil))))
  | @block n l r pieces hl _ hr ih =>
    simp only [List.forall_mem_cons, List.forall_mem_append] at hc
    obtain ⟨-, ha, -⟩ := hc
    simp only [Node.yield]
    refine .mark hl (.append ?_ (.word hr .nil))
    exact .all fun p hp => ih p hp fun t ht => ha t (List.mem_flatMap.2 ⟨p, hp, ht⟩)
  | print hp _ hs ih =>
    simp only [List.forall_mem_cons, List.forall_mem_append] at hc
    obtain ⟨-, ha, -⟩ := hc
    simp only [Node.yield]
    exact .mark hp (.append (ih ha) (.word hs .nil))
  | ifThen hi hl _ hr _ ihc iht =>
    simp only [List.forall_mem_cons, List.forall_mem_append] at hc
    obtain ⟨-, -, hcs, -, hts⟩ := hc
    simp only [Node.yield, Node.yieldElse, List.append_nil]
    exact .mark hi (.word hl (.append (ihc hcs) (.word hr (iht hts))))
  | ifElse hi hl _ hr _ _ hw _ ihc iht ihe =>
    simp only [List.forall_mem_cons, List.forall_mem_append] at hc
    obtain ⟨-, -, hcs, -, hts, -, hes⟩ := hc
    simp only [Node.yield, Node.yieldElse]
    exact .mark hi (.word hl (.append (ihc hcs) (.word hr
      (.append (iht hts) (.word hw (ihe hes))))))
  | whileLoop hw hl _ hr _ ihc iht =>
    simp only [List.forall_mem_cons, List.forall_mem_append] at hc
    obtain ⟨-, -, hcs, -, hts⟩ := hc
    simp only [Node.yield]
    exact .mark hw (.word hl (.append (ihc hcs) (.word hr (iht hts))))
  | exprStmt _ hs ih =>
    simp only [Node.yield]
    have ha := ih fun t ht => hc t (List.mem_append_left _ ht)
    exact .append (spells_firstOn.2 ⟨ha, by simp⟩) (.word hs .nil)
  | assign ht hx hq _ _ ih =>
    obtain ⟨x, rfl⟩ := hx.resolve_left id
    obtain ⟨rfl, hk⟩ := ht.eq_of_var rfl
    simp only [List.forall_mem_cons, List.forall_mem_append] at hc
    simp only [Node.assignTo, Node.yield]
    exact .ident hk (.word hq (ih hc.2.2))
  | join _ hm _ iha ihb =>
    simp only [List.forall_mem_cons, List.forall_mem_append] at hc
    obtain ⟨ha, -, hb⟩ := hc
    rw [Level.yield_join]
    exact .append (iha ha) (.mark (Level.kind_of_op? hm) (ihb hb))
  | unary hm _ ih =>
    simp only [Node.yield]
    exact .mark (Op.kind_of_ofUnary? hm) (ih (List.forall_mem_cons.1 hc).2)
  | @literal _ t h =>
    obtain ⟨hn, hs⟩ := hc t (List.mem_singleton_self t)
    simp only [Node.yield]
    rcases h with h | h
    · obtain ⟨x, hx⟩ := hn h
      rw [hx]
      exact .cons (Sign.fits_carrier.2 ⟨h, hx⟩) .nil
    · obtain ⟨x, hx⟩ := hs h
      rw [hx]
      exact .cons (Sign.fits_carrier.2 ⟨h, hx⟩) .nil
  | truth h | falsity h | nil h =>
    simp only [Node.yield]
    exact .word h .nil
  | var h =>
    simp only [Node.yield]
    exact .ident h .nil
  | grouping hl _ hr ih =>
    simp only [List.forall_mem_cons, List.forall_mem_append] at hc
    obtain ⟨-, ha, -⟩ := hc
    simp only [Node.yield]
    exact .word hl (.append (ih ha) (.word hr .nil))

theorem admits (h : Derives False n r ts a) (hc : ∀ t ∈ ts, t.Carries) : r.admits a = true := by
  induction h with
  | declared _ ih => exact ih hc
  | stated _ ih => exact Node.placed_of_false (ih hc)
  | varNil => rfl
  | varInit _ _ _ _ _ ih =>
    simp only [List.forall_mem_cons, List.forall_mem_append] at hc
    obtain ⟨-, -, -, ha, -⟩ := hc
    exact Rule.admits_expr.1 (ih ha)
  | form hr _ ih =>
    have := ih hc
    simp only [Rule.forms, List.mem_cons, List.not_mem_nil, or_false] at hr
    rcases hr with rfl | rfl | rfl | rfl | rfl <;> exact this
  | @block n l r pieces hl _ hr ih =>
    simp only [List.forall_mem_cons, List.forall_mem_append] at hc
    obtain ⟨-, ha, -⟩ := hc
    refine Node.allPlaced_iff.2 fun b hb => ?_
    obtain ⟨p, hp, rfl⟩ := List.mem_map.1 hb
    exact ih p hp fun t ht => ha t (List.mem_flatMap.2 ⟨p, hp, ht⟩)
  | print _ _ _ ih =>
    simp only [List.forall_mem_cons, List.forall_mem_append] at hc
    exact Rule.admits_expr.1 (ih hc.2.1)
  | @ifThen _ _ _ _ _ _ c t _ _ _ _ _ ihc iht =>
    simp only [List.forall_mem_cons, List.forall_mem_append] at hc
    obtain ⟨-, -, hcs, -, hts⟩ := hc
    have hct : c.laddered = true ∧ t.placed false = true :=
      ⟨Rule.admits_expr.1 (ihc hcs), iht hts⟩
    simpa [Rule.admits, Rule.isExpr, Node.placed] using hct
  | @ifElse _ _ _ _ _ _ _ _ c t e _ _ _ _ _ hd _ _ ihc iht ihe =>
    simp only [List.forall_mem_cons, List.forall_mem_append] at hc
    obtain ⟨-, -, hcs, -, hts, -, hes⟩ := hc
    have hcte : ((c.laddered = true ∧ t.placed false = true) ∧ t.dangles = false) ∧
        e.placed false = true := ⟨⟨⟨Rule.admits_expr.1 (ihc hcs), iht hts⟩, hd⟩, ihe hes⟩
    simpa [Rule.admits, Rule.isExpr, Node.placed] using hcte
  | @whileLoop _ _ _ _ _ _ c t _ _ _ _ _ ihc iht =>
    simp only [List.forall_mem_cons, List.forall_mem_append] at hc
    obtain ⟨-, -, hcs, -, hts⟩ := hc
    have hct : c.laddered = true ∧ t.placed false = true :=
      ⟨Rule.admits_expr.1 (ihc hcs), iht hts⟩
    simpa [Rule.admits, Rule.isExpr, Node.placed] using hct
  | exprStmt _ _ ih =>
    exact Rule.admits_expr.1 (ih fun t ht => hc t (List.mem_append_left _ ht))
  | expr _ ih => exact ih hc
  | or _ ih =>
    obtain ⟨hl, -⟩ := (Rule.admits_iff rfl).1 (ih hc)
    exact (Rule.admits_iff rfl).2 ⟨hl, Nat.zero_le _⟩
  | assign ht hx _ _ _ ih =>
    obtain ⟨x, rfl⟩ := hx.resolve_left id
    simp only [List.forall_mem_cons, List.forall_mem_append] at hc
    exact (Rule.admits_iff rfl).2 ⟨((Rule.admits_iff rfl).1 (ih hc.2.2)).1, Nat.zero_le _⟩
  | operand _ ih =>
    obtain ⟨hl, hr⟩ := (Rule.admits_iff (Level.isExpr_operand _)).1 (ih hc)
    rw [Level.rank_operand] at hr
    exact (Rule.admits_iff rfl).2 ⟨hl, Nat.le_of_succ_le hr⟩
  | join _ hm _ iha ihb =>
    simp only [List.forall_mem_cons, List.forall_mem_append] at hc
    obtain ⟨ha, -, hb⟩ := hc
    obtain ⟨hla, hra⟩ := (Rule.admits_iff rfl).1 (iha ha)
    obtain ⟨hlb, hrb⟩ := (Rule.admits_iff (Level.isExpr_operand _)).1 (ihb hb)
    rw [Level.rank_operand] at hrb
    refine (Rule.admits_iff rfl).2 ⟨(Level.laddered_join hm _ _ _).2 ⟨hra, hrb, hla, hlb⟩, ?_⟩
    rw [Level.rank_join, (Level.op?_eq_some hm).2]
    exact Nat.le_refl _
  | @unary _ _ op _ a hm _ ih =>
    obtain ⟨hl, hr⟩ := (Rule.admits_iff rfl).1 (ih (List.forall_mem_cons.1 hc).2)
    have hop : op.isUnary = true ∧ 7 ≤ a.rank ∧ a.laddered = true :=
      ⟨Op.isUnary_of_ofUnary? hm, hr, hl⟩
    refine (Rule.admits_iff rfl).2 ⟨?_, Nat.le_refl _⟩
    simpa [Node.laddered, and_assoc] using hop
  | primary _ ih =>
    obtain ⟨hl, hr⟩ := (Rule.admits_iff rfl).1 (ih hc)
    exact (Rule.admits_iff rfl).2 ⟨hl, Nat.le_of_succ_le hr⟩
  | @literal _ t h =>
    obtain ⟨hn, hs⟩ := hc t (List.mem_singleton_self t)
    rcases h with h | h
    · obtain ⟨x, hx⟩ := hn h
      rw [hx]
      rfl
    · obtain ⟨x, hx⟩ := hs h
      rw [hx]
      rfl
  | truth | falsity | nil | var => rfl
  | grouping _ _ _ ih =>
    simp only [List.forall_mem_cons, List.forall_mem_append] at hc
    exact (Rule.admits_iff rfl).2 ⟨Rule.admits_expr.1 (ih hc.2.1), Nat.le_refl _⟩

end Derives

/-! ## Trees that tokens fit -/

/-- The rule at a place of the ladder of operators. -/
def Rule.ofRank : Nat → Rule
  | 0 => .assignment
  | 1 => .level .or
  | 2 => .level .and
  | 3 => .level .equality
  | 4 => .level .comparison
  | 5 => .level .term
  | 6 => .level .factor
  | 7 => .unary
  | _ => .primary

theorem Rule.ofRank_level (l : Level) : ofRank l.rank = .level l := by cases l <;> rfl

theorem Rule.ofRank_operand (l : Level) : ofRank (l.rank + 1) = l.operand := by cases l <;> rfl

theorem Op.rank_le (op : Op) : op.rank ≤ 8 := by cases op <;> decide

theorem Node.rank_le (a : Node) : a.rank ≤ 8 := by
  unfold rank
  split
  · exact Nat.zero_le 8
  · exact Op.rank_le _
  · exact Op.rank_le _
  · decide
  · exact Nat.le_refl 8

/-- The level of an operator between two operands, and the node it makes. -/
theorem Op.exists_level {op : Op} (h : op.isUnary = false) :
    ∃ l : Level, l.rank = op.rank ∧ l.op? op.kind = some op ∧
      l.join = if op.isLogical then .logical else .binary := by
  cases op with
  | or => exact ⟨.or, rfl, rfl, rfl⟩
  | and => exact ⟨.and, rfl, rfl, rfl⟩
  | eq | ne => exact ⟨.equality, rfl, rfl, rfl⟩
  | gt | ge | lt | le => exact ⟨.comparison, rfl, rfl, rfl⟩
  | add | sub => exact ⟨.term, rfl, rfl, rfl⟩
  | mul | div => exact ⟨.factor, rfl, rfl, rfl⟩
  | neg | not => cases h

theorem Op.ofUnary?_kind {op : Op} (h : op.isUnary = true) : ofUnary? op.kind = some op := by
  cases op <;> first | rfl | cases h

namespace Derives

variable {n : Nat} {ts : List Token} {a : Node}

theorem descend {k : Nat} (hk : k < 8) (h : Derives False n (.ofRank (k + 1)) ts a) :
    Derives False (n + 1) (.ofRank k) ts a := by
  match k, hk with
  | 0, _ => exact .or h
  | 1, _ => exact .operand (l := .or) h
  | 2, _ => exact .operand (l := .and) h
  | 3, _ => exact .operand (l := .equality) h
  | 4, _ => exact .operand (l := .comparison) h
  | 5, _ => exact .operand (l := .term) h
  | 6, _ => exact .operand (l := .factor) h
  | 7, _ => exact .primary h

/-- A tighter expression stands wherever a looser one may. -/
theorem reach {j k : Nat} (hkj : k ≤ j) (hj : j ≤ 8) (h : Derives False n (.ofRank j) ts a) :
    ∃ m, Derives False m (.ofRank k) ts a := by
  induction j generalizing n with
  | zero =>
    obtain rfl := Nat.le_zero.1 hkj
    exact ⟨n, h⟩
  | succ j ih =>
    rcases Nat.lt_or_eq_of_le hkj with hlt | rfl
    · exact ih (by omega) (by omega) (descend (by omega) h)
    · exact ⟨n, h⟩

end Derives

/-- Two operands and the operator between them. -/
theorem exists_derives_join {op : Op} {line : Int} {a b : Node} {ts : List Token}
    (hop : op.isUnary = false) (hra : op.rank ≤ a.rank) (hrb : op.rank < b.rank)
    (ha : ∀ {us : List Token}, Spells a.yield us → ∃ n, Derives False n (.ofRank a.rank) us a)
    (hb : ∀ {us : List Token}, Spells b.yield us → ∃ n, Derives False n (.ofRank b.rank) us b)
    (hs : Spells (a.yield ++ .mark op.kind line :: b.yield) ts) :
    ∃ n, Derives False n (.ofRank op.rank) ts
      ((if op.isLogical then Node.logical else .binary) a op b line) := by
  obtain ⟨l, hl, hlop, hj⟩ := op.exists_level hop
  obtain ⟨us, _, rfl, hsa, hs₁⟩ := spells_append.1 hs
  obtain ⟨m, vs, rfl, hm, hsb⟩ := spells_cons.1 hs₁
  obtain ⟨hk, rfl⟩ := Sign.fits_mark.1 hm
  obtain ⟨n, ha⟩ := ha hsa
  obtain ⟨k, hb⟩ := hb hsb
  obtain ⟨n, ha⟩ := ha.reach hra a.rank_le
  obtain ⟨k, hb⟩ := hb.reach (Nat.succ_le_of_lt hrb) b.rank_le
  rw [← hl, Rule.ofRank_level] at ha
  rw [← hl, Rule.ofRank_operand] at hb
  rw [← hl, Rule.ofRank_level, ← hj]
  have ha' : Derives False (n + k + 1) (.level l) us a := ha.mono (by omega)
  exact ⟨_, .join ha' (by rw [hk]; exact hlop) (hb.mono (Nat.le_add_left k n))⟩

/-- The tokens that an expression fits are derived with it. -/
theorem exists_derives_expr : ∀ (a : Node) {ts : List Token}, a.laddered = true →
    Spells a.yield ts → ∃ n, Derives False n (.ofRank a.rank) ts a
  | .literal v, ts, h, hs => by
    simp only [Node.yield] at hs
    cases v with
    | native f => cases h
    | nil =>
      obtain ⟨t, rfl, ht⟩ := spells_single.1 hs
      exact ⟨1, .nil (Sign.fits_word.1 ht)⟩
    | bool b =>
      cases b with
      | true =>
        obtain ⟨t, rfl, ht⟩ := spells_single.1 hs
        exact ⟨1, .truth (Sign.fits_word.1 ht)⟩
      | false =>
        obtain ⟨t, rfl, ht⟩ := spells_single.1 hs
        exact ⟨1, .falsity (Sign.fits_word.1 ht)⟩
    | num x =>
      obtain ⟨t, rfl, ht⟩ := spells_single.1 hs
      obtain ⟨hk, hv⟩ := Sign.fits_carrier.1 ht
      exact ⟨1, hv ▸ .literal (.inl hk)⟩
    | str x =>
      obtain ⟨t, rfl, ht⟩ := spells_single.1 hs
      obtain ⟨hk, hv⟩ := Sign.fits_carrier.1 ht
      exact ⟨1, hv ▸ .literal (.inr hk)⟩
  | .var x, ts, _, hs => by
    simp only [Node.yield] at hs
    obtain ⟨t, rfl, ht⟩ := spells_single.1 hs
    obtain ⟨hk, rfl⟩ := Sign.fits_ident.1 ht
    exact ⟨1, .var hk⟩
  | .unary op a line, ts, h, hs => by
    simp only [Node.laddered, Bool.and_eq_true, decide_eq_true_eq] at h
    obtain ⟨⟨hop, hr⟩, hl⟩ := h
    simp only [Node.yield] at hs
    obtain ⟨m, us, rfl, hm, hsa⟩ := spells_cons.1 hs
    obtain ⟨hk, rfl⟩ := Sign.fits_mark.1 hm
    obtain ⟨k, ha⟩ := exists_derives_expr a hl hsa
    obtain ⟨n, ha⟩ := ha.reach hr a.rank_le
    exact ⟨n + 1, .unary (by rw [hk]; exact Op.ofUnary?_kind hop) ha⟩
  | .binary a op b line, ts, h, hs => by
    simp only [Node.laddered, Bool.and_eq_true, decide_eq_true_eq] at h
    obtain ⟨⟨⟨⟨hop, hra⟩, hrb⟩, hla⟩, hlb⟩ := h
    simp only [Op.isBinary, Bool.and_eq_true, Bool.not_eq_true'] at hop
    simp only [Node.yield] at hs
    have := exists_derives_join hop.1 hra hrb (exists_derives_expr a hla)
      (exists_derives_expr b hlb) hs
    rwa [hop.2] at this
  | .logical a op b line, ts, h, hs => by
    simp only [Node.laddered, Bool.and_eq_true, decide_eq_true_eq] at h
    obtain ⟨⟨⟨⟨hop, hra⟩, hrb⟩, hla⟩, hlb⟩ := h
    have hun : op.isUnary = false := by cases op <;> first | rfl | cases hop
    simp only [Node.yield] at hs
    have := exists_derives_join hun hra hrb (exists_derives_expr a hla)
      (exists_derives_expr b hlb) hs
    rwa [hop] at this
  | .grouping a, ts, h, hs => by
    simp only [Node.yield] at hs
    obtain ⟨l, _, rfl, hl, hs₁⟩ := spells_cons.1 hs
    obtain ⟨us, _, rfl, hsa, hs₂⟩ := spells_append.1 hs₁
    obtain ⟨r, rfl, hr⟩ := spells_single.1 hs₂
    obtain ⟨k, ha⟩ := exists_derives_expr a h hsa
    obtain ⟨n, ha⟩ := ha.reach (Nat.zero_le _) a.rank_le
    exact ⟨_, .grouping (Sign.fits_word.1 hl) (.expr ha) (Sign.fits_word.1 hr)⟩
  | .assign x a, ts, h, hs => by
    simp only [Node.yield] at hs
    obtain ⟨t, _, rfl, hx, hs₁⟩ := spells_cons.1 hs
    obtain ⟨q, us, rfl, hq, hsa⟩ := spells_cons.1 hs₁
    obtain ⟨hk, rfl⟩ := Sign.fits_ident.1 hx
    obtain ⟨k, ha⟩ := exists_derives_expr a h hsa
    obtain ⟨n, ha⟩ := ha.reach (Nat.zero_le _) a.rank_le
    exact ⟨_, .assign (Derivable.variable_or hk) (.inr ⟨t, rfl⟩) (Sign.fits_word.1 hq)
      (ha.mono (Nat.le_add_right n 8))⟩
  | .varDecl _ _, _, h, _ | .exprStmt _ _, _, h, _ | .print _ _, _, h, _
  | .ifElse _ _ _ _, _, h, _ | .whileLoop _ _ _, _, h, _ | .block _ _, _, h, _
  | .bare _, _, h, _ => by cases h

/-- An expression that tokens fit, where any expression may stand. -/
theorem exists_expr {a : Node} {ts : List Token} (h : a.laddered = true) (hs : Spells a.yield ts) :
    ∃ n, Derives False n .expr ts a := by
  obtain ⟨k, ha⟩ := exists_derives_expr a h hs
  obtain ⟨n, ha⟩ := ha.reach (Nat.zero_le _) a.rank_le
  exact ⟨n + 1, .expr ha⟩

/-- What stands where a declaration may is a declaration of a variable, or a statement. -/
theorem Node.placed_true_cases {a : Node} (h : a.placed true = true) :
    (∃ x, a = .varDecl x none) ∨ (∃ x e, a = .varDecl x (some e) ∧ e.laddered = true) ∨
      a.placed false = true := by
  cases a with
  | varDecl x e =>
    cases e with
    | none => exact .inl ⟨x, rfl⟩
    | some e => exact .inr (.inl ⟨x, e, rfl, by simpa [placed] using h⟩)
  | ifElse c t e line => cases e <;> exact .inr (.inr (by simpa only [placed] using h))
  | _ => exact .inr (.inr (by simpa only [placed] using h))

theorem exists_varNil {x : Token} {ts : List Token} (hs : Spells (Node.varDecl x none).yield ts) :
    ∃ n, Derives False n .declaration ts (.varDecl x none) := by
  simp only [Node.yield] at hs
  obtain ⟨v, _, rfl, hv, hs₁⟩ := spells_cons.1 hs
  obtain ⟨t, _, rfl, ht, hs₂⟩ := spells_cons.1 hs₁
  obtain ⟨s, rfl, hs₃⟩ := spells_single.1 hs₂
  obtain ⟨hk, rfl⟩ := Sign.fits_ident.1 ht
  exact ⟨2, .declared (.varNil (Sign.fits_word.1 hv) hk (Sign.fits_word.1 hs₃))⟩

theorem exists_varInit {x : Token} {e : Node} {ts : List Token} (h : e.laddered = true)
    (hs : Spells (Node.varDecl x (some e)).yield ts) :
    ∃ n, Derives False n .declaration ts (.varDecl x (some e)) := by
  simp only [Node.yield] at hs
  obtain ⟨v, _, rfl, hv, hs₁⟩ := spells_cons.1 hs
  obtain ⟨t, _, rfl, ht, hs₂⟩ := spells_cons.1 hs₁
  obtain ⟨q, _, rfl, hq, hs₃⟩ := spells_cons.1 hs₂
  obtain ⟨us, _, rfl, hse, hs₄⟩ := spells_append.1 hs₃
  obtain ⟨s, rfl, hs₅⟩ := spells_single.1 hs₄
  obtain ⟨hk, rfl⟩ := Sign.fits_ident.1 ht
  obtain ⟨n, he⟩ := exists_expr h hse
  exact ⟨_, .declared (.varInit (Sign.fits_word.1 hv) hk (Sign.fits_word.1 hq) he
    (Sign.fits_word.1 hs₅))⟩

mutual

/-- The tokens that a statement fits are derived with it. -/
theorem exists_statement : ∀ (a : Node) {ts : List Token}, a.placed false = true →
    Spells a.yield ts → ∃ n, Derives False n .statement ts a
  | .exprStmt a line, ts, h, hs => by
    simp only [Node.placed] at h
    simp only [Node.yield] at hs
    obtain ⟨us, _, rfl, hs₁, hs₂⟩ := spells_append.1 hs
    obtain ⟨s, rfl, hs₃⟩ := spells_single.1 hs₂
    obtain ⟨hsa, hl⟩ := spells_firstOn.1 hs₁
    obtain ⟨n, ha⟩ := exists_expr h hsa
    obtain ⟨t, vs, rfl⟩ := ha.exists_cons
    obtain rfl := hl t rfl
    exact ⟨_, .form (by decide) (.exprStmt ha (Sign.fits_word.1 hs₃))⟩
  | .print a line, ts, h, hs => by
    simp only [Node.placed] at h
    simp only [Node.yield] at hs
    obtain ⟨p, _, rfl, hp, hs₁⟩ := spells_cons.1 hs
    obtain ⟨us, _, rfl, hsa, hs₂⟩ := spells_append.1 hs₁
    obtain ⟨s, rfl, hs₃⟩ := spells_single.1 hs₂
    obtain ⟨hk, rfl⟩ := Sign.fits_mark.1 hp
    obtain ⟨n, ha⟩ := exists_expr h hsa
    exact ⟨_, .form (by decide) (.print hk ha (Sign.fits_word.1 hs₃))⟩
  | .ifElse c t none line, ts, h, hs => by
    simp only [Node.placed, Bool.and_eq_true] at h
    simp only [Node.yield, Node.yieldElse, List.append_nil] at hs
    obtain ⟨i, _, rfl, hi, hs₁⟩ := spells_cons.1 hs
    obtain ⟨l, _, rfl, hl, hs₂⟩ := spells_cons.1 hs₁
    obtain ⟨cs, _, rfl, hsc, hs₃⟩ := spells_append.1 hs₂
    obtain ⟨r, us, rfl, hr, hst⟩ := spells_cons.1 hs₃
    obtain ⟨hk, rfl⟩ := Sign.fits_mark.1 hi
    obtain ⟨n, hc⟩ := exists_expr h.1 hsc
    obtain ⟨m, ht⟩ := exists_statement t h.2 hst
    exact ⟨_, .form (by decide) (.ifThen hk (Sign.fits_word.1 hl) (hc.mono (Nat.le_add_right n m))
      (Sign.fits_word.1 hr) (ht.mono (Nat.le_add_left m n)))⟩
  | .ifElse c t (some e) line, ts, h, hs => by
    simp only [Node.placed, Bool.and_eq_true, Bool.not_eq_true'] at h
    obtain ⟨⟨⟨hc, ht⟩, hd⟩, he⟩ := h
    simp only [Node.yield, Node.yieldElse] at hs
    obtain ⟨i, _, rfl, hi, hs₁⟩ := spells_cons.1 hs
    obtain ⟨l, _, rfl, hl, hs₂⟩ := spells_cons.1 hs₁
    obtain ⟨cs, _, rfl, hsc, hs₃⟩ := spells_append.1 hs₂
    obtain ⟨r, _, rfl, hr, hs₄⟩ := spells_cons.1 hs₃
    obtain ⟨us, _, rfl, hst, hs₅⟩ := spells_append.1 hs₄
    obtain ⟨w, vs, rfl, hw, hse⟩ := spells_cons.1 hs₅
    obtain ⟨hk, rfl⟩ := Sign.fits_mark.1 hi
    obtain ⟨n, hc⟩ := exists_expr hc hsc
    obtain ⟨m, ht⟩ := exists_statement t ht hst
    obtain ⟨k, he⟩ := exists_statement e he hse
    exact ⟨n + m + k + 2, .form (by decide) (.ifElse hk (Sign.fits_word.1 hl) (hc.mono (by omega))
      (Sign.fits_word.1 hr) (ht.mono (by omega)) hd (Sign.fits_word.1 hw) (he.mono (by omega)))⟩
  | .whileLoop c t line, ts, h, hs => by
    simp only [Node.placed, Bool.and_eq_true] at h
    simp only [Node.yield] at hs
    obtain ⟨w, _, rfl, hw, hs₁⟩ := spells_cons.1 hs
    obtain ⟨l, _, rfl, hl, hs₂⟩ := spells_cons.1 hs₁
    obtain ⟨cs, _, rfl, hsc, hs₃⟩ := spells_append.1 hs₂
    obtain ⟨r, us, rfl, hr, hst⟩ := spells_cons.1 hs₃
    obtain ⟨hk, rfl⟩ := Sign.fits_mark.1 hw
    obtain ⟨n, hc⟩ := exists_expr h.1 hsc
    obtain ⟨m, ht⟩ := exists_statement t h.2 hst
    exact ⟨_, .form (by decide) (.whileLoop hk (Sign.fits_word.1 hl)
      (hc.mono (Nat.le_add_right n m)) (Sign.fits_word.1 hr) (ht.mono (Nat.le_add_left m n)))⟩
  | .block as line, ts, h, hs => by
    simp only [Node.placed] at h
    simp only [Node.yield] at hs
    obtain ⟨l, _, rfl, hl, hs₁⟩ := spells_cons.1 hs
    obtain ⟨us, _, rfl, hsa, hs₂⟩ := spells_append.1 hs₁
    obtain ⟨r, rfl, hr⟩ := spells_single.1 hs₂
    obtain ⟨hk, rfl⟩ := Sign.fits_mark.1 hl
    obtain ⟨n, pieces, rfl, rfl, hp⟩ := exists_declarations as h hsa
    exact ⟨_, .form (by decide) (.block hk hp (Sign.fits_word.1 hr))⟩
  | .varDecl _ e, _, h, _ => by cases e <;> simp [Node.placed] at h
  | .literal _, _, h, _ | .var _, _, h, _ | .unary _ _ _, _, h, _ | .binary _ _ _ _, _, h, _
  | .logical _ _ _ _, _, h, _ | .grouping _, _, h, _ | .assign _ _, _, h, _
  | .bare _, _, h, _ => by simp [Node.placed] at h

/-- The tokens that a list of declarations fits are derived with them one by one. -/
theorem exists_declarations : ∀ (as : List Node) {ts : List Token}, Node.allPlaced as = true →
    Spells (Node.yieldAll as) ts →
    ∃ (n : Nat) (pieces : List (List Token × Node)), as = pieces.map (·.2) ∧
      ts = pieces.flatMap (·.1) ∧ ∀ p ∈ pieces, Derives False n .declaration p.1 p.2
  | [], ts, _, hs => ⟨0, [], rfl, spells_nil.1 hs, by simp⟩
  | a :: as, ts, h, hs => by
    simp only [Node.allPlaced, Bool.and_eq_true] at h
    obtain ⟨us, vs, rfl, hsa, hs⟩ := spells_append.1 hs
    obtain ⟨n, pieces, rfl, rfl, hp⟩ := exists_declarations as h.2 hs
    have ha : ∃ m, Derives False m .declaration us a := by
      rcases Node.placed_true_cases h.1 with ⟨x, rfl⟩ | ⟨x, e, rfl, he⟩ | hf
      · exact exists_varNil hsa
      · exact exists_varInit he hsa
      · obtain ⟨m, hm⟩ := exists_statement a hf hsa
        exact ⟨m + 1, .stated hm⟩
    obtain ⟨m, ha⟩ := ha
    refine ⟨m + n, (us, a) :: pieces, rfl, rfl, List.forall_mem_cons.2 ⟨?_, fun p hm => ?_⟩⟩
    · exact ha.mono (Nat.le_add_right m n)
    · exact (hp p hm).mono (Nat.le_add_left n m)

end

end Lox
