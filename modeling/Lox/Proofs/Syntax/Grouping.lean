import Lox.Proofs.Grammar.Relabel
import Lox.Proofs.Syntax.Cutting

/-!
# Parentheses of rendered trees

Rendering puts every binary and logical expression in parentheses. `Node.wrap` is the tree that the
rendered text writes: the same tree with a grouping around each of these. It respects the ladder of
operators where the tree does (`placed_wrap`), since what stands in parentheses may stand anywhere,
and without groupings it is the same tree (`ungroup_wrap`).

`Spelled signs ss`: the tokens of the segments `ss` fit the signs. The pieces of a tree fit what the
wrapped tree is written out as, but for lines (`spelled_rows`).
-/

set_option autoImplicit false

namespace Lox

namespace Node

mutual

/-- The tree with a grouping around every binary and logical expression. -/
def wrap : Node → Node
  | literal v => literal v
  | var x => var x
  | unary op a line => unary op a.wrap line
  | binary a op b line => grouping (binary a.wrap op b.wrap line)
  | logical a op b line => grouping (logical a.wrap op b.wrap line)
  | grouping a => grouping a.wrap
  | assign x a => assign x a.wrap
  | varDecl x none => varDecl x none
  | varDecl x (some a) => varDecl x (some a.wrap)
  | exprStmt a line => exprStmt a.wrap line
  | print a line => print a.wrap line
  | ifElse c t none line => ifElse c.wrap t.wrap none line
  | ifElse c t (some e) line => ifElse c.wrap t.wrap (some e.wrap) line
  | whileLoop c t line => whileLoop c.wrap t.wrap line
  | block as line => block (wrapAll as) line
  | bare v => bare v

def wrapAll : List Node → List Node
  | [] => []
  | a :: as => a.wrap :: wrapAll as

end

mutual

/-- The tree without its groupings. -/
def ungroup : Node → Node
  | literal v => literal v
  | var x => var x
  | unary op a line => unary op a.ungroup line
  | binary a op b line => binary a.ungroup op b.ungroup line
  | logical a op b line => logical a.ungroup op b.ungroup line
  | grouping a => a.ungroup
  | assign x a => assign x a.ungroup
  | varDecl x none => varDecl x none
  | varDecl x (some a) => varDecl x (some a.ungroup)
  | exprStmt a line => exprStmt a.ungroup line
  | print a line => print a.ungroup line
  | ifElse c t none line => ifElse c.ungroup t.ungroup none line
  | ifElse c t (some e) line => ifElse c.ungroup t.ungroup (some e.ungroup) line
  | whileLoop c t line => whileLoop c.ungroup t.ungroup line
  | block as line => block (ungroupAll as) line
  | bare v => bare v

def ungroupAll : List Node → List Node
  | [] => []
  | a :: as => a.ungroup :: ungroupAll as

end

mutual

theorem ungroup_wrap (a : Node) : a.wrap.ungroup = a.ungroup := by
  match a with
  | literal _ | var _ | bare _ | varDecl _ none => simp only [wrap]
  | unary _ a _ | grouping a | assign _ a | varDecl _ (some a) | exprStmt a _ | print a _ =>
    simp only [wrap, ungroup, a.ungroup_wrap]
  | binary a _ b _ | logical a _ b _ | whileLoop a b _ | ifElse a b none _ =>
    simp only [wrap, ungroup, a.ungroup_wrap, b.ungroup_wrap]
  | ifElse c t (some e) _ =>
    simp only [wrap, ungroup, c.ungroup_wrap, t.ungroup_wrap, e.ungroup_wrap]
  | block as _ => simp only [wrap, ungroup, ungroupAll_wrapAll as]

theorem ungroupAll_wrapAll (as : List Node) : ungroupAll (wrapAll as) = ungroupAll as := by
  match as with
  | [] => rfl
  | a :: as => simp only [wrapAll, ungroupAll, a.ungroup_wrap, ungroupAll_wrapAll as]

end

theorem ungroupAll_eq_map (as : List Node) : ungroupAll as = as.map ungroup := by
  induction as with
  | nil => rfl
  | cons a as ih => rw [ungroupAll, ih, List.map_cons]

/-! ## Wrapped trees and the ladder of operators -/

theorem rank_le_wrap (a : Node) : a.rank ≤ a.wrap.rank := by
  cases a with
  | binary _ op | logical _ op => exact op.rank_le
  | varDecl _ e | ifElse _ _ e => cases e <;> simp only [wrap, rank, Nat.le_refl]
  | _ => simp only [wrap, rank, Nat.le_refl]

theorem laddered_wrap (a : Node) (h : a.laddered = true) : a.wrap.laddered = true := by
  match a, h with
  | literal v, h => exact h
  | var x, _ => rfl
  | unary op a _, h =>
    simp only [laddered, Bool.and_eq_true, decide_eq_true_eq, wrap] at h ⊢
    exact ⟨⟨h.1.1, h.1.2.trans a.rank_le_wrap⟩, a.laddered_wrap h.2⟩
  | binary a op b _, h | logical a op b _, h =>
    simp only [laddered, Bool.and_eq_true, decide_eq_true_eq, wrap] at h ⊢
    obtain ⟨⟨⟨⟨hop, hleft⟩, hright⟩, ha⟩, hb⟩ := h
    exact ⟨⟨⟨⟨hop, hleft.trans a.rank_le_wrap⟩, Nat.lt_of_lt_of_le hright b.rank_le_wrap⟩,
      a.laddered_wrap ha⟩, b.laddered_wrap hb⟩
  | grouping a, h | assign _ a, h =>
    simp only [laddered, wrap] at h ⊢
    exact a.laddered_wrap h
  | varDecl _ _, h | exprStmt _ _, h | print _ _, h | ifElse _ _ _ _, h | whileLoop _ _ _, h
  | block _ _, h | bare _, h => cases h

theorem dangles_wrap (a : Node) : a.wrap.dangles = a.dangles := by
  match a with
  | ifElse _ _ (some e) _ => simpa only [wrap, dangles] using e.dangles_wrap
  | whileLoop _ t _ => simpa only [wrap, dangles] using t.dangles_wrap
  | ifElse _ _ none _ | varDecl _ none | varDecl _ (some _) | literal _ | var _ | unary _ _ _
  | binary _ _ _ _ | logical _ _ _ _ | grouping _ | assign _ _ | exprStmt _ _ | print _ _
  | block _ _ | bare _ => simp only [wrap, dangles]

mutual

theorem placed_wrap {decl : Bool} (a : Node) (h : a.placed decl = true) :
    a.wrap.placed decl = true := by
  match a, h with
  | varDecl _ none, h => exact h
  | varDecl _ (some a), h =>
    simp only [placed, wrap, Bool.and_eq_true] at h ⊢
    exact ⟨h.1, a.laddered_wrap h.2⟩
  | exprStmt a _, h | print a _, h =>
    simp only [placed, wrap] at h ⊢
    exact a.laddered_wrap h
  | ifElse c t none _, h | whileLoop c t _, h =>
    simp only [placed, wrap, Bool.and_eq_true] at h ⊢
    exact ⟨c.laddered_wrap h.1, t.placed_wrap h.2⟩
  | ifElse c t (some e) _, h =>
    -- The text has no braces around branches: wrapping must leave no new `if` open before the `else`.
    simp only [placed, wrap, Bool.and_eq_true, dangles_wrap] at h ⊢
    exact ⟨⟨⟨c.laddered_wrap h.1.1.1, t.placed_wrap h.1.1.2⟩, h.1.2⟩, e.placed_wrap h.2⟩
  | block as _, h =>
    simp only [placed, wrap] at h ⊢
    exact allPlaced_wrapAll as h
  | literal _, h | var _, h | unary _ _ _, h | binary _ _ _ _, h | logical _ _ _ _, h
  | grouping _, h | assign _ _, h | bare _, h => cases h

theorem allPlaced_wrapAll (as : List Node) (h : allPlaced as = true) :
    allPlaced (wrapAll as) = true := by
  match as, h with
  | [], _ => rfl
  | a :: as, h =>
    simp only [allPlaced, wrapAll, Bool.and_eq_true] at h ⊢
    exact ⟨a.placed_wrap h.1, allPlaced_wrapAll as h.2⟩

end

end Node

/-! ## The tokens of the pieces -/

/-- The tokens of segments, without their lines. -/
def tokensOf (ss : List Segment) : List Token :=
  (ss.filter (·.shape.isToken)).filterMap Segment.plain?

/-- The tokens of the segments fit the signs. -/
def Spelled (signs : List Sign) (ss : List Segment) : Prop := Spells signs (tokensOf ss)

section
variable {signs signs' : List Sign} {ss ss' : List Segment}

theorem tokensOf_cons {s : Segment} {t : Token} (h : s.Reads t) (ss : List Segment) :
    tokensOf (s :: ss) = t :: tokensOf ss := by
  have hplain : s.plain? = some t := by
    unfold Segment.plain?
    rw [h.token]
    rfl
  simp [tokensOf, h.isToken, hplain]

theorem tokensOf_append (ss ss' : List Segment) :
    tokensOf (ss ++ ss') = tokensOf ss ++ tokensOf ss' := by
  simp [tokensOf]

theorem spelled_nil : Spelled [] [] := .nil

theorem Spelled.append (h : Spelled signs ss) (h' : Spelled signs' ss') :
    Spelled (signs ++ signs') (ss ++ ss') := by
  unfold Spelled
  rw [tokensOf_append]
  exact Spells.append h h'

theorem Spelled.word (h : Spelled signs ss) {k : Kind} (hk : k ∈ Kind.marks ++ Kind.reserved) :
    Spelled (.word k :: signs) (k.segment :: ss) := by
  unfold Spelled
  rw [tokensOf_cons (Kind.reads hk)]
  exact Spells.word rfl h

theorem Spelled.mark (h : Spelled signs ss) {k : Kind} (hk : k ∈ Kind.marks ++ Kind.reserved) :
    Spelled (.mark k 0 :: signs) (k.segment :: ss) := by
  unfold Spelled
  rw [tokensOf_cons (Kind.reads hk)]
  exact Spells.mark (t := ⟨k, k.spelling, .nil, 0⟩) rfl h

theorem Spelled.name (h : Spelled signs ss) {x : Token} (hx : x.IsName) :
    Spelled (.ident x.unlined :: signs) (Segment.name x :: ss) := by
  have hkind : x.unlined.kind = .identifier := by
    rw [hx.eq]
    rfl
  unfold Spelled
  rw [tokensOf_cons hx.reads]
  exact Spells.ident hkind h

theorem Spelled.literal (h : Spelled signs ss) {v : Value} (hv : v.Readable) :
    Spelled (v.signs ++ signs) (v.segment :: ss) := by
  obtain ⟨t, ht, hsigns⟩ := hv.reads
  unfold Spelled
  rw [tokensOf_cons ht]
  exact Spells.append hsigns h

theorem Spelled.space (h : Spelled signs ss) : Spelled signs (Segment.space :: ss) := h

theorem Spelled.newline (h : Spelled signs ss) : Spelled signs (Segment.newline :: ss) := h

theorem Spelled.margin (h : Spelled signs ss) (indent : Int) :
    Spelled signs (Segment.margin indent ++ ss) := by
  unfold Segment.margin
  split <;> exact h

theorem exists_of_mem_tokensOf {t : Token} (h : t ∈ tokensOf ss) :
    ∃ s ∈ ss, s.token? 0 = .ok (some t) := by
  obtain ⟨s, hs, hplain⟩ := List.mem_filterMap.1 h
  refine ⟨s, List.mem_of_mem_filter hs, ?_⟩
  unfold Segment.plain? at hplain
  cases htoken : s.token? 0 with
  | error e => rw [htoken] at hplain; cases hplain
  | ok token =>
    rw [htoken] at hplain
    exact congrArg Except.ok hplain

theorem line_of_mem_tokensOf {t : Token} (h : t ∈ tokensOf ss) : t.line = 0 := by
  obtain ⟨s, -, htoken⟩ := exists_of_mem_tokensOf h
  have hsame := s.token?_relabel (fun _ => 0) 0
  rw [htoken] at hsame
  have heq : t = t.unlined := Option.some.inj (Except.ok.inj hsame)
  rw [heq]
  rfl

theorem Spelled.firstOn (h : Spelled signs ss) : Spelled (Sign.firstOn 0 signs) ss :=
  spells_firstOn.2 ⟨h, fun _ ht => line_of_mem_tokensOf (List.mem_of_mem_head? ht)⟩

end

namespace Node

theorem spelled_expr (a : Node) (ha : a.isExpr = true) (hl : a.Leaves Value.Readable Token.IsName)
    (indent : Int) : Spelled (a.relabel fun _ => 0).wrap.yield (a.pieces indent) := by
  match a, ha, hl with
  | literal v, _, hl =>
    have hliteral := spelled_nil.literal (show v.Readable from hl)
    simpa only [relabel, wrap, yield, pieces, List.append_nil] using hliteral
  | var x, _, hl =>
    simp only [relabel, wrap, yield, pieces]
    exact spelled_nil.name hl
  | unary op a line, ha, hl =>
    have ha' : a.isExpr = true := by simp_all [isExpr]
    simp only [relabel, wrap, yield, pieces]
    exact (spelled_expr a ha' hl 0).mark (by cases op <;> decide)
  | binary a op b line, ha, hl | logical a op b line, ha, hl =>
    have hparts : a.isExpr = true ∧ b.isExpr = true := by simp_all [isExpr]
    simp only [relabel, wrap, yield, pieces, List.append_assoc, List.cons_append]
    have hright := (spelled_expr b hparts.2 hl.2 0).append
      (spelled_nil.word (k := .rightParen) (by decide))
    have hmark := (hright.space.mark (k := op.kind) (by cases op <;> decide)).space
    exact ((spelled_expr a hparts.1 hl.1 0).append hmark).word (by decide)
  | grouping a, ha, hl =>
    simp only [relabel, wrap, yield, pieces]
    exact ((spelled_expr a ha hl 0).append (spelled_nil.word (by decide))).word (by decide)
  | assign x a, ha, hl =>
    simp only [relabel, wrap, yield, pieces]
    exact ((spelled_expr a ha hl.2 0).space.word (by decide)).space.name hl.1
  | varDecl _ _, ha, _ | exprStmt _ _, ha, _ | print _ _, ha, _ | ifElse _ _ _ _, ha, _
  | whileLoop _ _ _, ha, _ | block _ _, ha, _ | bare _, ha, _ => cases ha

/-- A word, a condition in parentheses, and what follows on the next line. -/
theorem spelled_condition {k : Kind} (hk : k ∈ Kind.marks ++ Kind.reserved) {c : Node}
    (hc : c.isExpr = true) (hl : c.Leaves Value.Readable Token.IsName) {signs : List Sign}
    {ss : List Segment} (h : Spelled signs ss) (indent : Int) :
    Spelled
      (.mark k 0 :: .word .leftParen ::
        ((c.relabel fun _ => 0).wrap.yield ++ .word .rightParen :: signs))
      (Segment.margin indent ++ k.segment :: Segment.space :: Kind.leftParen.segment ::
        (c.pieces 0 ++ Kind.rightParen.segment :: Segment.newline :: ss)) := by
  have hclose := h.newline.word (k := .rightParen) (by decide)
  have hopen := ((spelled_expr c hc hl 0).append hclose).word (k := .leftParen) (by decide)
  exact (hopen.space.mark hk).margin indent

mutual

theorem spelled_stmt (a : Node) (ha : a.isStmt = true) (hl : a.Leaves Value.Readable Token.IsName)
    (indent : Int) : Spelled (a.relabel fun _ => 0).wrap.yield (a.pieces indent) := by
  have hend := spelled_nil.word (k := .semicolon) (by decide)
  match a, ha, hl with
  | varDecl x none, _, hl =>
    simp only [relabel, wrap, yield, pieces]
    exact ((hend.name hl).space.word (by decide)).margin indent
  | varDecl x (some a), ha, hl =>
    simp only [relabel, wrap, yield, pieces]
    have hequal := (((spelled_expr a ha hl.2 0).append hend).space.word (k := .equal) (by decide))
    exact ((hequal.space.name hl.1).space.word (by decide)).margin indent
  | exprStmt a line, ha, hl =>
    simp only [relabel, wrap, yield, pieces]
    exact ((spelled_expr a ha hl 0).firstOn.append hend).margin indent
  | print a line, ha, hl =>
    simp only [relabel, wrap, yield, pieces]
    exact (((spelled_expr a ha hl 0).append hend).space.mark (by decide)).margin indent
  | ifElse c t none line, ha, hl =>
    have hparts : c.isExpr = true ∧ t.isStmt = true := by
      simpa [isStmt, isStmtOption] using ha
    simp only [relabel, wrap, yield, yieldElse, List.append_nil, pieces]
    exact spelled_condition (by decide) hparts.1 hl.1
      (spelled_stmt t hparts.2 hl.2 (indent + 1)) indent
  | ifElse c t (some e) line, ha, hl =>
    have hparts : (c.isExpr = true ∧ t.isStmt = true) ∧ e.isStmt = true := by
      simpa [isStmt, isStmtOption] using ha
    simp only [relabel, wrap, yield, yieldElse, pieces]
    have helse := ((spelled_stmt e hparts.2 hl.2.2 (indent + 1)).newline.word
      (k := .elseWord) (by decide)).margin indent
    exact spelled_condition (by decide) hparts.1.1 hl.1
      ((spelled_stmt t hparts.1.2 hl.2.1 (indent + 1)).append helse.newline) indent
  | whileLoop c t line, ha, hl =>
    have hparts : c.isExpr = true ∧ t.isStmt = true := by simpa [isStmt] using ha
    simp only [relabel, wrap, yield, pieces]
    exact spelled_condition (by decide) hparts.1 hl.1
      (spelled_stmt t hparts.2 hl.2 (indent + 1)) indent
  | block as line, ha, hl =>
    simp only [relabel, wrap, yield, pieces]
    have hclose := (spelled_nil.word (k := .rightBrace) (by decide)).margin indent
    have hbody := (spelled_all as ha hl (indent + 1)).append hclose
    exact (hbody.newline.mark (by decide)).margin indent
  | literal _, ha, _ | var _, ha, _ | unary _ _ _, ha, _ | binary _ _ _ _, ha, _
  | logical _ _ _ _, ha, _ | grouping _, ha, _ | assign _ _, ha, _ | bare _, ha, _ => cases ha

theorem spelled_all (as : List Node) (ha : areStmts as = true)
    (hl : AllLeaves Value.Readable Token.IsName as) (indent : Int) :
    Spelled (yieldAll (wrapAll (relabelAll (fun _ => 0) as))) (allPieces indent as) := by
  match as, ha, hl with
  | [], _, _ => exact spelled_nil
  | a :: as, ha, hl =>
    have hparts : a.isStmt = true ∧ areStmts as = true := by simpa [areStmts] using ha
    simp only [relabelAll, wrapAll, yieldAll, allPieces]
    exact (spelled_stmt a hparts.1 hl.1 indent).append
      (spelled_all as hparts.2 hl.2 indent).newline

end

/-- The pieces of a program fit what the wrapped program is written out as. -/
theorem spelled_rows {as : List Node} (ha : ∀ a ∈ as, a.isStmt = true)
    (hl : ∀ a ∈ as, a.Leaves Value.Readable Token.IsName) :
    Spelled (yieldAll (wrapAll (relabelAll (fun _ => 0) as))) (rows as) := by
  unfold rows
  induction as with
  | nil => exact spelled_nil
  | cons a as ih =>
    obtain ⟨hstmt, has⟩ := List.forall_mem_cons.1 ha
    obtain ⟨hleaves, hls⟩ := List.forall_mem_cons.1 hl
    have hfirst := spelled_stmt a hstmt hleaves 0
    simp only [relabelAll, wrapAll, yieldAll]
    cases as with
    | nil =>
      rw [List.map_singleton, List.intercalate_singleton]
      simpa only [relabelAll, wrapAll, yieldAll, List.append_nil] using hfirst
    | cons b bs =>
      rw [List.map_cons, List.map_cons, List.intercalate_cons_cons, List.append_assoc]
      exact hfirst.append (ih has hls).newline

end Node

end Lox
