import Lox.Proofs.Grammar.Shape
import Lox.Proofs.Grammar.Yield
import Lox.Syntax.Render
import Lox.Token.Scan

/-!
# The pieces of rendered trees

Rendering stops at trees that are nested too deeply, or that have a value in the place of a node.
`Node.pieces` lists what a tree is rendered as, segment by segment, whatever its depth, and
`Node.height` counts its levels, of which a block takes two. `render_eq`: a well-formed tree is
rendered as its pieces whenever it has no more levels than allowed, and this is the only way in
which rendering it fails.
-/

set_option autoImplicit false

namespace Lox

/-- The characters of segments in a row. -/
def textOf (ss : List Segment) : List Char := ss.flatMap (·.text)

@[simp] theorem textOf_nil : textOf [] = [] := rfl

@[simp] theorem textOf_cons (s : Segment) (ss : List Segment) :
    textOf (s :: ss) = s.text ++ textOf ss := rfl

@[simp] theorem textOf_append (ss ss' : List Segment) :
    textOf (ss ++ ss') = textOf ss ++ textOf ss' := List.flatMap_append

/-! ## Pieces -/

/-- The mark or reserved word of a kind. -/
def Kind.segment (k : Kind) : Segment :=
  ⟨if k ∈ marks then .mark else .word, k.spelling.toList⟩

@[simp] theorem Kind.text_segment (k : Kind) : k.segment.text = k.spelling.toList := rfl

namespace Segment

def space : Segment := ⟨.blank, [' ']⟩

def newline : Segment := ⟨.newline, ['\n']⟩

def name (x : Token) : Segment := ⟨.word, x.lexeme.toList⟩

@[simp] theorem text_space : space.text = [' '] := rfl

@[simp] theorem text_newline : newline.text = ['\n'] := rfl

@[simp] theorem text_name (x : Token) : (name x).text = x.lexeme.toList := rfl

/-- The blanks in front of a statement, if there are any. -/
def margin (indent : Int) : List Segment :=
  if 0 < indent then [⟨.blank, List.replicate (4 * indent.toNat) ' '⟩] else []

end Segment

@[simp] theorem textOf_margin (indent : Int) :
    textOf (Segment.margin indent) = (Node.pad indent).toList := by
  unfold Segment.margin Node.pad
  split
  · simp
  · have : indent.toNat = 0 := by omega
    simp [this]

/-- The segment of a literal. -/
def Value.segment : Value → Segment
  | num x => ⟨.number, (Number.text x).toList⟩
  | str s => ⟨.string, '"' :: (s.toList ++ ['"'])⟩
  | v => ⟨.word, v.text.toList⟩

@[simp] theorem Value.text_segment (v : Value) : v.segment.text = v.literal.toList := by
  cases v with
  | str s => simp [segment, literal]
  | _ => rfl

theorem Op.symbol_eq (op : Op) : op.symbol = op.kind.spelling := by cases op <;> rfl

namespace Node

open Segment (space newline name margin)

mutual

/-- What a tree is rendered as at a level of indentation, segment by segment. -/
def pieces (indent : Int) : Node → List Segment
  | literal v | bare v => [v.segment]
  | var x => [name x]
  | unary op a _ => op.kind.segment :: a.pieces 0
  | binary a op b _ | logical a op b _ =>
    Kind.leftParen.segment :: (a.pieces 0 ++ space :: op.kind.segment :: space ::
      (b.pieces 0 ++ [Kind.rightParen.segment]))
  | grouping a => Kind.leftParen.segment :: (a.pieces 0 ++ [Kind.rightParen.segment])
  | assign x a => name x :: space :: Kind.equal.segment :: space :: a.pieces 0
  | varDecl x none =>
    margin indent ++ [Kind.varWord.segment, space, name x, Kind.semicolon.segment]
  | varDecl x (some a) =>
    margin indent ++ Kind.varWord.segment :: space :: name x :: space :: Kind.equal.segment ::
      space :: (a.pieces 0 ++ [Kind.semicolon.segment])
  | exprStmt a _ => margin indent ++ (a.pieces 0 ++ [Kind.semicolon.segment])
  | print a _ =>
    margin indent ++ Kind.printWord.segment :: space :: (a.pieces 0 ++ [Kind.semicolon.segment])
  | ifElse c t none _ =>
    margin indent ++ Kind.ifWord.segment :: space :: Kind.leftParen.segment ::
      (c.pieces 0 ++ Kind.rightParen.segment :: newline :: t.pieces (indent + 1))
  | ifElse c t (some e) _ =>
    margin indent ++ Kind.ifWord.segment :: space :: Kind.leftParen.segment ::
      (c.pieces 0 ++ Kind.rightParen.segment :: newline :: (t.pieces (indent + 1) ++
        newline :: (margin indent ++ Kind.elseWord.segment :: newline :: e.pieces (indent + 1))))
  | whileLoop c t _ =>
    margin indent ++ Kind.whileWord.segment :: space :: Kind.leftParen.segment ::
      (c.pieces 0 ++ Kind.rightParen.segment :: newline :: t.pieces (indent + 1))
  | block as _ =>
    margin indent ++ Kind.leftBrace.segment :: newline ::
      (allPieces (indent + 1) as ++ (margin indent ++ [Kind.rightBrace.segment]))

/-- Statements, each with a line feed after it. -/
def allPieces (indent : Int) : List Node → List Segment
  | [] => []
  | a :: as => a.pieces indent ++ newline :: allPieces indent as

end

/-- The text of the pieces. -/
def written (indent : Int) (a : Node) : String := String.ofList (textOf (a.pieces indent))

@[simp] theorem toList_written (indent : Int) (a : Node) :
    (a.written indent).toList = textOf (a.pieces indent) := String.toList_ofList

theorem eq_written {indent : Int} {a : Node} {text : String}
    (h : text.toList = textOf (a.pieces indent)) : text = a.written indent :=
  String.toList_injective (h.trans (toList_written indent a).symm)

mutual

/-- The number of levels of a tree. -/
def height : Node → Nat
  | literal _ | var _ | varDecl _ none | bare _ => 1
  | unary _ a _ | grouping a | assign _ a | varDecl _ (some a) | exprStmt a _ | print a _ =>
    a.height + 1
  | binary a _ b _ | logical a _ b _ | whileLoop a b _ | ifElse a b none _ =>
    max a.height b.height + 1
  | ifElse c t (some e) _ => max c.height (max t.height e.height) + 1
  | block as _ => heightAll as + 2

def heightAll : List Node → Nat
  | [] => 0
  | a :: as => max a.height (heightAll as)

end

/-! ## Rendering -/

/-- The result of work that takes `n` levels. -/
def within {α : Type} (n levels : Nat) (a : α) : Except RenderFault α :=
  if n ≤ levels then .ok a else .error .tooDeep

section
variable {α β : Type} (n m levels : Nat) (a : α)

theorem within_succ : within (n + 1) (levels + 1) a = within n levels a := by
  unfold within
  simp only [Nat.add_le_add_iff_right]

theorem within_map (f : α → β) : (within n levels a >>= fun x => pure (f x)) =
    within n levels (f a) := by
  unfold within
  split <;> rfl

theorem within_bind (f : α → β) : (within n levels a >>= fun x => within m levels (f x)) =
    within (max n m) levels (f a) := by
  unfold within
  by_cases hn : n ≤ levels
  · simp only [Nat.max_le, hn, true_and]
    rfl
  · simp only [Nat.max_le, hn, false_and, if_false]
    rfl

end

theorem mapM_within {α β : Type} {f : α → Except RenderFault β} {g : α → β} {n : α → Nat}
    {levels : Nat} {as : List α} (h : ∀ a ∈ as, f a = within (n a) levels (g a)) :
    as.mapM f = within (as.foldr (fun a m => max (n a) m) 0) levels (as.map g) := by
  induction as with
  | nil => rfl
  | cons a as ih =>
    obtain ⟨ha, has⟩ := List.forall_mem_cons.1 h
    rw [List.mapM_cons, ha, ih has]
    simp only [within_map, within_bind]
    rfl

theorem heightAll_eq (as : List Node) :
    heightAll as = as.foldr (fun a m => max a.height m) 0 := by
  induction as with
  | nil => rfl
  | cons a as ih => rw [heightAll, ih, List.foldr_cons]

/-- Statements line by line, between a first line and a last one. -/
theorem intercalate_lines (indent : Int) (as : List Node) (first last : List Char) :
    ['\n'].intercalate (first :: (as.map (fun a => textOf (a.pieces indent)) ++ [last])) =
      first ++ '\n' :: (textOf (allPieces indent as) ++ last) := by
  induction as generalizing first with
  | nil => simp [allPieces]
  | cons a as ih =>
    rw [List.map_cons, List.cons_append, List.intercalate_cons_cons, ih]
    simp [allPieces]

mutual

/-- Well-formed trees are rendered as their pieces, unless they have too many levels. -/
theorem render_eq (levels : Nat) (indent : Int) {a : Node}
    (h : a.isExpr = true ∨ a.isStmt = true) :
    a.render levels indent = within a.height levels (a.written indent) := by
  match levels with
  | 0 =>
    have hpos : ¬ a.height ≤ 0 := by
      cases a with
      | varDecl x e => cases e <;> simp [height]
      | ifElse c t e => cases e <;> simp [height]
      | _ => simp [height]
    unfold render
    exact (if_neg hpos).symm
  | levels + 1 =>
    have ih := @render_eq levels
    cases a with
    | literal | var =>
      simp only [render, height, within_succ]
      exact congrArg _ (eq_written (by simp [pieces]))
    | unary op a line =>
      have ha : a.isExpr = true := by simp_all [isExpr, isStmt]
      simp only [render, height, ih 0 (.inl ha), within_map, within_succ]
      exact congrArg _ (eq_written (by simp [pieces, Op.symbol_eq]))
    | binary a op b line | logical a op b line =>
      have hab : a.isExpr = true ∧ b.isExpr = true := by simp_all [isExpr, isStmt]
      simp only [render, height, ih 0 (.inl hab.1), ih 0 (.inl hab.2), within_map, within_bind,
        within_succ]
      exact congrArg _ (eq_written (by simp [pieces, Op.symbol_eq, Kind.spelling]))
    | grouping a | assign _ a | exprStmt a | print a =>
      have ha : a.isExpr = true := by simp_all [isExpr, isStmt]
      simp only [render, height, ih 0 (.inl ha), within_map, within_succ]
      exact congrArg _ (eq_written (by simp [pieces, Kind.spelling]))
    | varDecl x e =>
      cases e with
      | none =>
        simp only [render, height, within_succ]
        exact congrArg _ (eq_written (by simp [pieces, Kind.spelling]))
      | some a =>
        have ha : a.isExpr = true := by simp_all [isExpr, isStmt]
        simp only [render, height, ih 0 (.inl ha), within_map, within_succ]
        exact congrArg _ (eq_written (by simp [pieces, Kind.spelling]))
    | ifElse c t e line =>
      cases e with
      | none =>
        have hct : c.isExpr = true ∧ t.isStmt = true := by
          simp_all [isExpr, isStmt, isStmtOption]
        simp only [render, height, ih 0 (.inl hct.1), ih (indent + 1) (.inr hct.2), within_map,
          within_bind, within_succ]
        exact congrArg _ (eq_written (by simp [pieces, Kind.spelling]))
      | some e =>
        have hcte : (c.isExpr = true ∧ t.isStmt = true) ∧ e.isStmt = true := by
          simp_all [isExpr, isStmt, isStmtOption]
        simp only [render, height, ih 0 (.inl hcte.1.1), ih (indent + 1) (.inr hcte.1.2),
          ih (indent + 1) (.inr hcte.2), within_map, within_bind, within_succ]
        exact congrArg _ (eq_written (by simp [pieces, Kind.spelling]))
    | whileLoop c t line =>
      have hct : c.isExpr = true ∧ t.isStmt = true := by simp_all [isExpr, isStmt]
      simp only [render, height, ih 0 (.inl hct.1), ih (indent + 1) (.inr hct.2), within_map,
        within_bind, within_succ]
      exact congrArg _ (eq_written (by simp [pieces, Kind.spelling]))
    | block as line =>
      have has : ∀ b ∈ as, b.isStmt = true := areStmts_iff.1 (by simpa [isExpr, isStmt] using h)
      simp only [render, height, renderEach_eq levels (indent + 1) has, within_map, within_succ]
      refine congrArg _ (eq_written ?_)
      have hlines := intercalate_lines (indent + 1) as [] ((Node.pad indent).toList ++ ['\x7d'])
      simpa [pieces, Kind.spelling, Function.comp_def] using hlines
    | bare v => simp [isExpr, isStmt] at h

/-- The statements of a block are rendered one by one, one level further down. -/
theorem renderEach_eq (levels : Nat) (indent : Int) {as : List Node}
    (h : ∀ a ∈ as, a.isStmt = true) :
    renderEach levels indent as = within (heightAll as + 1) levels (as.map (written indent)) := by
  match levels with
  | 0 =>
    unfold renderEach
    exact (if_neg (by omega)).symm
  | levels + 1 =>
    unfold renderEach
    rw [within_succ, heightAll_eq]
    exact mapM_within fun a ha => render_eq levels indent (.inr (h a ha))

end

end Node

end Lox
