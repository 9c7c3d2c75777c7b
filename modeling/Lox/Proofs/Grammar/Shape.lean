import Lox.Proofs.Grammar.Completeness
import Lox.Syntax.WellFormed

/-!
# The shape of parsed trees

Trees that have a derivation are well formed, and a declaration stands in them only where it runs
whenever what is around it runs: in the program itself or in a block, never as a branch or as the
body of a loop (`Node.sheltered`). `parse_shape` says so of every program that the parser accepts,
and `Node.Parsed.shape` of every statement that one of its rules makes (`Node.Parsed`).
-/

set_option autoImplicit false

namespace Lox

namespace Node

def isDecl : Node → Bool
  | varDecl _ _ => true
  | _ => false

mutual

/-- Whether no branch and no body of a loop is a declaration. -/
def sheltered : Node → Bool
  | ifElse _ t e _ => !t.isDecl && t.sheltered && shelteredElse e
  | whileLoop _ t _ => !t.isDecl && t.sheltered
  | block as _ => allSheltered as
  | _ => true

def shelteredElse : Option Node → Bool
  | none => true
  | some e => !e.isDecl && e.sheltered

def allSheltered : List Node → Bool
  | [] => true
  | a :: as => a.sheltered && allSheltered as

end

theorem areStmts_iff {as : List Node} : areStmts as = true ↔ ∀ a ∈ as, a.isStmt = true := by
  induction as with
  | nil => simp [areStmts]
  | cons a as ih => simp [areStmts, ih]

theorem allSheltered_iff {as : List Node} :
    allSheltered as = true ↔ ∀ a ∈ as, a.sheltered = true := by
  induction as with
  | nil => simp [allSheltered]
  | cons a as ih => simp [allSheltered, ih]

end Node

theorem Level.isExpr_join {l : Level} {k : Kind} {op : Op} (h : l.op? k = some op) {a b : Node}
    (ha : a.isExpr = true) (hb : b.isExpr = true) (line : Int) :
    (l.join a op b line).isExpr = true := by
  have hop : (l.join a op b line).isExpr = (a.isExpr && true && b.isExpr) := by
    cases l <;> cases k <;> cases h <;> rfl
  simp [hop, ha, hb]

namespace Derives

variable {n : Nat} {r : Rule} {ts : List Token} {a : Node}

theorem isExpr_tree (h : Derives False n r ts a) (hr : r.isExpr = true) : a.isExpr = true := by
  induction h with
  | expr _ ih | or _ ih | primary _ ih => exact ih rfl
  | operand _ ih => exact ih (Level.isExpr_operand _)
  | assign _ hx _ _ _ ih =>
    obtain ⟨x, rfl⟩ := hx.resolve_left id
    exact ih rfl
  | join _ hm _ iha ihb => exact Level.isExpr_join hm (iha rfl) (ihb (Level.isExpr_operand _)) _
  | unary hm _ ih => simp [Node.isExpr, Op.isUnary_of_ofUnary? hm, ih rfl]
  | literal | truth | falsity | nil | var => rfl
  | grouping _ _ _ ih => exact ih rfl
  | _ => cases hr

theorem isDecl_eq_false (h : Derives False n .statement ts a) : a.isDecl = false := by
  cases h with
  | form hr h =>
    simp only [Rule.forms, List.mem_cons, List.not_mem_nil, or_false] at hr
    rcases hr with rfl | rfl | rfl | rfl | rfl <;> cases h <;> rfl

theorem isStmt_tree (h : Derives False n r ts a) (hr : r.isExpr = false) : a.isStmt = true := by
  induction h with
  | declared _ ih | stated _ ih => exact ih rfl
  | form hr' _ ih =>
    simp only [Rule.forms, List.mem_cons, List.not_mem_nil, or_false] at hr'
    rcases hr' with rfl | rfl | rfl | rfl | rfl <;> exact ih rfl
  | varNil => rfl
  | varInit _ _ _ h | print _ h | exprStmt h => exact h.isExpr_tree rfl
  | block _ _ _ ih =>
    refine Node.areStmts_iff.2 fun b hb => ?_
    obtain ⟨p, hp, rfl⟩ := List.mem_map.1 hb
    exact ih p hp rfl
  | ifThen _ _ hc _ _ _ iht =>
    simp [Node.isStmt, Node.isStmtOption, hc.isExpr_tree rfl, iht rfl]
  | ifElse _ _ hc _ _ _ _ _ _ iht ihe =>
    simp [Node.isStmt, Node.isStmtOption, hc.isExpr_tree rfl, iht rfl, ihe rfl]
  | whileLoop _ _ hc _ _ _ iht => simp [Node.isStmt, hc.isExpr_tree rfl, iht rfl]
  | _ => cases hr

theorem sheltered_tree (h : Derives False n r ts a) (hr : r.isExpr = false) :
    a.sheltered = true := by
  induction h with
  | declared _ ih | stated _ ih => exact ih rfl
  | form hr' _ ih =>
    simp only [Rule.forms, List.mem_cons, List.not_mem_nil, or_false] at hr'
    rcases hr' with rfl | rfl | rfl | rfl | rfl <;> exact ih rfl
  | varNil | varInit | print | exprStmt => rfl
  | block _ _ _ ih =>
    refine Node.allSheltered_iff.2 fun b hb => ?_
    obtain ⟨p, hp, rfl⟩ := List.mem_map.1 hb
    exact ih p hp rfl
  | ifThen _ _ _ _ ht _ iht =>
    simp [Node.sheltered, Node.shelteredElse, ht.isDecl_eq_false, iht rfl]
  | ifElse _ _ _ _ ht _ _ he _ iht ihe =>
    simp [Node.sheltered, Node.shelteredElse, ht.isDecl_eq_false, iht rfl, he.isDecl_eq_false,
      ihe rfl]
  | whileLoop _ _ _ _ ht _ iht => simp [Node.sheltered, ht.isDecl_eq_false, iht rfl]
  | _ => cases hr

end Derives

/-- The statements that the parser makes, alone or inside others: what a rule of statements gives,
from wherever the cursor stands. -/
def Node.Parsed (a : Node) : Prop :=
  ∃ (levels : Nat) (r : Rule) (c d : Cursor),
    r.isExpr = false ∧ c.Closed ∧ Parse.rule levels r c = .ok a d

theorem Node.Parsed.shape {a : Node} (h : a.Parsed) : a.isStmt = true ∧ a.sheltered = true := by
  obtain ⟨levels, r, c, d, hr, hc, hrule⟩ := h
  obtain ⟨ts, -, hd, -⟩ := Parse.rule_sound hc hrule
  exact ⟨hd.isStmt_tree hr, hd.sheltered_tree hr⟩

/-- The trees of an accepted program are derived one by one from tokens at the start of the source. -/
theorem exists_pieces_of_parse {tokens : List Token} {program : List Node}
    (h : parse tokens = .ok program) :
    ∃ (pieces : List (List Token × Node)) (rest : List Token), program = pieces.map (·.2) ∧
      Cursor.close tokens = pieces.flatMap (·.1) ++ rest ∧
      ∀ p ∈ pieces, Derives False Parse.limit .declaration p.1 p.2 := by
  unfold parse parseWithin at h
  cases hr : Parse.program Parse.limit (Cursor.start tokens) with
  | error f d =>
    rw [hr] at h
    cases f <;> cases h
  | ok as d =>
    rw [hr] at h
    cases h
    obtain ⟨pieces, rfl, hd, hp, -⟩ := Parse.program_sound (Cursor.closed_start tokens) hr
    have hahead := hp.ahead
    rw [Cursor.ahead_start] at hahead
    exact ⟨pieces, d.ahead, rfl, hahead, hd⟩

/-- The trees of an accepted program are well formed, and no declaration in them is a branch or the
body of a loop. -/
theorem parse_shape {tokens : List Token} {program : List Node} (h : parse tokens = .ok program) :
    ∀ a ∈ program, a.isStmt = true ∧ a.sheltered = true := by
  obtain ⟨pieces, rest, rfl, -, hd⟩ := exists_pieces_of_parse h
  intro a ha
  obtain ⟨p, hp, rfl⟩ := List.mem_map.1 ha
  exact ⟨(hd p hp).isStmt_tree rfl, (hd p hp).sheltered_tree rfl⟩

end Lox
