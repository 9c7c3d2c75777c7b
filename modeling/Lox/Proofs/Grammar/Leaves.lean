import Lox.Proofs.Grammar.Shape

/-!
# Leaves of parsed trees

The names and values at the leaves of a tree come from its tokens: a name is an identifier, and a
value is `nil`, a truth value, or the literal of a number or string. `a.Leaves lit name` says that
all values at the leaves of `a` pass `lit` and all its names pass `name`; `parse_leaves` says so of
every accepted program, given that its tokens pass.
-/

set_option autoImplicit false

namespace Lox

namespace Node

variable (lit : Value → Prop) (name : Token → Prop)

mutual

/-- All values at the leaves of the tree pass `lit`, and all its names pass `name`. -/
def Leaves : Node → Prop
  | literal v | bare v => lit v
  | var x | varDecl x none => name x
  | unary _ a _ | grouping a | exprStmt a _ | print a _ => a.Leaves
  | binary a _ b _ | logical a _ b _ | whileLoop a b _ | ifElse a b none _ => a.Leaves ∧ b.Leaves
  | assign x a | varDecl x (some a) => name x ∧ a.Leaves
  | ifElse c t (some e) _ => c.Leaves ∧ t.Leaves ∧ e.Leaves
  | block as _ => AllLeaves as

def AllLeaves : List Node → Prop
  | [] => True
  | a :: as => a.Leaves ∧ AllLeaves as

end

variable {lit name}

theorem allLeaves_iff {as : List Node} :
    AllLeaves lit name as ↔ ∀ a ∈ as, a.Leaves lit name := by
  induction as with
  | nil => simp [AllLeaves]
  | cons a as ih => simp [AllLeaves, ih]

end Node

/-- What the tree keeps of the token passes. -/
structure Token.Supplies (lit : Value → Prop) (name : Token → Prop) (t : Token) : Prop where
  literal : t.kind = .number ∨ t.kind = .string → lit t.literal
  ident : t.kind = .identifier → name t

theorem Token.Supplies.of_eof {lit : Value → Prop} {name : Token → Prop} {t : Token}
    (h : t.kind = .eof) : t.Supplies lit name := by
  constructor <;> simp [h]

theorem Cursor.mem_close {tokens : List Token} {t : Token} (h : t ∈ close tokens) :
    t ∈ tokens ∨ t.kind = .eof := by
  unfold close at h
  split at h
  · rw [List.mem_singleton.1 h]
    exact .inr rfl
  · split at h
    · exact .inl h
    · rcases List.mem_append.1 h with h | h
      · exact .inl h
      · rw [List.mem_singleton.1 h]
        exact .inr rfl

section
variable {lit : Value → Prop} {name : Token → Prop}

theorem Level.leaves_join (l : Level) {a b : Node} (ha : a.Leaves lit name)
    (hb : b.Leaves lit name) (op : Op) (line : Int) : (l.join a op b line).Leaves lit name := by
  cases l <;> exact ⟨ha, hb⟩

variable (hnil : lit .nil) (hbool : ∀ b, lit (.bool b))
include hnil hbool

theorem Derives.leaves {n : Nat} {r : Rule} {ts : List Token} {a : Node}
    (h : Derives False n r ts a) (hts : ∀ t ∈ ts, t.Supplies lit name) : a.Leaves lit name := by
  induction h with
  | declared _ ih | stated _ ih | form _ _ ih | expr _ ih | or _ ih | operand _ ih
  | primary _ ih => exact ih hts
  | varNil _ hx _ => exact (hts _ (by simp)).ident hx
  | varInit _ hx _ _ _ ih =>
    simp only [List.forall_mem_cons, List.forall_mem_append] at hts
    obtain ⟨-, hname, -, ha, -⟩ := hts
    exact ⟨hname.ident hx, ih ha⟩
  | block _ _ _ ih =>
    simp only [List.forall_mem_cons, List.forall_mem_append] at hts
    obtain ⟨-, hall, -⟩ := hts
    refine Node.allLeaves_iff.2 fun b hb => ?_
    obtain ⟨p, hp, rfl⟩ := List.mem_map.1 hb
    exact ih p hp fun t ht => hall t (List.mem_flatMap.2 ⟨p, hp, ht⟩)
  | print _ _ _ ih | grouping _ _ _ ih =>
    simp only [List.forall_mem_cons, List.forall_mem_append] at hts
    exact ih hts.2.1
  | ifThen _ _ _ _ _ ihc iht | whileLoop _ _ _ _ _ ihc iht =>
    simp only [List.forall_mem_cons, List.forall_mem_append] at hts
    obtain ⟨-, -, hc, -, ht⟩ := hts
    exact ⟨ihc hc, iht ht⟩
  | ifElse _ _ _ _ _ _ _ _ ihc iht ihe =>
    simp only [List.forall_mem_cons, List.forall_mem_append] at hts
    obtain ⟨-, -, hc, -, ht, -, he⟩ := hts
    exact ⟨ihc hc, iht ht, ihe he⟩
  | exprStmt _ _ ih => exact ih fun t ht => hts t (List.mem_append_left _ ht)
  | assign _ hx _ _ iht ih =>
    simp only [List.forall_mem_cons, List.forall_mem_append] at hts
    obtain ⟨x, rfl⟩ := hx.resolve_left id
    exact ⟨iht hts.1, ih hts.2.2⟩
  | join _ _ _ iha ihb =>
    simp only [List.forall_mem_cons, List.forall_mem_append] at hts
    exact Level.leaves_join _ (iha hts.1) (ihb hts.2.2) _ _
  | unary _ _ ih => exact ih fun t ht => hts t (List.mem_cons_of_mem _ ht)
  | literal h => exact (hts _ (List.mem_singleton_self _)).literal h
  | truth | falsity => exact hbool _
  | nil => exact hnil
  | var h => exact (hts _ (List.mem_singleton_self _)).ident h

/-- The leaves of an accepted program pass if the tokens do. -/
theorem parse_leaves {tokens : List Token} {program : List Node}
    (h : parse tokens = .ok program) (hts : ∀ t ∈ tokens, t.Supplies lit name) :
    ∀ a ∈ program, a.Leaves lit name := by
  obtain ⟨pieces, rest, rfl, hclose, hd⟩ := exists_pieces_of_parse h
  intro a ha
  obtain ⟨p, hp, rfl⟩ := List.mem_map.1 ha
  refine (hd p hp).leaves hnil hbool fun t ht => ?_
  have hmem : t ∈ Cursor.close tokens := by
    rw [hclose]
    exact List.mem_append_left _ (List.mem_flatMap.2 ⟨p, hp, ht⟩)
  rcases Cursor.mem_close hmem with hold | hend
  · exact hts t hold
  · exact .of_eof hend

end

end Lox
