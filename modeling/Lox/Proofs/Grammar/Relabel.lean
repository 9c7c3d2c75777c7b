import Lox.Proofs.Grammar.Program
import Lox.Proofs.Token.Breaks

/-!
# Lines in trees, and programs one after the other

The grammar does not look at lines: tokens with other lines have the same trees, with the lines
changed in the same way (`Derives.relabel`, `parseWithin_relabel`).

`parseWithin_sequence`: after the tokens of a program come those of another one, unless they start
with an `else`; the two are parsed as if each stood alone. `parse_sequence` says so of the statements
and the errors.
-/

set_option autoImplicit false

namespace Lox

namespace Node

variable (f : Int → Int)

mutual

/-- The tree with its lines changed. -/
def relabel : Node → Node
  | literal v => literal v
  | var x => var (x.relabel f)
  | unary op a line => unary op a.relabel (f line)
  | binary a op b line => binary a.relabel op b.relabel (f line)
  | logical a op b line => logical a.relabel op b.relabel (f line)
  | grouping a => grouping a.relabel
  | assign x a => assign (x.relabel f) a.relabel
  | varDecl x none => varDecl (x.relabel f) none
  | varDecl x (some a) => varDecl (x.relabel f) (some a.relabel)
  | exprStmt a line => exprStmt a.relabel (f line)
  | print a line => print a.relabel (f line)
  | ifElse c t none line => ifElse c.relabel t.relabel none (f line)
  | ifElse c t (some e) line => ifElse c.relabel t.relabel (some e.relabel) (f line)
  | whileLoop c t line => whileLoop c.relabel t.relabel (f line)
  | block as line => block (relabelAll as) (f line)
  | bare v => bare v

def relabelAll : List Node → List Node
  | [] => []
  | a :: as => a.relabel :: relabelAll as

end

theorem relabelAll_eq_map (as : List Node) : relabelAll f as = as.map (relabel f) := by
  induction as with
  | nil => rfl
  | cons a as ih => rw [relabelAll, ih, List.map_cons]

mutual

theorem relabel_id (a : Node) : a.relabel id = a := by
  match a with
  | literal _ | var _ | bare _ | varDecl _ none => simp [relabel, Token.relabel]
  | unary _ a _ | grouping a | assign _ a | varDecl _ (some a) | exprStmt a _ | print a _ =>
    simp [relabel, Token.relabel, a.relabel_id]
  | binary a _ b _ | logical a _ b _ | whileLoop a b _ | ifElse a b none _ =>
    simp [relabel, a.relabel_id, b.relabel_id]
  | ifElse c t (some e) _ => simp [relabel, c.relabel_id, t.relabel_id, e.relabel_id]
  | block as _ => simp [relabel, relabelAll_id as]

theorem relabelAll_id (as : List Node) : relabelAll id as = as := by
  match as with
  | [] => rfl
  | a :: as => simp [relabelAll, a.relabel_id, relabelAll_id as]

end

theorem map_relabel_id (as : List Node) : as.map (relabel id) = as :=
  (relabelAll_eq_map id as).symm.trans (relabelAll_id as)

theorem dangles_relabel (a : Node) : (a.relabel f).dangles = a.dangles := by
  match a with
  | ifElse _ _ none _ => simp [relabel, dangles]
  | ifElse _ _ (some e) _ => simpa [relabel, dangles] using e.dangles_relabel
  | whileLoop _ t _ => simpa [relabel, dangles] using t.dangles_relabel
  | varDecl _ none | varDecl _ (some _) | literal _ | var _ | unary _ _ _ | binary _ _ _ _
  | logical _ _ _ _ | grouping _ | assign _ _ | exprStmt _ _ | print _ _ | block _ _ | bare _ =>
    simp [relabel, dangles]

theorem relabel_assignTo (t a : Node) :
    (t.assignTo a).relabel f = (t.relabel f).assignTo (a.relabel f) := by
  match t with
  | var _ => simp [relabel, assignTo]
  | ifElse _ _ none _ | ifElse _ _ (some _) _ | varDecl _ none | varDecl _ (some _) | literal _
  | unary _ _ _ | binary _ _ _ _ | logical _ _ _ _ | grouping _ | assign _ _ | exprStmt _ _
  | print _ _ | whileLoop _ _ _ | block _ _ | bare _ => simp [relabel, assignTo]

end Node

theorem Level.relabel_join (f : Int → Int) (l : Level) (a b : Node) (op : Op) (line : Int) :
    (l.join a op b line).relabel f = l.join (a.relabel f) op (b.relabel f) (f line) := by
  cases l <;> simp [join, Node.relabel]

/-- Tokens with other lines have the same tree with the lines changed. -/
theorem Derives.relabel {lax : Prop} {n : Nat} {r : Rule} {ts : List Token} {a : Node}
    (f : Int → Int) (h : Derives lax n r ts a) :
    Derives lax n r (ts.map (Token.relabel f)) (a.relabel f) := by
  induction h with
  | declared _ ih => exact .declared ih
  | stated _ ih => exact .stated ih
  | varNil hv hx hs =>
    simp only [Node.relabel]
    exact .varNil hv hx hs
  | varInit hv hx hq _ hs ih =>
    simp only [List.map_cons, List.map_append, Node.relabel]
    exact .varInit hv hx hq ih hs
  | form hr _ ih => exact .form hr ih
  | @block n l r pieces hl _ hr ih =>
    simp only [List.map_cons, List.map_append, Node.relabel, Node.relabelAll_eq_map]
    have hpieces : ∀ p ∈ pieces.map fun p => (p.1.map (Token.relabel f), p.2.relabel f),
        Derives lax n .declaration p.1 p.2 := by
      intro p hp
      obtain ⟨q, hq, rfl⟩ := List.mem_map.1 hp
      exact ih q hq
    have h := Derives.block (l := l.relabel f) (r := r.relabel f) hl hpieces hr
    rw [List.flatMap_map, List.map_map] at h
    rw [List.map_flatMap, List.map_map]
    exact h
  | print hp _ hs ih =>
    simp only [List.map_cons, List.map_append, Node.relabel]
    exact .print hp ih hs
  | ifThen hi hl _ hr _ ihc iht =>
    simp only [List.map_cons, List.map_append, Node.relabel]
    exact .ifThen hi hl ihc hr iht
  | ifElse hi hl _ hr _ hd hw _ ihc iht ihe =>
    simp only [List.map_cons, List.map_append, Node.relabel]
    exact .ifElse hi hl ihc hr iht (by rwa [Node.dangles_relabel]) hw ihe
  | whileLoop hw hl _ hr _ ihc iht =>
    simp only [List.map_cons, List.map_append, Node.relabel]
    exact .whileLoop hw hl ihc hr iht
  | exprStmt _ hs ih =>
    simp only [List.map_cons, List.map_append, Node.relabel] at ih ⊢
    exact .exprStmt ih hs
  | expr _ ih => exact .expr ih
  | or _ ih => exact .or ih
  | assign _ hx hq _ iht ih =>
    simp only [List.map_cons, List.map_append, Node.relabel_assignTo]
    refine .assign iht (hx.imp_right ?_) hq ih
    rintro ⟨x, rfl⟩
    exact ⟨x.relabel f, by rw [Node.relabel]⟩
  | operand _ ih => exact .operand ih
  | join _ hm _ iha ihb =>
    simp only [List.map_cons, List.map_append, Level.relabel_join]
    exact .join iha hm ihb
  | unary hm _ ih =>
    simp only [List.map_cons, Node.relabel]
    exact .unary hm ih
  | primary _ ih => exact .primary ih
  | literal h =>
    simp only [Node.relabel]
    exact .literal h
  | truth h =>
    simp only [Node.relabel]
    exact .truth h
  | falsity h =>
    simp only [Node.relabel]
    exact .falsity h
  | nil h =>
    simp only [Node.relabel]
    exact .nil h
  | var h =>
    simp only [Node.relabel]
    exact .var h
  | grouping hl _ hr ih =>
    simp only [List.map_cons, List.map_append, Node.relabel]
    exact .grouping hl ih hr

open Cursor Parse

section
variable {n : Nat} {ts us : List Token} {e e' : Token} {as : List Node} (hts : NoEof ts)
  (he : e.kind = .eof) (he' : e'.kind = .eof)
include hts he he'

theorem parseWithin_relabel (f : Int → Int) (h : parseWithin n (ts ++ [e]) = .ok as) :
    parseWithin n (ts.map (Token.relabel f) ++ [e']) = .ok (as.map (Node.relabel f)) := by
  obtain ⟨pieces, rfl, rfl, hd⟩ := (parseWithin_ok_iff hts he).1 h
  have hts' : NoEof ((pieces.flatMap (·.1)).map (Token.relabel f)) := by
    intro t ht
    obtain ⟨u, hu, rfl⟩ := List.mem_map.1 ht
    exact hts u hu
  refine (parseWithin_ok_iff hts' he').2
    ⟨pieces.map fun p => (p.1.map (Token.relabel f), p.2.relabel f), ?_, ?_, fun p hp => ?_⟩
  · rw [List.map_map, List.map_map]
    rfl
  · rw [List.map_flatMap, List.flatMap_map]
  · obtain ⟨q, hq, rfl⟩ := List.mem_map.1 hp
    exact (hd q hq).relabel f

/-- A program and what follows it are parsed as if each stood alone, unless an `else` follows. -/
theorem parseWithin_sequence (h : parseWithin n (ts ++ [e]) = .ok as)
    (helse : ∀ t ∈ us.head?, t.kind ≠ .elseWord) :
    parseWithin n (ts ++ us ++ [e']) = (parseWithin n (us ++ [e'])).map (as ++ ·) := by
  obtain ⟨pieces, rfl, rfl, hd⟩ := (parseWithin_ok_iff hts he).1 h
  have hend : (⟨e', []⟩ : Cursor).Closed := ⟨e', List.mem_cons_self, he'⟩
  have hnext : (prepend us ⟨e', []⟩).current.kind ≠ .elseWord := by
    cases us with
    | nil =>
      show e'.kind ≠ .elseWord
      rw [he']
      decide
    | cons t us => exact helse t rfl
  rw [parseWithin_append he', parseWithin_append he', prepend_append]
  rcases program_append hd (passes_prepend hts (prepend us ⟨e', []⟩)) (closed_prepend us hend) hnext
    with hlead | hlax
  · rw [hlead, bind_eq]
    cases program n (prepend us ⟨e', []⟩) with
    | ok more d => rfl
    | error f d => cases f <;> rfl
  · exact hlax.1.elim

end

/-- After the tokens of a program the parser reads whatever follows as it would read it alone, unless
that starts with an `else`: the statements are those of the program and then those of the rest, and
an error of the rest is an error of the whole, with the same fault at the same token. -/
theorem parse_sequence {a b : List Token} {e e' : Token} {as : List Node} (ha : NoEof a)
    (he : e.kind = .eof) (he' : e'.kind = .eof) (helse : ∀ t ∈ b.head?, t.kind ≠ .elseWord)
    (h : parse (a ++ [e]) = .ok as) :
    (∀ bs, parse (b ++ [e']) = .ok bs → parse (a ++ b ++ [e']) = .ok (as ++ bs)) ∧
      ∀ err, parse (b ++ [e']) = .error err → parse (a ++ b ++ [e']) = .error err := by
  have hseq : parse (a ++ b ++ [e']) = (parse (b ++ [e'])).map (as ++ ·) :=
    parseWithin_sequence ha he he' h helse
  refine ⟨fun bs hb => ?_, fun err hb => ?_⟩
  · rw [hseq, hb]
    rfl
  · rw [hseq, hb]
    rfl

/-- `if (x) y;`, which an `else` could still follow. -/
def openBranch : List Token :=
  [⟨.ifWord, "if", .nil, 1⟩, ⟨.leftParen, "(", .nil, 1⟩, ⟨.identifier, "x", .nil, 1⟩,
   ⟨.rightParen, ")", .nil, 1⟩, ⟨.identifier, "y", .nil, 1⟩, ⟨.semicolon, ";", .nil, 1⟩]

def openBranchTree : Node :=
  .ifElse (.var ⟨.identifier, "x", .nil, 1⟩) (.exprStmt (.var ⟨.identifier, "y", .nil, 1⟩) 1) none 1

/-- `{ z = y` without an end. -/
def openBlock : List Token :=
  [⟨.leftBrace, "\x7b", .nil, 2⟩, ⟨.identifier, "z", .nil, 2⟩, ⟨.equal, "=", .nil, 2⟩,
   ⟨.identifier, "y", .nil, 2⟩]

theorem parse_sequence_branch :
    parse (openBranch ++ [.eof 1]) = .ok [openBranchTree] ∧
      parse (openBranch ++ openBranch ++ [.eof 2]) = .ok [openBranchTree, openBranchTree] ∧
      parse (openBranch ++ openBlock ++ [.eof 2]) =
        .error ⟨.expected .semicolon "after expression", .eof 2⟩ := by
  have hnoEof : NoEof openBranch := by simp [NoEof, openBranch]
  have hparse : parse (openBranch ++ [.eof 1]) = .ok [openBranchTree] := by rfl
  have hagain : parse (openBranch ++ [.eof 2]) = .ok [openBranchTree] := by rfl
  have hopen : parse (openBlock ++ [.eof 2]) =
      .error ⟨.expected .semicolon "after expression", .eof 2⟩ := by rfl
  have hbranch : ∀ t ∈ openBranch.head?, t.kind ≠ .elseWord := by simp [openBranch]
  have hblock : ∀ t ∈ openBlock.head?, t.kind ≠ .elseWord := by simp [openBlock]
  refine ⟨hparse, ?_, ?_⟩
  · exact (parse_sequence hnoEof rfl rfl hbranch hparse).1 _ hagain
  · exact (parse_sequence hnoEof rfl rfl hblock hparse).2 _ hopen

end Lox
