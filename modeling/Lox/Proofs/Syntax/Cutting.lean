import Lox.Proofs.Grammar.Leaves
import Lox.Proofs.Syntax.Pieces
import Lox.Proofs.Token.Layout

/-!
# Rendered text is cut into its pieces

`Splits ss after`: each of the segments `ss` ends where the next one starts, and the last one where
`after` starts. A token ends at a blank, a line feed, a closing parenthesis or a semicolon
(`Delimited`), and an opening mark ends where an expression starts (`Opens`). The pieces of a tree
whose names and literals can be read back (`Token.IsName`, `Value.Readable`) meet only in these ways,
so the scanner finds them again.

Main statement (`cuts_rows`).
-/

set_option autoImplicit false

namespace Lox

open Segment Text

/-! ## Rows of segments -/

/-- The segment has the form of its shape, and is no number with two points. -/
structure Segment.Valid (s : Segment) : Prop where
  holds : s.shape.Holds s.text
  points : s.shape = .number → s.text.count '.' ≤ 1

def Splits : List Segment → List Char → Prop
  | [], _ => True
  | s :: ss, after => s.Valid ∧ s.EndsAt (textOf ss ++ after) ∧ Splits ss after

@[simp] theorem splits_nil {after : List Char} : Splits [] after := trivial

theorem splits_cons {s : Segment} {ss : List Segment} {after : List Char} :
    Splits (s :: ss) after ↔ s.Valid ∧ s.EndsAt (textOf ss ++ after) ∧ Splits ss after := Iff.rfl

theorem splits_append {ss ss' : List Segment} {after : List Char} :
    Splits (ss ++ ss') after ↔ Splits ss (textOf ss' ++ after) ∧ Splits ss' after := by
  induction ss with
  | nil => simp
  | cons s ss ih =>
    simp only [List.cons_append, splits_cons, textOf_append, List.append_assoc, ih, and_assoc]

theorem Splits.cuts {ss : List Segment} (h : Splits ss []) : Cuts (textOf ss) ss := by
  induction ss with
  | nil => exact .nil
  | cons s ss ih =>
    obtain ⟨hvalid, hend, hrest⟩ := h
    rw [List.append_nil] at hend
    exact .cons (longest_iff.2 ⟨hvalid.holds, hend⟩) (ih hrest)

theorem Splits.valid {ss : List Segment} {after : List Char} (h : Splits ss after) :
    ∀ s ∈ ss, s.Valid := by
  induction ss with
  | nil => simp
  | cons s ss ih => exact List.forall_mem_cons.2 ⟨h.1, ih h.2.2⟩

/-- The text starts with a character that ends any token, if it is not empty. -/
def Delimited (text : List Char) : Prop := ∀ d ∈ text.head?, d ∈ delimiters

/-- The text starts as an expression may: with no blank, and nothing that goes on with a mark. -/
def Opens (text : List Char) : Prop := ∀ d ∈ text.head?, isSpace d = false ∧ d ≠ '=' ∧ d ≠ '/'

theorem delimited_cons {d : Char} (hd : d ∈ delimiters) (text : List Char) :
    Delimited (d :: text) := by
  simpa [Delimited] using hd

/-! ## Segments that are read as tokens -/

/-- The segment is read as the token `t`, on line zero. -/
structure Segment.Reads (s : Segment) (t : Token) : Prop where
  holds : s.shape.Holds s.text
  token : s.token? 0 = .ok (some t)

namespace Segment.Reads

variable {s : Segment} {t : Token}

theorem valid (h : s.Reads t) : s.Valid :=
  ⟨h.holds, (token?_isOk_iff 0).1 ⟨_, h.token⟩⟩

theorem isToken (h : s.Reads t) : s.shape.isToken = true := by
  rcases gives_of_token? h.holds h.token with ⟨-, h⟩ | ⟨h, -⟩
  · cases h
  · exact h

theorem endsAt (h : s.Reads t) {after : List Char} (hd : Delimited after) : s.EndsAt after :=
  fun d hm => growsBy_delimiter h.holds h.isToken (hd d hm)

end Segment.Reads

theorem word_holds {c : Char} {more : List Char} (hc : isWordStart c = true)
    (hmore : more.all isWordPart = true) : Shape.word.Holds (c :: more) :=
  ⟨c, more, rfl, isWordStart_iff.1 hc, fun d hd => isWordPart_iff.1 (List.all_eq_true.1 hmore d hd)⟩

/-- Marks and reserved words are read as such. -/
theorem Kind.reads {k : Kind} (hk : k ∈ marks ++ reserved) :
    k.segment.Reads ⟨k, k.spelling, .nil, 0⟩ := by
  cases k with
  | identifier | string | number | eof => exact absurd hk (by decide)
  | andWord | classWord | elseWord | falseWord | funWord | forWord | ifWord | nilWord | orWord
  | printWord | returnWord | superWord | thisWord | trueWord | varWord | whileWord =>
    exact ⟨word_holds (by decide) (by decide), rfl⟩
  | _ => exact ⟨⟨_, by decide, rfl⟩, rfl⟩

/-- The token is a name as the scanner finds it. -/
structure Token.IsName (x : Token) : Prop where
  word : Shape.word.Holds x.lexeme.toList
  free : Kind.ofWord x.lexeme.toList = .identifier
  eq : x = ⟨.identifier, x.lexeme, .nil, x.line⟩

theorem Token.IsName.reads {x : Token} (h : x.IsName) : (Segment.name x).Reads x.unlined := by
  refine ⟨h.word, ?_⟩
  have htoken : x.unlined = ⟨.identifier, x.lexeme, .nil, 0⟩ := by
    rw [h.eq]
    rfl
  simp [Segment.name, token?, h.free, htoken]

/-- The value is written as a literal that stands for it: a string has no quotes in it, and a number
has a numeral that reads back. -/
def Value.Readable : Value → Prop
  | nil | bool _ => True
  | num x =>
    Shape.number.Holds (Number.text x).toList ∧ Number.ofLiteral? (Number.text x).toList = some x
  | str s => '"' ∉ s.toList
  | native _ => False

theorem Value.Readable.reads {v : Value} (h : v.Readable) :
    ∃ t : Token, v.segment.Reads t ∧ Spells v.signs [t] := by
  cases v with
  | nil => exact ⟨_, Kind.reads (k := .nilWord) (by decide), .word rfl .nil⟩
  | bool b =>
    cases b with
    | true => exact ⟨_, Kind.reads (k := .trueWord) (by decide), .word rfl .nil⟩
    | false => exact ⟨_, Kind.reads (k := .falseWord) (by decide), .word rfl .nil⟩
  | num x =>
    refine ⟨⟨.number, Number.text x, .num x, 0⟩, ⟨h.1, ?_⟩, ?_⟩
    · simp [segment, token?, h.2]
    · exact .cons (Sign.fits_carrier.2 ⟨rfl, rfl⟩) .nil
  | str s =>
    refine ⟨⟨.string, "\"" ++ s ++ "\"", .str s, 0⟩, ⟨⟨s.toList, rfl, h⟩, ?_⟩, ?_⟩
    · have hlexeme : String.ofList ('"' :: (s.toList ++ ['"'])) = "\"" ++ s ++ "\"" :=
        String.toList_injective (by simp)
      simp [segment, token?, hlexeme]
    · exact .cons (Sign.fits_carrier.2 ⟨rfl, rfl⟩) .nil
  | native f => exact h.elim

/-! ## Where segments end -/

/-- The text starts with no blank. -/
def Solid (text : List Char) : Prop := ∀ d ∈ text.head?, isSpace d = false

theorem solid_kind (k : Kind) (ss : List Segment) (after : List Char) :
    Solid (textOf (k.segment :: ss) ++ after) := by
  intro d hd
  cases k <;> cases hd <;> decide

theorem Opens.solid {text : List Char} (h : Opens text) : Solid text := fun d hd => (h d hd).1

section
variable {ss : List Segment} {after : List Char} (hs : Splits ss after)
include hs

theorem splits_token {s : Segment} {t : Token} (h : s.Reads t)
    (hd : Delimited (textOf ss ++ after)) : Splits (s :: ss) after :=
  ⟨h.valid, h.endsAt hd, hs⟩

/-- Marks and reserved words also end at a delimiter. -/
theorem splits_kind {k : Kind} (hk : k ∈ Kind.marks ++ Kind.reserved)
    (hd : Delimited (textOf ss ++ after)) : Splits (k.segment :: ss) after :=
  splits_token hs (Kind.reads hk) hd

theorem splits_mark {k : Kind} (hk : k ∈ Kind.marks) (ho : Opens (textOf ss ++ after)) :
    Splits (k.segment :: ss) after := by
  refine ⟨(Kind.reads (List.mem_append_left _ hk)).valid, fun d hd => ?_, hs⟩
  have hsegment : k.segment = ⟨.mark, k.spelling.toList⟩ := by simp [Kind.segment, hk]
  rw [hsegment]
  exact growsBy_mark ⟨k, hk, rfl⟩ (ho d hd).2.1 (ho d hd).2.2

theorem splits_space (hsolid : Solid (textOf ss ++ after)) : Splits (Segment.space :: ss) after :=
  ⟨⟨⟨by decide, by simp [Segment.space]⟩, by decide⟩, hsolid, hs⟩

theorem splits_newline : Splits (Segment.newline :: ss) after :=
  ⟨⟨rfl, by decide⟩, fun _ _ => rfl, hs⟩

theorem splits_margin (indent : Int) (hsolid : Solid (textOf ss ++ after)) :
    Splits (Segment.margin indent ++ ss) after := by
  unfold Segment.margin
  split
  · have hblank : ∀ c ∈ List.replicate (4 * indent.toNat) ' ', c = ' ' ∨ c = '\t' ∨ c = '\r' :=
      fun c hc => .inl (List.eq_of_mem_replicate hc)
    refine ⟨⟨⟨?_, hblank⟩, fun h => by cases h⟩, hsolid, hs⟩
    simp only [ne_eq, List.replicate_eq_nil_iff]
    omega
  · exact hs

end

/-- A name or literal starts as an expression may. -/
theorem opens_segment {s : Segment} (hs : s.shape.Holds s.text)
    (hshape : s.shape ∈ [Shape.string, .number, .word]) (ss : List Segment) (after : List Char) :
    Opens (textOf (s :: ss) ++ after) := by
  obtain ⟨shape, text⟩ := s
  obtain ⟨c, more, rfl⟩ := List.exists_cons_of_ne_nil hs.ne_nil
  have hstart : Shape.ofStart c ∈ [Shape.string, .number, .word] := by
    rw [← hs.family_eq]
    simp only [List.mem_cons, List.not_mem_nil, or_false] at hshape
    rcases hshape with rfl | rfl | rfl <;> simp [Shape.family]
  intro d hd
  obtain rfl : c = d := by simpa using hd
  refine ⟨Bool.eq_false_iff.2 fun hspace => ?_, ?_, ?_⟩
  · rcases isSpace_iff.1 hspace with rfl | rfl | rfl <;> exact absurd hstart (by decide)
  · rintro rfl
    exact absurd hstart (by decide)
  · rintro rfl
    exact absurd hstart (by decide)

theorem opens_name {x : Token} (h : x.IsName) (ss : List Segment) (after : List Char) :
    Opens (textOf (Segment.name x :: ss) ++ after) :=
  opens_segment h.word (by simp [Segment.name]) ss after

theorem opens_literal {v : Value} (h : v.Readable) (ss : List Segment) (after : List Char) :
    Opens (textOf (v.segment :: ss) ++ after) := by
  obtain ⟨t, ht, -⟩ := h.reads
  refine opens_segment ht.holds ?_ ss after
  cases v <;> simp [Value.segment]

theorem opens_cons {d : Char} (hd : isSpace d = false ∧ d ≠ '=' ∧ d ≠ '/') (after : List Char) :
    Opens (d :: after) := by
  simpa [Opens] using hd

/-! ## Trees -/

namespace Node

variable {a : Node}

theorem opens_expr (ha : a.isExpr = true) (hl : a.Leaves Value.Readable Token.IsName)
    (indent : Int) (after : List Char) : Opens (textOf (a.pieces indent) ++ after) := by
  cases a with
  | literal v => exact opens_literal hl [] after
  | var x => exact opens_name hl [] after
  | unary op a line =>
    have hop : op.isUnary = true := by simp_all [isExpr]
    cases op with
    | neg | not => exact opens_cons (by decide) _
    | _ => cases hop
  | binary | logical | grouping => exact opens_cons (by decide) _
  | assign x a => exact opens_name hl.1 _ after
  | varDecl | exprStmt | print | ifElse | whileLoop | block | bare => cases ha

theorem opens_row (ha : a.isExpr = true) (hl : a.Leaves Value.Readable Token.IsName)
    (indent : Int) (ss : List Segment) (after : List Char) :
    Opens (textOf (a.pieces indent ++ ss) ++ after) := by
  rw [textOf_append, List.append_assoc]
  exact opens_expr ha hl indent _

theorem splits_expr (a : Node) (ha : a.isExpr = true) (hl : a.Leaves Value.Readable Token.IsName)
    (indent : Int) {after : List Char} (hd : Delimited after) : Splits (a.pieces indent) after := by
  match a, ha, hl with
  | literal v, _, hl =>
    obtain ⟨t, ht, -⟩ := Value.Readable.reads hl
    exact splits_token splits_nil ht hd
  | var x, _, hl => exact splits_token splits_nil (Token.IsName.reads hl) hd
  | unary op a line, ha, hl =>
    have hparts : op.isUnary = true ∧ a.isExpr = true := by simpa [isExpr] using ha
    have hmark : op.kind ∈ Kind.marks := by
      cases op with
      | neg | not => decide
      | _ => cases hparts.1
    simp only [pieces]
    -- Nothing stands between the operator and its operand, which must not go on with the mark.
    exact splits_mark (splits_expr a hparts.2 hl 0 hd) hmark (opens_expr hparts.2 hl 0 after)
  | binary a op b line, ha, hl | logical a op b line, ha, hl =>
    have hparts : a.isExpr = true ∧ b.isExpr = true := by simp_all [isExpr]
    have hop : op.kind ∈ Kind.marks ++ Kind.reserved := by cases op <;> decide
    simp only [pieces]
    -- From the right: each piece goes in front of a text that it is known to end at.
    have hclose : Splits [Kind.rightParen.segment] after := splits_kind splits_nil (by decide) hd
    have hright := splits_append.2
      ⟨splits_expr b hparts.2 hl.2 0 (delimited_cons (by decide) _), hclose⟩
    have hmark := splits_kind (splits_space hright (opens_row hparts.2 hl.2 0 _ after).solid) hop
      (delimited_cons (by decide) _)
    have hleft := splits_append.2 ⟨splits_expr a hparts.1 hl.1 0 (delimited_cons (by decide) _),
      splits_space hmark (solid_kind op.kind _ after)⟩
    exact splits_mark hleft (by decide) (opens_row hparts.1 hl.1 0 _ after)
  | grouping a, ha, hl =>
    simp only [pieces]
    have hclose : Splits [Kind.rightParen.segment] after := splits_kind splits_nil (by decide) hd
    have hinner := splits_append.2 ⟨splits_expr a ha hl 0 (delimited_cons (by decide) _), hclose⟩
    exact splits_mark hinner (by decide) (opens_row (a := a) ha hl 0 _ after)
  | assign x a, ha, hl =>
    simp only [pieces]
    have hvalue := splits_space (splits_expr a ha hl.2 0 hd)
      (opens_expr (a := a) ha hl.2 0 after).solid
    have hequal : Splits (Kind.equal.segment :: _) after :=
      splits_kind hvalue (by decide) (delimited_cons (by decide) _)
    exact splits_token (splits_space hequal (solid_kind .equal _ after)) (Token.IsName.reads hl.1)
      (delimited_cons (by decide) _)
  | varDecl _ _, ha, _ | exprStmt _ _, ha, _ | print _ _, ha, _ | ifElse _ _ _ _, ha, _
  | whileLoop _ _ _, ha, _ | block _ _, ha, _ | bare _, ha, _ => cases ha

/-- A word, a condition in parentheses, and what follows on the next line. -/
theorem splits_condition {k : Kind} (hk : k ∈ Kind.marks ++ Kind.reserved) {c : Node}
    (hc : c.isExpr = true) (hl : c.Leaves Value.Readable Token.IsName) {ss : List Segment}
    {after : List Char} (hs : Splits ss after) (indent : Int) :
    Splits (Segment.margin indent ++ k.segment :: space :: Kind.leftParen.segment ::
      (c.pieces 0 ++ Kind.rightParen.segment :: newline :: ss)) after := by
  have hclose : Splits (Kind.rightParen.segment :: newline :: ss) after :=
    splits_kind (splits_newline hs) (by decide) (delimited_cons (by decide) _)
  have hcondition := splits_append.2
    ⟨splits_expr c hc hl 0 (delimited_cons (by decide) _), hclose⟩
  have hopen : Splits (Kind.leftParen.segment :: _) after :=
    splits_mark hcondition (by decide) (opens_row hc hl 0 _ after)
  have hword := splits_kind (splits_space hopen (solid_kind .leftParen _ after)) hk
    (delimited_cons (by decide) _)
  exact splits_margin hword indent (solid_kind k _ after)

mutual

theorem splits_stmt (a : Node) (ha : a.isStmt = true) (hl : a.Leaves Value.Readable Token.IsName)
    (indent : Int) {after : List Char} (hd : Delimited after) : Splits (a.pieces indent) after := by
  have hend : Splits [Kind.semicolon.segment] after := splits_kind splits_nil (by decide) hd
  match a, ha, hl with
  | varDecl x none, _, hl =>
    simp only [pieces]
    have hname := splits_token hend (Token.IsName.reads hl) (delimited_cons (by decide) _)
    have hspace := splits_space hname (opens_name hl _ after).solid
    have hvar : Splits (Kind.varWord.segment :: _) after :=
      splits_kind hspace (by decide) (delimited_cons (by decide) _)
    exact splits_margin hvar indent (solid_kind .varWord _ after)
  | varDecl x (some a), ha, hl =>
    simp only [pieces]
    have hvalue := splits_append.2 ⟨splits_expr a ha hl.2 0 (delimited_cons (by decide) _), hend⟩
    have hspace := splits_space hvalue (opens_row (a := a) ha hl.2 0 _ after).solid
    have hequal : Splits (Kind.equal.segment :: _) after :=
      splits_kind hspace (by decide) (delimited_cons (by decide) _)
    have hname := splits_token (splits_space hequal (solid_kind .equal _ after))
      (Token.IsName.reads hl.1) (delimited_cons (by decide) _)
    have hvar : Splits (Kind.varWord.segment :: _) after :=
      splits_kind (splits_space hname (opens_name hl.1 _ after).solid) (by decide)
        (delimited_cons (by decide) _)
    exact splits_margin hvar indent (solid_kind .varWord _ after)
  | exprStmt a line, ha, hl =>
    simp only [pieces]
    have hexpr := splits_append.2 ⟨splits_expr a ha hl 0 (delimited_cons (by decide) _), hend⟩
    exact splits_margin hexpr indent (opens_row (a := a) ha hl 0 _ after).solid
  | print a line, ha, hl =>
    simp only [pieces]
    have hexpr := splits_append.2 ⟨splits_expr a ha hl 0 (delimited_cons (by decide) _), hend⟩
    have hspace := splits_space hexpr (opens_row (a := a) ha hl 0 _ after).solid
    have hprint : Splits (Kind.printWord.segment :: _) after :=
      splits_kind hspace (by decide) (delimited_cons (by decide) _)
    exact splits_margin hprint indent (solid_kind .printWord _ after)
  | ifElse c t none line, ha, hl =>
    have hparts : c.isExpr = true ∧ t.isStmt = true := by
      simpa [isStmt, isStmtOption] using ha
    simp only [pieces]
    exact splits_condition (by decide) hparts.1 hl.1
      (splits_stmt t hparts.2 hl.2 (indent + 1) hd) indent
  | ifElse c t (some e) line, ha, hl =>
    have hparts : (c.isExpr = true ∧ t.isStmt = true) ∧ e.isStmt = true := by
      simpa [isStmt, isStmtOption] using ha
    simp only [pieces]
    have hline := splits_newline (splits_stmt e hparts.2 hl.2.2 (indent + 1) hd)
    have hword : Splits (Kind.elseWord.segment :: _) after :=
      splits_kind hline (by decide) (delimited_cons (by decide) _)
    have helse := splits_newline (splits_margin hword indent (solid_kind .elseWord _ after))
    have hthen := splits_append.2
      ⟨splits_stmt t hparts.1.2 hl.2.1 (indent + 1) (delimited_cons (by decide) _), helse⟩
    exact splits_condition (by decide) hparts.1.1 hl.1 hthen indent
  | whileLoop c t line, ha, hl =>
    have hparts : c.isExpr = true ∧ t.isStmt = true := by simpa [isStmt] using ha
    simp only [pieces]
    exact splits_condition (by decide) hparts.1 hl.1
      (splits_stmt t hparts.2 hl.2 (indent + 1) hd) indent
  | block as line, ha, hl =>
    simp only [pieces]
    have hclose : Splits [Kind.rightBrace.segment] after := splits_kind splits_nil (by decide) hd
    have hbrace := splits_margin hclose indent (solid_kind .rightBrace _ after)
    have hbody := splits_append.2 ⟨splits_all as ha hl (indent + 1), hbrace⟩
    have hopen : Splits (Kind.leftBrace.segment :: _) after :=
      splits_kind (splits_newline hbody) (by decide) (delimited_cons (by decide) _)
    exact splits_margin hopen indent (solid_kind .leftBrace _ after)
  | literal _, ha, _ | var _, ha, _ | unary _ _ _, ha, _ | binary _ _ _ _, ha, _
  | logical _ _ _ _, ha, _ | grouping _, ha, _ | assign _ _, ha, _ | bare _, ha, _ => cases ha

theorem splits_all (as : List Node) (ha : areStmts as = true)
    (hl : AllLeaves Value.Readable Token.IsName as) (indent : Int) {after : List Char} :
    Splits (allPieces indent as) after := by
  match as, ha, hl with
  | [], _, _ => exact splits_nil
  | a :: as, ha, hl =>
    have hparts : a.isStmt = true ∧ areStmts as = true := by simpa [areStmts] using ha
    simp only [allPieces]
    exact splits_append.2 ⟨splits_stmt a hparts.1 hl.1 indent (delimited_cons (by decide) _),
      splits_newline (splits_all as hparts.2 hl.2 indent)⟩

end

/-- The pieces of a program: those of its statements, on lines of their own. -/
def rows (as : List Node) : List Segment := [newline].intercalate (as.map (pieces 0))

theorem textOf_rows (as : List Node) :
    textOf (rows as) = ("\n".intercalate (as.map (written 0))).toList := by
  rw [String.toList_intercalate, List.map_map]
  unfold rows
  induction as with
  | nil => rfl
  | cons a as ih =>
    cases as with
    | nil => simp
    | cons b bs =>
      simp only [List.map_cons, List.intercalate_cons_cons, textOf_append, textOf_cons, textOf_nil,
        Function.comp_apply, toList_written, List.append_nil] at ih ⊢
      rw [ih]
      rfl

theorem splits_rows {as : List Node} (ha : ∀ a ∈ as, a.isStmt = true)
    (hl : ∀ a ∈ as, a.Leaves Value.Readable Token.IsName) : Splits (rows as) [] := by
  unfold rows
  induction as with
  | nil => exact splits_nil
  | cons a as ih =>
    obtain ⟨hstmt, has⟩ := List.forall_mem_cons.1 ha
    obtain ⟨hleaves, hls⟩ := List.forall_mem_cons.1 hl
    cases as with
    | nil =>
      rw [List.map_singleton, List.intercalate_singleton]
      exact splits_stmt a hstmt hleaves 0 (by simp [Delimited])
    | cons b bs =>
      rw [List.map_cons, List.map_cons, List.intercalate_cons_cons, List.append_assoc]
      exact splits_append.2 ⟨splits_stmt a hstmt hleaves 0 (delimited_cons (by decide) _),
        splits_newline (ih has hls)⟩

/-- The text of a program is cut into its pieces, and no number among them has two points. -/
theorem cuts_rows {as : List Node} (ha : ∀ a ∈ as, a.isStmt = true)
    (hl : ∀ a ∈ as, a.Leaves Value.Readable Token.IsName) :
    Cuts ("\n".intercalate (as.map (written 0))).toList (rows as) ∧
      ∀ s ∈ rows as, s.shape = .number → s.text.count '.' ≤ 1 := by
  have hsplits := splits_rows ha hl
  rw [← textOf_rows]
  exact ⟨hsplits.cuts, fun s hs => (hsplits.valid s hs).points⟩

end Node

end Lox
