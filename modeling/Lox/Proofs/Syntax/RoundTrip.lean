import Lox.Proofs.Grammar.Lines
import Lox.Proofs.Grammar.Program
import Lox.Proofs.Syntax.Grouping
import Lox.Proofs.Token.Numeral

/-!
# Rendered programs are read back

The names and literals of a scanned program can be read back, if its numbers can
(`Segment.Gives.supplies`). Then the rendered program is scanned as its pieces (`scan_rows`), and
these are the tokens of the wrapped program, which the grammar derives (`parse_rows`).

Main statement (`render_round_trip`): what is rendered is parsed to the same program, but for
groupings and lines, unless the parser gives up for want of levels.
-/

set_option autoImplicit false

namespace Lox

open Segment

/-! ## Leaves of scanned programs -/

/-- The text of the value is scanned as one number token, which stands for the value. -/
def Value.ReadsBack (v : Value) : Prop :=
  ∃ lexeme line line', scan v.literal = .ok [⟨.number, lexeme, v, line⟩, Token.eof line']

theorem Kind.ofWord_eq_identifier {text : List Char}
    (h : ∀ k ∈ reserved, k.key ≠ upperCase text) : ofWord text = identifier := by
  have hnone : reserved.find? (·.key == upperCase text) = none := by simpa using h
  unfold ofWord
  rw [hnone]
  rfl

namespace Segment.Gives

variable {s : Segment} {t : Token}

/-- A token is a number, a string, a name, or a mark or reserved word. -/
theorem token_cases (h : s.Gives t) (hs : s.shape.Holds s.text) :
    (t.kind = .number ∧ ∃ x, t.literal = .num x) ∨
      (t.kind = .string ∧ ∃ body, t.literal = .str (String.ofList body) ∧ '"' ∉ body) ∨
      (t.kind = .identifier ∧ t.IsName) ∨ t.kind ∈ Kind.marks ++ Kind.reserved := by
  obtain ⟨hlexeme, h⟩ := h
  obtain ⟨shape, text⟩ := s
  cases shape with
  | number =>
    obtain ⟨hk, x, -, hliteral⟩ := h
    exact .inl ⟨hk, x, hliteral⟩
  | string =>
    obtain ⟨hk, body, htext, hliteral⟩ := h
    obtain ⟨body', htext', hbody⟩ := hs
    obtain rfl : body = body' := by simpa using htext.symm.trans htext'
    exact .inr (.inl ⟨hk, body, hliteral, hbody⟩)
  | word =>
    obtain ⟨hliteral, ⟨hk, -⟩ | ⟨hk, hfree⟩⟩ := h
    · exact .inr (.inr (.inr (List.mem_append_right _ hk)))
    · have hchars : t.lexeme.toList = text := by rw [hlexeme, String.toList_ofList]
      refine .inr (.inr (.inl ⟨hk, ?_, ?_, ?_⟩))
      · rw [hchars]
        exact hs
      · rw [hchars]
        exact Kind.ofWord_eq_identifier hfree
      · rw [← hk, ← hliteral]
  | mark => exact .inr (.inr (.inr (List.mem_append_left _ h.2.1)))
  | comment | newline | blank => exact h.elim

theorem carries (h : s.Gives t) (hs : s.shape.Holds s.text) : t.Carries := by
  rcases h.token_cases hs with ⟨hk, x, hx⟩ | ⟨hk, body, hbody, -⟩ | ⟨hk, -⟩ | hk
  · exact ⟨fun _ => ⟨x, hx⟩, fun h => absurd (hk.symm.trans h) (by decide)⟩
  · exact ⟨fun h => absurd (hk.symm.trans h) (by decide), fun _ => ⟨_, hbody⟩⟩
  · exact ⟨fun h => absurd (hk.symm.trans h) (by decide),
      fun h => absurd (hk.symm.trans h) (by decide)⟩
  · exact ⟨fun h => absurd (h ▸ hk) (by decide), fun h => absurd (h ▸ hk) (by decide)⟩

/-- Names and strings can be read back as they are, so all leaves can if the numbers do. -/
theorem supplies (h : s.Gives t) (hs : s.shape.Holds s.text)
    (hnumber : t.kind = .number → t.literal.ReadsBack) :
    t.Supplies Value.Readable Token.IsName := by
  rcases h.token_cases hs with ⟨hk, x, hx⟩ | ⟨hk, body, hbody, hquote⟩ | ⟨hk, hname⟩ | hk
  · refine ⟨fun _ => ?_, fun h => absurd (hk.symm.trans h) (by decide)⟩
    obtain ⟨lexeme, line, line', hscan⟩ := hnumber hk
    rw [hx] at hscan ⊢
    exact number_of_scan hscan rfl rfl
  · refine ⟨fun _ => ?_, fun h => absurd (hk.symm.trans h) (by decide)⟩
    rw [hbody]
    simpa [Value.Readable] using hquote
  · refine ⟨fun h => ?_, fun _ => hname⟩
    rw [hk] at h
    exact absurd h (by decide)
  · constructor
    · rintro (h | h)
      · exact absurd (h ▸ hk) (by decide)
      · exact absurd (h ▸ hk) (by decide)
    · intro h
      exact absurd (h ▸ hk) (by decide)

end Segment.Gives

theorem exists_gives_of_mem {ss : List Segment} {ts : List Token}
    (h : List.Forall₂ Gives ss ts) {t : Token} (ht : t ∈ ts) : ∃ s ∈ ss, s.Gives t := by
  induction h with
  | nil => cases ht
  | @cons s u ss ts hgives _ ih =>
    rcases List.mem_cons.1 ht with rfl | ht
    · exact ⟨s, List.mem_cons_self, hgives⟩
    · obtain ⟨s', hs', hgives'⟩ := ih ht
      exact ⟨s', List.mem_cons_of_mem _ hs', hgives'⟩

/-- The tokens of a source are those of segments, and then comes the end. -/
theorem scan_gives {source : String} {ts : List Token} (h : scan source = .ok ts) :
    ∃ us line, ts = us ++ [Token.eof line] ∧ NoEof us ∧
      ∀ t ∈ us, ∃ s : Segment, s.shape.Holds s.text ∧ s.Gives t := by
  obtain ⟨segments, hcuts, hmarked⟩ := scanFrom_ok_iff.1 h
  obtain ⟨us, line, rfl, heof, hgives⟩ := hmarked.gives hcuts.holds
  refine ⟨us, line, rfl, heof, fun t ht => ?_⟩
  obtain ⟨s, hs, hgive⟩ := exists_gives_of_mem hgives ht
  exact ⟨s, hcuts.holds s (List.mem_of_mem_filter hs), hgive⟩

/-! ## Rendered programs -/

/-- The rendered program is scanned as its pieces. -/
theorem scan_rows {as : List Node} (ha : ∀ a ∈ as, a.isStmt = true)
    (hl : ∀ a ∈ as, a.Leaves Value.Readable Token.IsName) :
    ∃ ts, scan ("\n".intercalate (as.map (Node.written 0))) = .ok ts ∧
      ts.map Token.unlined = tokensOf (Node.rows as) ++ [Token.eof 0] := by
  obtain ⟨hcuts, hnumbers⟩ := Node.cuts_rows ha hl
  obtain ⟨ts, hmarked⟩ := (Marked.exists_iff 1).2 hnumbers
  exact ⟨ts, scanFrom_ok_iff.2 ⟨_, hcuts, hmarked⟩, hmarked.unlined⟩

theorem noEof_tokensOf (ss : List Segment) : NoEof (tokensOf ss) := by
  intro t ht
  obtain ⟨s, -, htoken⟩ := exists_of_mem_tokensOf ht
  exact kind_token?_ne_eof htoken

/-- The trees of an accepted program keep to the grammar, whatever their lines. -/
theorem allPlaced_of_parse {ts : List Token} {e : Token} {as : List Node} (hts : NoEof ts)
    (he : e.kind = .eof) (hc : ∀ t ∈ ts, t.Carries) (h : parse (ts ++ [e]) = .ok as)
    (f : Int → Int) : Node.allPlaced (Node.relabelAll f as) = true := by
  obtain ⟨pieces, rfl, rfl, hd⟩ := (parseWithin_ok_iff hts he).1 h
  rw [Node.relabelAll_eq_map]
  refine Node.allPlaced_iff.2 fun a ha => ?_
  rw [List.map_map] at ha
  obtain ⟨p, hp, rfl⟩ := List.mem_map.1 ha
  refine ((hd p hp).relabel f).admits fun t ht => ?_
  obtain ⟨u, hu, rfl⟩ := List.mem_map.1 ht
  exact hc u (List.mem_flatMap.2 ⟨p, hp, hu⟩)

/-- The pieces of a program are parsed as the wrapped program, unless the levels do not suffice. -/
theorem parse_rows {as : List Node} (ha : ∀ a ∈ as, a.isStmt = true)
    (hl : ∀ a ∈ as, a.Leaves Value.Readable Token.IsName)
    (hplaced : Node.allPlaced (Node.relabelAll (fun _ => 0) as) = true) :
    (∃ t, parse (tokensOf (Node.rows as) ++ [Token.eof 0]) = .error ⟨.tooDeep, t⟩) ∨
      parse (tokensOf (Node.rows as) ++ [Token.eof 0]) =
        .ok (Node.wrapAll (Node.relabelAll (fun _ => 0) as)) := by
  by_cases hdeep : ∃ t, parse (tokensOf (Node.rows as) ++ [Token.eof 0]) = .error ⟨.tooDeep, t⟩
  · exact .inl hdeep
  · obtain ⟨n, pieces, hpieces, hyield, hd⟩ := exists_declarations _
      (Node.allPlaced_wrapAll _ hplaced) (Node.spelled_rows ha hl)
    rw [hpieces]
    exact .inr (parseWithin_of_derives (noEof_tokensOf _) rfl hyield hd (not_exists.1 hdeep))

/-- The tree without its groupings and its lines. -/
def Node.bared (a : Node) : Node := (a.relabel fun _ => 0).ungroup

theorem Node.map_bared (as : List Node) :
    as.map bared = ungroupAll (relabelAll (fun _ => 0) as) := by
  rw [ungroupAll_eq_map, relabelAll_eq_map, List.map_map]
  rfl

/-- Tokens that are the pieces of a program but for their lines are parsed as the program but for
groupings and lines, unless the levels do not suffice. -/
theorem parse_of_unlined {as : List Node} {ts : List Token} (ha : ∀ a ∈ as, a.isStmt = true)
    (hl : ∀ a ∈ as, a.Leaves Value.Readable Token.IsName)
    (hplaced : Node.allPlaced (Node.relabelAll (fun _ => 0) as) = true)
    (hts : ts.map Token.unlined = tokensOf (Node.rows as) ++ [Token.eof 0]) :
    (∃ t, parse ts = .error ⟨.tooDeep, t⟩) ∨
      ∃ as', parse ts = .ok as' ∧ as'.map Node.bared = as.map Node.bared := by
  have hne : ts ≠ [] := by
    rintro rfl
    simp at hts
  -- The parser only copies lines, so what it does without them tells what it does.
  have hrelabel := parseWithin_relabel_eq (fun _ => 0) Parse.limit hne
  change parse (ts.map Token.unlined) = ((parse ts).map _).mapError _ at hrelabel
  rw [hts] at hrelabel
  rcases parse_rows ha hl hplaced with ⟨t, hdeep⟩ | hok
  · rw [hdeep] at hrelabel
    cases hparse : parse ts with
    | ok as' =>
      rw [hparse] at hrelabel
      cases hrelabel
    | error e =>
      obtain ⟨fault, u⟩ := e
      rw [hparse] at hrelabel
      cases hrelabel
      exact .inl ⟨u, rfl⟩
  · rw [hok] at hrelabel
    cases hparse : parse ts with
    | ok as' =>
      rw [hparse] at hrelabel
      have hwrap : Node.wrapAll (Node.relabelAll (fun _ => 0) as) =
          as'.map (Node.relabel fun _ => 0) := Except.ok.inj hrelabel
      refine .inr ⟨as', rfl, ?_⟩
      rw [Node.map_bared, Node.map_bared, Node.relabelAll_eq_map, ← hwrap,
        Node.ungroupAll_wrapAll]
    | error e =>
      rw [hparse] at hrelabel
      cases hrelabel

/-- A rendered program is scanned, and parsed to the program it was rendered from but for groupings
and lines, unless the parser gives up for want of levels. -/
theorem render_round_trip {source : String} {ts : List Token} {program : List Node}
    (hscan : scan source = .ok ts) (hparse : parse ts = .ok program)
    (hnumbers : ∀ t ∈ ts, t.kind = .number → t.literal.ReadsBack) :
    ∃ texts,
      (∀ levels, program.mapM (Node.render levels 0) =
        Node.within (Node.heightAll program) levels texts) ∧
      ∃ ts', scan ("\n".intercalate texts) = .ok ts' ∧
        ((∃ e, parse ts' = .error e ∧ e.detail = "expression nested too deeply") ∨
          ∃ program', parse ts' = .ok program' ∧
            program'.map Node.bared = program.map Node.bared) := by
  obtain ⟨us, line, rfl, heof, hgives⟩ := scan_gives hscan
  have hstmt : ∀ a ∈ program, a.isStmt = true := fun a ha => (parse_shape hparse a ha).1
  have hleaves : ∀ a ∈ program, a.Leaves Value.Readable Token.IsName := by
    refine parse_leaves trivial (fun _ => trivial) hparse fun t ht => ?_
    rcases List.mem_append.1 ht with hu | he
    · obtain ⟨s, hs, hgive⟩ := hgives t hu
      exact hgive.supplies hs (hnumbers t ht)
    · exact .of_eof (by rw [List.mem_singleton.1 he]; rfl)
  have hcarries : ∀ t ∈ us, t.Carries := by
    intro t ht
    obtain ⟨s, hs, hgive⟩ := hgives t ht
    exact hgive.carries hs
  have hplaced := allPlaced_of_parse heof rfl hcarries hparse fun _ => 0
  obtain ⟨ts', hscan', htokens⟩ := scan_rows hstmt hleaves
  refine ⟨program.map (Node.written 0), fun levels => ?_, ts', hscan', ?_⟩
  · rw [Node.heightAll_eq]
    exact Node.mapM_within fun a ha => Node.render_eq levels 0 (.inr (hstmt a ha))
  · rcases parse_of_unlined hstmt hleaves hplaced htokens with ⟨t, hdeep⟩ | hsame
    · exact .inl ⟨_, hdeep, rfl⟩
    · exact .inr hsame

/-- A dangling `else`, and operators that take one another in. -/
def looseSource : String :=
  "if (a)\n if (b) x = \"//\" + 1.5 * -y; else \x7b\n print !z or 2;\x7d"

def looseTokens : List Token :=
  [⟨.ifWord, "if", .nil, 1⟩, ⟨.leftParen, "(", .nil, 1⟩, ⟨.identifier, "a", .nil, 1⟩,
   ⟨.rightParen, ")", .nil, 1⟩, ⟨.ifWord, "if", .nil, 2⟩, ⟨.leftParen, "(", .nil, 2⟩,
   ⟨.identifier, "b", .nil, 2⟩, ⟨.rightParen, ")", .nil, 2⟩, ⟨.identifier, "x", .nil, 2⟩,
   ⟨.equal, "=", .nil, 2⟩, ⟨.string, "\"//\"", .str "//", 2⟩, ⟨.plus, "+", .nil, 2⟩,
   ⟨.number, "1.5", .num (Number.ofDecimal 15 (-1)), 2⟩, ⟨.star, "*", .nil, 2⟩,
   ⟨.minus, "-", .nil, 2⟩, ⟨.identifier, "y", .nil, 2⟩, ⟨.semicolon, ";", .nil, 2⟩,
   ⟨.elseWord, "else", .nil, 2⟩, ⟨.leftBrace, "\x7b", .nil, 2⟩, ⟨.printWord, "print", .nil, 3⟩,
   ⟨.bang, "!", .nil, 3⟩, ⟨.identifier, "z", .nil, 3⟩, ⟨.orWord, "or", .nil, 3⟩,
   ⟨.number, "2", .num (Number.ofDecimal 2 0), 3⟩, ⟨.semicolon, ";", .nil, 3⟩,
   ⟨.rightBrace, "\x7d", .nil, 3⟩, Token.eof 3]

def looseTree : Node :=
  .ifElse (.var ⟨.identifier, "a", .nil, 1⟩)
    (.ifElse (.var ⟨.identifier, "b", .nil, 2⟩)
      (.exprStmt (.assign ⟨.identifier, "x", .nil, 2⟩
        (.binary (.literal (.str "//")) .add
          (.binary (.literal (.num (Number.ofDecimal 15 (-1)))) .mul
            (.unary .neg (.var ⟨.identifier, "y", .nil, 2⟩) 2) 2) 2)) 2)
      (some (.block [.print (.logical (.unary .not (.var ⟨.identifier, "z", .nil, 3⟩) 3) .or
        (.literal (.num (Number.ofDecimal 2 0))) 3) 3] 2)) 2)
    none 1

def looseText : String :=
  "if (a)\n    if (b)\n        x = (\"//\" + (1.5 * -y));\n    else\n        \x7b\n" ++
    "            print (!z or 2);\n        \x7d"

theorem render_round_trip_dangling :
    scan looseSource = .ok looseTokens ∧ parse looseTokens = .ok [looseTree] ∧
      (∀ t ∈ looseTokens, t.kind = .number → t.literal.ReadsBack) ∧
      [looseTree].mapM (Node.render Node.renderLimit 0) = .ok [looseText] ∧
      ∃ ts', scan looseText = .ok ts' ∧
        ((∃ e, parse ts' = .error e ∧ e.detail = "expression nested too deeply") ∨
          ∃ program', parse ts' = .ok program' ∧
            program'.map Node.bared = [looseTree].map Node.bared) := by
  have hscan : scan looseSource = .ok looseTokens := by with_unfolding_all rfl
  have hparse : parse looseTokens = .ok [looseTree] := by rfl
  have htext : looseTree.written 0 = looseText := by decide +kernel
  have hhalves : (Value.num (Number.ofDecimal 15 (-1))).ReadsBack := by
    have htext : (Value.num (Number.ofDecimal 15 (-1))).literal = "1.5" := by decide +kernel
    refine ⟨"1.5", 1, 1, ?_⟩
    rw [htext]
    with_unfolding_all rfl
  have htwo : (Value.num (Number.ofDecimal 2 0)).ReadsBack := by
    have htext : (Value.num (Number.ofDecimal 2 0)).literal = "2" := by decide +kernel
    refine ⟨"2", 1, 1, ?_⟩
    rw [htext]
    with_unfolding_all rfl
  have hnumbers : ∀ t ∈ looseTokens, t.kind = .number → t.literal.ReadsBack := by
    have hfilter : looseTokens.filter (·.kind = .number) =
        [⟨.number, "1.5", .num (Number.ofDecimal 15 (-1)), 2⟩,
         ⟨.number, "2", .num (Number.ofDecimal 2 0), 3⟩] := by rfl
    intro t ht hk
    have hmem : t ∈ looseTokens.filter (·.kind = .number) := by simp [ht, hk]
    rw [hfilter] at hmem
    rcases List.mem_pair.1 hmem with rfl | rfl
    · exact hhalves
    · exact htwo
  have hrender : [looseTree].mapM (Node.render Node.renderLimit 0) = .ok [looseText] := by
    have hone := Node.render_eq Node.renderLimit 0 (a := looseTree) (.inr rfl)
    rw [htext] at hone
    rw [List.mapM_cons, hone]
    rfl
  obtain ⟨texts, htexts, hround⟩ := render_round_trip hscan hparse hnumbers
  obtain rfl : [looseText] = texts :=
    Except.ok.inj (hrender.symm.trans (htexts Node.renderLimit))
  exact ⟨hscan, hparse, hnumbers, hrender, hround⟩

end Lox
