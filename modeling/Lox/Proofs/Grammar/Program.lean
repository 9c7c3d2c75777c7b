import Lox.Proofs.Grammar.Extension
import Lox.Proofs.Grammar.Yield

/-!
# Parsing programs

What the parser makes of tokens followed by an end of source. `parseWithin_ok_iff`: it succeeds with
the declarations that have a derivation within its levels. `parseWithin_mono`: more levels change
nothing but failures for want of levels, so that derivations of any depth will do
(`parseWithin_of_derives`).

Main statement (`parse_exact`): the parser accepts exactly the programs of the grammar, and its tree
is the only one that the tokens fit.
-/

set_option autoImplicit false

namespace Lox

open Cursor Parse

/-- The trees of a program and the tokens they are written with. -/
def Writes (as : List Node) (ts : List Token) : Prop :=
  Node.allPlaced as = true ∧ Spells (Node.yieldAll as) ts

section
variable {ts : List Token} {e : Token} (hts : NoEof ts) (he : e.kind = .eof)
include he

theorem start_append : start (ts ++ [e]) = prepend ts ⟨e, []⟩ :=
  eq_of_ahead (by rw [ahead_start, close_append he, ahead_prepend]; rfl)

/-- How parsing ends is how the program ends. -/
theorem parseWithin_append (n : Nat) :
    parseWithin n (ts ++ [e]) = match program n (prepend ts ⟨e, []⟩) with
      | .ok as _ => .ok as
      | .error (.rejected r) _ => .error r
      | .error .tooDeep d => .error ⟨.tooDeep, d.current⟩ := by
  rw [← start_append he]
  rfl

theorem parseWithin_error_iff {n : Nat} {err : ParseError} :
    parseWithin n (ts ++ [e]) = .error err ↔
      ∃ f d, program n (prepend ts ⟨e, []⟩) = .error f d ∧ f.noted d.current = .rejected err := by
  rw [parseWithin_append he]
  cases program n (prepend ts ⟨e, []⟩) with
  | ok as d =>
    constructor
    · intro h
      cases h
    · rintro ⟨_, _, h, -⟩
      cases h
  | error f d =>
    constructor
    · intro h
      refine ⟨f, d, rfl, ?_⟩
      cases f <;> cases h <;> rfl
    · rintro ⟨f, d, h, hf⟩
      cases h
      cases f <;> cases hf <;> rfl

include hts

theorem parseWithin_ok_iff {n : Nat} {as : List Node} :
    parseWithin n (ts ++ [e]) = .ok as ↔
      ∃ pieces : List (List Token × Node), as = pieces.map (·.2) ∧ ts = pieces.flatMap (·.1) ∧
        ∀ p ∈ pieces, Derives False n .declaration p.1 p.2 := by
  have hend : (⟨e, []⟩ : Cursor).Closed := ⟨e, List.mem_cons_self, he⟩
  rw [parseWithin_append he]
  constructor
  · intro h
    cases hr : program n (prepend ts ⟨e, []⟩) with
    | error f d => rw [hr] at h; cases f <;> cases h
    | ok as d =>
      rw [hr] at h
      cases h
      obtain ⟨pieces, rfl, hd, hp, hk⟩ := program_sound (closed_prepend ts hend) hr
      have := hp.ahead
      rw [ahead_prepend] at this
      exact ⟨pieces, rfl, hts.eq_of_append hp.noEof he hk this, hd⟩
  · rintro ⟨pieces, rfl, rfl, hd⟩
    rcases program_complete hd (passes_prepend hts ⟨e, []⟩) he with h | h
    · rw [h]
      rfl
    · exact h.1.elim

/-- More levels change nothing but failures for want of levels. -/
theorem parseWithin_mono {n m : Nat} (hnm : n ≤ m)
    (hdeep : ∀ t, parseWithin n (ts ++ [e]) ≠ .error ⟨.tooDeep, t⟩) :
    parseWithin m (ts ++ [e]) = parseWithin n (ts ++ [e]) := by
  have hend : (⟨e, []⟩ : Cursor).Closed := ⟨e, List.mem_cons_self, he⟩
  have hgrows : Grows False ⟨e, []⟩ ⟨e, []⟩ ts (program n) (program m) :=
    program_grows he hend hnm False.elim hts
  rw [parseWithin_append he] at hdeep
  rw [parseWithin_append he, parseWithin_append he, hgrows.eq fun f d hr => ?_]
  rw [hr] at hdeep
  cases f with
  | rejected r =>
    obtain ⟨fault, t⟩ := r
    intro hf
    obtain rfl : fault = .tooDeep := hf
    exact hdeep t rfl
  | tooDeep => exact fun _ => hdeep _ rfl

/-- Derivations of any depth are found, unless the parser gives up for want of levels. -/
theorem parseWithin_of_derives {n m : Nat} {pieces : List (List Token × Node)}
    (hp : ts = pieces.flatMap (·.1)) (hd : ∀ p ∈ pieces, Derives False m .declaration p.1 p.2)
    (hdeep : ∀ t, parseWithin n (ts ++ [e]) ≠ .error ⟨.tooDeep, t⟩) :
    parseWithin n (ts ++ [e]) = .ok (pieces.map (·.2)) := by
  rw [← parseWithin_mono hts he (Nat.le_add_right n m) hdeep]
  refine (parseWithin_ok_iff hts he).2 ⟨pieces, rfl, hp, fun p hm => ?_⟩
  exact (hd p hm).mono (Nat.le_add_left m n)

/-- Parsing accepts the tokens of the grammar, and no others, with the one tree that they fit. -/
theorem parse_exact (hc : ∀ t ∈ ts, t.Carries)
    (hdeep : ∀ t, parse (ts ++ [e]) ≠ .error ⟨.tooDeep, t⟩) :
    ((∃ as, parse (ts ++ [e]) = .ok as) ↔ Generates .program ts) ∧
      ∀ as, parse (ts ++ [e]) = .ok as ↔ Writes as ts := by
  refine ⟨⟨?_, ?_⟩, fun as => ⟨?_, ?_⟩⟩
  · rintro ⟨as, h⟩
    obtain ⟨pieces, -, hp, hd⟩ := (parseWithin_ok_iff hts he).1 h
    exact generates_program_iff.2 ⟨_, pieces, hp, hd⟩
  · intro h
    obtain ⟨n, pieces, hp, hd⟩ := generates_program_iff.1 h
    exact ⟨_, parseWithin_of_derives hts he hp hd hdeep⟩
  · intro h
    obtain ⟨pieces, rfl, rfl, hd⟩ := (parseWithin_ok_iff hts he).1 h
    have hc' : ∀ p ∈ pieces, ∀ t ∈ p.1, t.Carries :=
      fun p hp t ht => hc t (List.mem_flatMap.2 ⟨p, hp, ht⟩)
    refine ⟨Node.allPlaced_iff.2 fun a ha => ?_, .all fun p hp => (hd p hp).spells (hc' p hp)⟩
    obtain ⟨p, hp, rfl⟩ := List.mem_map.1 ha
    exact (hd p hp).admits (hc' p hp)
  · rintro ⟨hplaced, hs⟩
    obtain ⟨n, pieces, rfl, hp, hd⟩ := exists_declarations as hplaced hs
    exact parseWithin_of_derives hts he hp hd hdeep

end

/-- `if (a) if (b) x = "s" - y - z; else {}` on five lines. -/
def danglingTokens : List Token :=
  [⟨.ifWord, "if", .nil, 1⟩, ⟨.leftParen, "(", .nil, 1⟩, ⟨.identifier, "a", .nil, 1⟩,
   ⟨.rightParen, ")", .nil, 1⟩, ⟨.ifWord, "if", .nil, 2⟩, ⟨.leftParen, "(", .nil, 2⟩,
   ⟨.identifier, "b", .nil, 2⟩, ⟨.rightParen, ")", .nil, 2⟩, ⟨.identifier, "x", .nil, 3⟩,
   ⟨.equal, "=", .nil, 3⟩, ⟨.string, "\"s\"", .str "s", 3⟩, ⟨.minus, "-", .nil, 3⟩,
   ⟨.identifier, "y", .nil, 3⟩, ⟨.minus, "-", .nil, 4⟩, ⟨.identifier, "z", .nil, 4⟩,
   ⟨.semicolon, ";", .nil, 4⟩, ⟨.elseWord, "else", .nil, 5⟩, ⟨.leftBrace, "\x7b", .nil, 5⟩,
   ⟨.rightBrace, "\x7d", .nil, 5⟩]

def danglingTree : Node :=
  .ifElse (.var ⟨.identifier, "a", .nil, 1⟩)
    (.ifElse (.var ⟨.identifier, "b", .nil, 2⟩)
      (.exprStmt (.assign ⟨.identifier, "x", .nil, 3⟩
        (.binary (.binary (.literal (.str "s")) .sub (.var ⟨.identifier, "y", .nil, 3⟩) 3) .sub
          (.var ⟨.identifier, "z", .nil, 4⟩) 4)) 3)
      (some (.block [] 5)) 2)
    none 1

theorem parse_exact_dangling :
    NoEof danglingTokens ∧ (∀ t ∈ danglingTokens, t.Carries) ∧
      parse (danglingTokens ++ [.eof 5]) = .ok [danglingTree] ∧
      Generates .program danglingTokens ∧
      ∀ as, Writes as danglingTokens ↔ as = [danglingTree] := by
  have hts : NoEof danglingTokens := by simp [NoEof, danglingTokens]
  have hc : ∀ t ∈ danglingTokens, t.Carries := by simp [danglingTokens, Token.Carries]
  have hp : parse (danglingTokens ++ [.eof 5]) = .ok [danglingTree] := by rfl
  have hdeep : ∀ t, parse (danglingTokens ++ [.eof 5]) ≠ .error ⟨.tooDeep, t⟩ := by
    intro t
    rw [hp]
    intro h
    cases h
  have hexact := parse_exact hts rfl hc hdeep
  refine ⟨hts, hc, hp, hexact.1.1 ⟨_, hp⟩, fun as => ?_⟩
  rw [← hexact.2 as, hp]
  exact ⟨fun h => by cases h; rfl, fun h => by rw [h]⟩

end Lox
