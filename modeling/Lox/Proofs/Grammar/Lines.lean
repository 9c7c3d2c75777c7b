import Lox.Proofs.Grammar.Relabel

/-!
# The parser does not look at lines

`Relabels f g x y`: on tokens whose lines were changed by `f`, the parser `y` does what `x` does on
the tokens themselves: it ends at the same place, with the result changed by `g`, or it rejects the
same token for the same reason. One lemma for each primitive and combinator of the parser keeps this,
and `relabels_rule` follows for every rule.

Main statement (`parseWithin_relabel_eq`): tokens with other lines are parsed to the same trees with
the lines changed in the same way, or fail at the same token with the same fault.
-/

set_option autoImplicit false

namespace Lox

variable (f : Int → Int)

def Cursor.relabel (c : Cursor) : Cursor := ⟨c.current.relabel f, c.rest.map (Token.relabel f)⟩

def ParseError.relabel (e : ParseError) : ParseError := ⟨e.fault, e.token.relabel f⟩

def ParseFailure.relabel : ParseFailure → ParseFailure
  | rejected e => rejected (e.relabel f)
  | tooDeep => tooDeep

theorem Token.kind_relabel (t : Token) : (t.relabel f).kind = t.kind := rfl

theorem Cursor.advance_relabel (c : Cursor) : (c.relabel f).advance = c.advance.relabel f := by
  obtain ⟨t, rest⟩ := c
  unfold advance
  by_cases h : t.kind = .eof
  · rw [if_pos h]
    exact if_pos h
  · rw [if_neg h]
    refine (if_neg h).trans ?_
    cases rest <;> rfl

/-- What the parser `x` does, on tokens with lines changed by `f`. -/
def Relabels {α β : Type} (g : α → β) (x : Parse α) (y : Parse β) : Prop :=
  ∀ c : Cursor, y (c.relabel f) = match x c with
    | .ok a d => .ok (g a) (d.relabel f)
    | .error e d => .error (e.relabel f) (d.relabel f)

namespace Relabels

open Parse

variable {f} {α β γ δ : Type} {g : α → β} {g' : γ → δ}

theorem pure {a : α} {b : β} (h : b = g a) : Relabels f g (Pure.pure a) (Pure.pure b) := by
  intro c
  rw [h]
  rfl

theorem bind {x : Parse α} {y : Parse β} {k : α → Parse γ} {l : β → Parse δ}
    (h : Relabels f g x y) (hk : ∀ a, Relabels f g' (k a) (l (g a))) :
    Relabels f g' (x >>= k) (y >>= l) := by
  intro c
  rw [bind_eq, bind_eq, h c]
  cases x c with
  | ok a d => exact hk a d
  | error e d => rfl

theorem current : Relabels f (Token.relabel f) Parse.current Parse.current := fun _ => rfl

theorem ahead : Relabels f (List.map (Token.relabel f)) Parse.ahead Parse.ahead := fun _ => rfl

theorem advance : Relabels f (Token.relabel f) Parse.advance Parse.advance := fun c =>
  congrArg (EStateM.Result.ok (c.current.relabel f)) (Cursor.advance_relabel f c)

theorem check (kind : Kind) : Relabels f id (Parse.check kind) (Parse.check kind) := fun _ => rfl

theorem reject (fault : ParseFault) : Relabels f g (Parse.reject fault) (Parse.reject fault) :=
  fun _ => rfl

theorem rejectAt (fault : ParseFault) (t : Token) :
    Relabels f g (Parse.rejectAt fault t) (Parse.rejectAt fault (t.relabel f)) := fun _ => rfl

theorem tooDeep : Relabels f g Parse.tooDeep Parse.tooDeep := fun _ => rfl

theorem eat (kind : Kind) (context : String) :
    Relabels f (Token.relabel f) (Parse.eat kind context) (Parse.eat kind context) := by
  refine bind (check kind) fun b => ?_
  cases b with
  | true => exact advance
  | false => exact reject _

/-- Operators are joined one by one, as many as the tokens ahead allow. -/
theorem chain (l : Level) {operand : Parse Node} (h : Relabels f (Node.relabel f) operand operand)
    (ts : List Token) (left : Node) :
    Relabels f (Node.relabel f) (Parse.chain l operand ts left)
      (Parse.chain l operand (ts.map (Token.relabel f)) (left.relabel f)) := by
  induction ts generalizing left with
  | nil => exact pure rfl
  | cons t ts ih =>
    refine bind current fun mark => ?_
    rw [Token.kind_relabel]
    cases l.op? mark.kind with
    | none => exact pure rfl
    | some op =>
      refine bind advance fun _ => bind h fun right => ?_
      have := ih (l.join left op right mark.line)
      rwa [Level.relabel_join] at this

theorem many {item : Parse Node} (h : Relabels f (Node.relabel f) item item) (stop : Kind → Bool)
    (ts : List Token) :
    Relabels f (List.map (Node.relabel f)) (Parse.many item stop ts)
      (Parse.many item stop (ts.map (Token.relabel f))) := by
  induction ts with
  | nil => exact pure rfl
  | cons t ts ih =>
    refine bind current fun token => ?_
    rw [Token.kind_relabel]
    cases stop token.kind with
    | true => exact pure rfl
    | false => exact bind h fun first => bind ih fun others => pure rfl

end Relabels

namespace Parse

open Relabels

variable {f}

/-- Every rule parses tokens with other lines to the same tree with the lines changed. -/
theorem relabels_rule (n : Nat) (r : Rule) :
    Relabels f (Node.relabel f) (rule n r) (rule n r) := by
  induction n generalizing r with
  | zero => exact Relabels.tooDeep
  | succ n ih =>
    cases r with
    | declaration =>
      refine bind (Relabels.check _) fun b => ?_
      cases b with
      | true => exact ih _
      | false => exact ih _
    | varDecl =>
      refine bind (Relabels.eat _ _) fun _ => bind (Relabels.eat _ _) fun name =>
        bind (Relabels.check _) fun b => ?_
      cases b with
      | true =>
        exact bind Relabels.advance fun _ => bind (ih _) fun _ => bind (Relabels.eat _ _) fun _ =>
          pure (by simp [Node.relabel])
      | false => exact bind (Relabels.eat _ _) fun _ => pure (by simp [Node.relabel])
    | statement =>
      refine bind Relabels.current fun token => ?_
      rw [Token.kind_relabel]
      cases token.kind <;> exact ih _
    | block =>
      refine bind (Relabels.eat _ _) fun _ => bind Relabels.ahead fun ts =>
        bind (Relabels.many (ih _) _ ts) fun _ => bind (Relabels.eat _ _) fun _ => pure ?_
      simp [Node.relabel, Node.relabelAll_eq_map, Token.relabel]
    | print =>
      exact bind (Relabels.eat _ _) fun _ => bind (ih _) fun _ => bind (Relabels.eat _ _) fun _ =>
        pure (by simp [Node.relabel, Token.relabel])
    | ifElse =>
      refine bind (Relabels.eat _ _) fun _ => bind (Relabels.eat _ _) fun _ => bind (ih _) fun _ =>
        bind (Relabels.eat _ _) fun _ => bind (ih _) fun _ => bind (Relabels.check _) fun b => ?_
      cases b with
      | true =>
        exact bind Relabels.advance fun _ => bind (ih _) fun _ =>
          pure (by simp [Node.relabel, Token.relabel])
      | false => exact pure (by simp [Node.relabel, Token.relabel])
    | whileLoop =>
      exact bind (Relabels.eat _ _) fun _ => bind (Relabels.eat _ _) fun _ => bind (ih _) fun _ =>
        bind (Relabels.eat _ _) fun _ => bind (ih _) fun _ =>
          pure (by simp [Node.relabel, Token.relabel])
    | exprStmt =>
      exact bind Relabels.current fun _ => bind (ih _) fun _ => bind (Relabels.eat _ _) fun _ =>
        pure (by simp [Node.relabel, Token.relabel])
    | expr => exact ih _
    | assignment =>
      refine bind (ih _) fun target => bind (Relabels.check _) fun b => ?_
      cases b with
      | false => exact pure rfl
      | true =>
        refine bind Relabels.advance fun equals => bind (ih _) fun value => ?_
        cases target with
        | var => exact pure (by simp [Node.relabel])
        | varDecl _ e | ifElse _ _ e => cases e <;> exact Relabels.rejectAt _ equals
        | _ => exact Relabels.rejectAt _ equals
    | level l =>
      exact bind (ih _) fun left => bind Relabels.ahead fun ts => Relabels.chain l (ih _) ts left
    | unary =>
      refine bind Relabels.current fun mark => ?_
      rw [Token.kind_relabel]
      cases Op.ofUnary? mark.kind with
      | none => exact ih _
      | some op =>
        exact bind Relabels.advance fun _ => bind (ih _) fun _ =>
          pure (by simp [Node.relabel, Token.relabel])
    | primary =>
      refine bind Relabels.current fun token => ?_
      rw [Token.kind_relabel]
      cases token.kind with
      | number | string | trueWord | falseWord | nilWord | identifier =>
        exact bind Relabels.advance fun _ => pure (by simp [Node.relabel, Token.relabel])
      | leftParen =>
        exact bind Relabels.advance fun _ => bind (ih _) fun _ => bind (Relabels.eat _ _) fun _ =>
          pure (by simp [Node.relabel])
      | _ => exact Relabels.reject _

theorem relabels_topLevel (n : Nat) :
    Relabels f (Node.relabel f) (topLevel n) (topLevel n) := by
  intro c
  have h := relabels_rule (f := f) n .declaration c
  unfold topLevel
  rw [h]
  cases rule n .declaration c with
  | ok a d => rfl
  | error e d => cases e <;> rfl

theorem relabels_program (n : Nat) :
    Relabels f (List.map (Node.relabel f)) (program n) (program n) :=
  bind Relabels.ahead fun ts => Relabels.many (relabels_topLevel n) _ ts

end Parse

theorem Cursor.start_relabel {tokens : List Token} (h : tokens ≠ []) :
    start (tokens.map (Token.relabel f)) = (start tokens).relabel f := by
  have hclose : close (tokens.map (Token.relabel f)) = (close tokens).map (Token.relabel f) := by
    unfold close
    rw [List.getLast?_map]
    cases hlast : tokens.getLast? with
    | none => exact absurd (List.getLast?_eq_none_iff.1 hlast) h
    | some last =>
      have hkind := Token.kind_relabel f last
      simp only [Option.map_some]
      by_cases hk : last.kind = .eof
      · rw [if_pos hk, if_pos (hkind.trans hk)]
      · rw [if_neg hk, if_neg (hkind ▸ hk), List.map_append]
        rfl
  apply eq_of_ahead
  rw [ahead_start, hclose, ← ahead_start]
  rfl

/-- The parser does not look at lines: it makes the same trees of tokens with other lines, or fails
with the same fault at the same token. -/
theorem parseWithin_relabel_eq (n : Nat) {tokens : List Token} (h : tokens ≠ []) :
    parseWithin n (tokens.map (Token.relabel f)) =
      ((parseWithin n tokens).map (List.map (Node.relabel f))).mapError (ParseError.relabel f) := by
  unfold parseWithin
  rw [Cursor.start_relabel f h, Parse.relabels_program n]
  cases Parse.program n (Cursor.start tokens) with
  | ok as d => rfl
  | error e d => cases e <;> rfl

end Lox
