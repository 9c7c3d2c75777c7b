import Lox.Proofs.Eval.Actions
import Lox.Proofs.Grammar.Shape

/-!
# Where trees and their errors come from

`Draws ts post x`: as long as the parser `x` has only tokens of `ts` ahead, so it has when it ends;
then its result satisfies `post`, or it rejects a token of `ts`. The cursor moves only forward, which
is why what is ahead stays an end of `ts`.

Main statements: all that a parsed tree mentions is said by tokens (`Mention.From`): names are
identifiers, operators stand on the lines of their tokens, statements begin on the line of a token
(`parse_from`). A token that the parser rejects is one of those it was given (`parse_rejected_mem`).
-/

set_option autoImplicit false

namespace Lox

/-- The mention is made by one of the tokens. -/
def Mention.From (ts : List Token) : Mention → Prop
  | read x | assign x | declare x => x ∈ ts ∧ x.kind = .identifier
  | unary op line => ∃ t ∈ ts, Op.ofUnary? t.kind = some op ∧ t.line = line
  | binary op line => ∃ t ∈ ts, Op.ofBinary? t.kind = some op ∧ t.line = line
  | statement line => ∃ t ∈ ts, t.line = line

/-- All that the tree mentions is said by the tokens. -/
def Node.From (ts : List Token) (a : Node) : Prop := ∀ m ∈ a.mentions, m.From ts

theorem Level.from_join {ts : List Token} {l : Level} {mark : Token} {op : Op} {left right : Node}
    (hmark : mark ∈ ts) (hop : l.op? mark.kind = some op) (hl : left.From ts) (hr : right.From ts) :
    (l.join left op right mark.line).From ts := by
  have hsides := List.forall_mem_append.2 ⟨hl, hr⟩
  have hbinary : Op.ofBinary? mark.kind = some op → (Mention.binary op mark.line).From ts :=
    fun h => ⟨mark, hmark, h, rfl⟩
  cases l with
  | or | and => exact hsides
  | equality | comparison | term | factor =>
    refine List.forall_mem_cons.2 ⟨hbinary ?_, hsides⟩
    generalize mark.kind = k at hop
    cases k <;> cases hop <;> rfl

namespace Parse

/-- The parser has ended with tokens of `ts` ahead, and well, or at one of these tokens. -/
inductive Drawn (ts : List Token) {α : Type} (post : α → Prop) :
    EStateM.Result ParseFailure Cursor α → Prop
  | ok {a : α} {d : Cursor} (h : post a) (hd : d.ahead <:+ ts) : Drawn ts post (.ok a d)
  | rejected {e : ParseError} {d : Cursor} (h : e.token ∈ ts) (hd : d.ahead <:+ ts) :
      Drawn ts post (.error (.rejected e) d)
  | tooDeep {d : Cursor} (hd : d.ahead <:+ ts) : Drawn ts post (.error .tooDeep d)

def Draws (ts : List Token) {α : Type} (post : α → Prop) (x : Parse α) : Prop :=
  ∀ c : Cursor, c.ahead <:+ ts → Drawn ts post (x c)

end Parse

theorem Cursor.ahead_advance (c : Cursor) : c.advance.ahead <:+ c.ahead := by
  obtain ⟨t, rest⟩ := c
  unfold advance
  split
  · exact List.suffix_refl _
  · cases rest with
    | nil => exact List.suffix_refl _
    | cons next rest => exact List.suffix_cons _ _

theorem Cursor.current_mem {c : Cursor} {ts : List Token} (h : c.ahead <:+ ts) : c.current ∈ ts :=
  h.subset List.mem_cons_self

namespace Parse.Draws

variable {ts : List Token} {α β : Type} {post : α → Prop} {post' : β → Prop}

theorem pure {a : α} (h : post a) : Draws ts post (Pure.pure a) := fun _ hc => .ok h hc

theorem bind {x : Parse α} {f : α → Parse β} (hx : Draws ts post x)
    (hf : ∀ a, post a → Draws ts post' (f a)) : Draws ts post' (x >>= f) := by
  intro c hc
  have hfirst := hx c hc
  rw [bind_eq]
  generalize x c = r at hfirst
  cases hfirst with
  | ok h hd => exact hf _ h _ hd
  | rejected h hd => exact .rejected h hd
  | tooDeep hd => exact .tooDeep hd

theorem current : Draws ts (· ∈ ts) current := fun _ hc => .ok (Cursor.current_mem hc) hc

theorem ahead : Draws ts (fun _ => True) ahead := fun _ hc => .ok trivial hc

theorem check (kind : Kind) : Draws ts (fun _ => True) (check kind) := fun _ hc => .ok trivial hc

theorem advance : Draws ts (· ∈ ts) advance := fun c hc =>
  .ok (Cursor.current_mem hc) (c.ahead_advance.trans hc)

theorem eat (kind : Kind) (context : String) :
    Draws ts (fun t => t ∈ ts ∧ t.kind = kind) (eat kind context) := by
  intro c hc
  rw [eat_eq]
  split
  · rename_i hkind
    exact .ok ⟨Cursor.current_mem hc, hkind⟩ (c.ahead_advance.trans hc)
  · exact .rejected (Cursor.current_mem hc) hc

theorem reject (fault : ParseFault) : Draws ts post (reject fault) := fun _ hc =>
  .rejected (Cursor.current_mem hc) hc

theorem rejectAt (fault : ParseFault) {token : Token} (h : token ∈ ts) :
    Draws ts post (rejectAt fault token) := fun _ hc => .rejected h hc

theorem tooDeep : Draws ts post tooDeep := fun _ hc => .tooDeep hc

theorem chain (l : Level) {operand : Parse Node} (h : Draws ts (Node.From ts) operand)
    (bound : List Token) {left : Node} (hleft : left.From ts) :
    Draws ts (Node.From ts) (chain l operand bound left) := by
  induction bound generalizing left with
  | nil => exact pure hleft
  | cons _ bound ih =>
    refine bind current fun mark hmark => ?_
    cases hop : l.op? mark.kind with
    | none => exact pure hleft
    | some op =>
      exact bind advance fun _ _ => bind h fun right hright =>
        ih (Level.from_join hmark hop hleft hright)

theorem many {item : Parse Node} {post : Node → Prop} (h : Draws ts post item) (stop : Kind → Bool)
    (bound : List Token) : Draws ts (fun as => ∀ a ∈ as, post a) (many item stop bound) := by
  induction bound with
  | nil => exact pure (by simp)
  | cons _ bound ih =>
    refine bind current fun token _ => ?_
    split
    · exact pure (by simp)
    · exact bind h fun first hfirst => bind ih fun others hothers =>
        pure (List.forall_mem_cons.2 ⟨hfirst, hothers⟩)

end Parse.Draws

namespace Parse

open Draws

variable {ts : List Token}

/-- Every rule gives trees of what its tokens say, or rejects one of them. -/
theorem draws_rule (n : Nat) (r : Rule) : Draws ts (Node.From ts) (rule n r) := by
  induction n generalizing r with
  | zero => exact Draws.tooDeep
  | succ n ih =>
    cases r with
    | declaration =>
      refine bind (Draws.check _) fun b _ => ?_
      split
      · exact ih _
      · exact ih _
    | varDecl =>
      refine bind (Draws.eat _ _) fun _ _ => bind (Draws.eat _ _) fun name hname =>
        bind (Draws.check _) fun b _ => ?_
      split
      · exact bind Draws.advance fun _ _ => bind (ih _) fun _ he => bind (Draws.eat _ _) fun _ _ =>
          pure (List.forall_mem_cons.2 ⟨hname, he⟩)
      · exact bind (Draws.eat _ _) fun _ _ => pure (List.forall_mem_singleton.2 hname)
    | statement =>
      refine bind Draws.current fun token _ => ?_
      cases token.kind <;> exact ih _
    | block =>
      refine bind (Draws.eat _ _) fun token htoken => bind Draws.ahead fun bound _ =>
        bind (Draws.many (ih _) _ bound) fun as has => bind (Draws.eat _ _) fun _ _ => pure ?_
      exact List.forall_mem_cons.2 ⟨⟨token, htoken.1, rfl⟩, Node.forall_mem_allMentions.2 has⟩
    | print =>
      exact bind (Draws.eat _ _) fun token htoken => bind (ih _) fun _ he =>
        bind (Draws.eat _ _) fun _ _ =>
          pure (List.forall_mem_cons.2 ⟨⟨token, htoken.1, rfl⟩, he⟩)
    | ifElse =>
      refine bind (Draws.eat _ _) fun token htoken => bind (Draws.eat _ _) fun _ _ =>
        bind (ih _) fun _ hc => bind (Draws.eat _ _) fun _ _ => bind (ih _) fun _ ht =>
          bind (Draws.check _) fun b _ => ?_
      have hline : (Mention.statement token.line).From ts := ⟨token, htoken.1, rfl⟩
      split
      · refine bind Draws.advance fun _ _ => bind (ih _) fun _ he => pure ?_
        have hbranches := List.forall_mem_append.2 ⟨ht, he⟩
        exact List.forall_mem_cons.2 ⟨hline, List.forall_mem_append.2 ⟨hc, hbranches⟩⟩
      · exact pure (List.forall_mem_cons.2 ⟨hline, List.forall_mem_append.2 ⟨hc, ht⟩⟩)
    | whileLoop =>
      refine bind (Draws.eat _ _) fun token htoken => bind (Draws.eat _ _) fun _ _ =>
        bind (ih _) fun _ hc => bind (Draws.eat _ _) fun _ _ => bind (ih _) fun _ ht => pure ?_
      exact List.forall_mem_cons.2 ⟨⟨token, htoken.1, rfl⟩, List.forall_mem_append.2 ⟨hc, ht⟩⟩
    | exprStmt =>
      exact bind Draws.current fun token htoken => bind (ih _) fun _ he =>
        bind (Draws.eat _ _) fun _ _ => pure (List.forall_mem_cons.2 ⟨⟨token, htoken, rfl⟩, he⟩)
    | expr => exact ih _
    | assignment =>
      refine bind (ih _) fun target htarget => bind (Draws.check _) fun b _ => ?_
      split
      · refine bind Draws.advance fun equals hequals => bind (ih _) fun value hvalue => ?_
        split
        · rename_i name
          -- a name that is read is an identifier, and so it is when it is assigned
          have hname : (Mention.read name).From ts := htarget _ (List.mem_singleton_self _)
          exact pure (List.forall_mem_cons.2 ⟨hname, hvalue⟩)
        · exact Draws.rejectAt _ hequals
      · exact pure htarget
    | level l =>
      exact bind (ih _) fun left hleft => bind Draws.ahead fun bound _ =>
        Draws.chain l (ih _) bound hleft
    | unary =>
      refine bind Draws.current fun mark hmark => ?_
      cases hop : Op.ofUnary? mark.kind with
      | none => exact ih _
      | some op =>
        exact bind Draws.advance fun _ _ => bind (ih _) fun _ ho =>
          pure (List.forall_mem_cons.2 ⟨⟨mark, hmark, hop, rfl⟩, ho⟩)
    | primary =>
      refine bind Draws.current fun token htoken => ?_
      cases hkind : token.kind with
      | number | string | trueWord | falseWord | nilWord =>
        exact bind Draws.advance fun _ _ => pure (by simp [Node.From, Node.mentions])
      | identifier =>
        exact bind Draws.advance fun _ _ =>
          pure (List.forall_mem_singleton.2 ⟨htoken, hkind⟩)
      | leftParen =>
        exact bind Draws.advance fun _ _ => bind (ih _) fun _ he => bind (Draws.eat _ _) fun _ _ =>
          pure he
      | _ => exact Draws.reject _

theorem draws_topLevel (n : Nat) : Draws ts (Node.From ts) (topLevel n) := by
  intro c hc
  have hrule := draws_rule n .declaration c hc
  unfold topLevel
  generalize rule n .declaration c = r at hrule
  cases hrule with
  | ok h hd => exact .ok h hd
  | rejected h hd => exact .rejected h hd
  | tooDeep hd => exact .rejected (Cursor.current_mem hd) hd

theorem draws_program (n : Nat) : Draws ts (fun as => ∀ a ∈ as, a.From ts) (program n) :=
  bind Draws.ahead fun bound _ => Draws.many (draws_topLevel n) _ bound

end Parse

section
variable {tokens : List Token}

theorem parseWithin_from (n : Nat) (tokens : List Token) :
    match parseWithin n tokens with
    | .ok program => ∀ a ∈ program, a.From (Cursor.close tokens)
    | .error e => e.token ∈ Cursor.close tokens := by
  have hstart : (Cursor.start tokens).ahead <:+ Cursor.close tokens :=
    ⟨[], Cursor.ahead_start tokens⟩
  have hdrawn := Parse.draws_program n (Cursor.start tokens) hstart
  unfold parseWithin
  generalize Parse.program n (Cursor.start tokens) = r at hdrawn
  cases hdrawn with
  | ok h hd => exact h
  | rejected h hd => exact h
  | tooDeep hd => exact Cursor.current_mem hd

/-- The trees of an accepted program are made of what its tokens say. -/
theorem parse_from {program : List Node} (h : parse tokens = .ok program) :
    ∀ a ∈ program, a.From (Cursor.close tokens) := by
  have hfrom := parseWithin_from Parse.limit tokens
  rwa [← parse, h] at hfrom

theorem parse_rejected_mem {e : ParseError} (h : parse tokens = .error e) :
    e.token ∈ Cursor.close tokens := by
  have hfrom := parseWithin_from Parse.limit tokens
  rwa [← parse, h] at hfrom

end

/-- A statement begins on the line of one of its tokens. -/
theorem Node.From.line {ts : List Token} {a : Node} (h : a.From ts) (ha : a.isStmt = true) :
    ∃ t ∈ ts, t.line = a.line := by
  cases a with
  | varDecl x initial =>
    have hx : (Mention.declare x).From ts := by
      cases initial <;> exact h _ List.mem_cons_self
    exact ⟨x, hx.1, rfl⟩
  | exprStmt | print | whileLoop | block => exact h _ List.mem_cons_self
  | ifElse c t e => cases e <;> exact h _ List.mem_cons_self
  | _ => simp [isStmt] at ha

end Lox
