import Lox.Proofs.Grammar.Runs

/-!
# Rules under way

A parser that also tells, whenever it enters a rule, which rules are under way and where each of
them began. Without its log it is the parser itself (`run_ruleLogged`).
-/

set_option autoImplicit false

namespace Lox

/-- A rule that has been entered, and the cursor at which it began. -/
structure Entry where
  rule : Rule
  start : Cursor

/-- Parsers that tell the rules under way at each entry, also those that fail. The first argument
is the rules around; the rule entered last comes first. -/
def Logged (α : Type) :=
  List Entry → Cursor → EStateM.Result ParseFailure Cursor α × List (List Entry)

namespace Logged

variable {α β : Type}

/-- The parser alone. -/
def run (x : Logged α) (around : List Entry) : Parse α := fun c => (x around c).1

/-- A parser that enters no rule. -/
def lift (x : Parse α) : Logged α := fun _ c => (x c, [])

protected def bind (x : Logged α) (f : α → Logged β) : Logged β := fun around c =>
  match x around c with
  | (.ok a d, log) => ((f a around d).1, log ++ (f a around d).2)
  | (.error e d, log) => (.error e d, log)

instance : Monad Logged where
  pure a := lift (pure a)
  bind := Logged.bind

/-- Enters a rule. -/
def enter (r : Rule) (x : Logged α) : Logged α := fun around c =>
  ((x (⟨r, c⟩ :: around) c).1, (⟨r, c⟩ :: around) :: (x (⟨r, c⟩ :: around) c).2)

def chain (l : Level) (operand : Logged Node) : List Token → Node → Logged Node
  | [], left => pure left
  | _ :: more, left => do
    let mark ← lift Parse.current
    match l.op? mark.kind with
    | none => pure left
    | some op => do
      let _ ← lift Parse.advance
      let right ← operand
      chain l operand more (l.join left op right mark.line)

def many (item : Logged Node) (stop : Kind → Bool) : List Token → Logged (List Node)
  | [] => pure []
  | _ :: more => do
    let token ← lift Parse.current
    if stop token.kind then pure []
    else do
      let first ← item
      let others ← many item stop more
      pure (first :: others)

@[simp] theorem run_lift (x : Parse α) (around : List Entry) : (lift x).run around = x := rfl

@[simp] theorem run_pure (a : α) (around : List Entry) :
    (pure a : Logged α).run around = pure a := rfl

@[simp] theorem run_bind (x : Logged α) (f : α → Logged β) (around : List Entry) :
    (x >>= f).run around = x.run around >>= fun a => (f a).run around := by
  funext c
  rw [Parse.bind_eq]
  show (Logged.bind x f around c).1 = _
  unfold Logged.bind run
  cases h : x around c with
  | mk result log => cases result <;> rfl

@[simp] theorem run_ite (p : Prop) [Decidable p] (x y : Logged α) (around : List Entry) :
    (if p then x else y).run around = if p then x.run around else y.run around :=
  apply_ite (fun x => x.run around) p x y

@[simp] theorem run_enter (r : Rule) (x : Logged α) (around : List Entry) (c : Cursor) :
    (enter r x).run around c = x.run (⟨r, c⟩ :: around) c := rfl

theorem run_chain {operand : Logged Node} {operand' : Parse Node} {around : List Entry}
    (h : operand.run around = operand') (l : Level) (more : List Token) (left : Node) :
    (chain l operand more left).run around = Parse.chain l operand' more left := by
  induction more generalizing left with
  | nil => rfl
  | cons t more ih =>
    simp only [chain, Parse.chain, run_bind, run_lift]
    congr
    funext mark
    cases l.op? mark.kind with
    | none => rfl
    | some op => simp only [run_bind, run_lift, h, ih]

theorem run_many {item : Logged Node} {item' : Parse Node} {around : List Entry}
    (h : item.run around = item') (stop : Kind → Bool) (more : List Token) :
    (many item stop more).run around = Parse.many item' stop more := by
  induction more with
  | nil => rfl
  | cons t more ih =>
    simp only [many, Parse.many, run_bind, run_lift]
    congr
    funext token
    split
    · rfl
    · simp only [run_bind, run_pure, h, ih]

end Logged

namespace Parse

/-- Parses a rule, through at most `levels` rules inside one another, and tells the rules under way
at each entry. -/
def ruleLogged : (levels : Nat) → Rule → Logged Node
  | 0, r => .enter r (.lift tooDeep)
  | levels + 1, r => .enter r <| match r with
    | .declaration => do
      if ← .lift (check .varWord) then ruleLogged levels .varDecl
      else ruleLogged levels .statement
    | .varDecl => do
      let _ ← .lift (eat .varWord "")
      let name ← .lift (eat .identifier "after 'var'")
      if ← .lift (check .equal) then do
        let _ ← .lift advance
        let initial ← ruleLogged levels .expr
        let _ ← .lift (eat .semicolon "after variable declaration")
        pure (.varDecl name (some initial))
      else do
        let _ ← .lift (eat .semicolon "after variable declaration")
        pure (.varDecl name none)
    | .statement => do
      let token ← .lift current
      ruleLogged levels (Rule.formOf token.kind)
    | .block => do
      let token ← .lift (eat .leftBrace "")
      let more ← .lift ahead
      let statements ← .many (ruleLogged levels .declaration) endsBlock more
      let _ ← .lift (eat .rightBrace "after block")
      pure (.block statements token.line)
    | .print => do
      let token ← .lift (eat .printWord "")
      let e ← ruleLogged levels .expr
      let _ ← .lift (eat .semicolon "after value")
      pure (.print e token.line)
    | .ifElse => do
      let token ← .lift (eat .ifWord "")
      let _ ← .lift (eat .leftParen "after 'if'")
      let condition ← ruleLogged levels .expr
      let _ ← .lift (eat .rightParen "after if condition")
      let thenBranch ← ruleLogged levels .statement
      if ← .lift (check .elseWord) then do
        let _ ← .lift advance
        let elseBranch ← ruleLogged levels .statement
        pure (.ifElse condition thenBranch (some elseBranch) token.line)
      else pure (.ifElse condition thenBranch none token.line)
    | .whileLoop => do
      let token ← .lift (eat .whileWord "")
      let _ ← .lift (eat .leftParen "after 'while'")
      let condition ← ruleLogged levels .expr
      let _ ← .lift (eat .rightParen "after while condition")
      let body ← ruleLogged levels .statement
      pure (.whileLoop condition body token.line)
    | .exprStmt => do
      let token ← .lift current
      let e ← ruleLogged levels .expr
      let _ ← .lift (eat .semicolon "after expression")
      pure (.exprStmt e token.line)
    | .expr => ruleLogged levels .assignment
    | .assignment => do
      let target ← ruleLogged levels (.level .or)
      if ← .lift (check .equal) then do
        let equals ← .lift advance
        let value ← ruleLogged levels .assignment
        match target with
        | .var name => pure (.assign name value)
        | _ => .lift (rejectAt .invalidTarget equals)
      else pure target
    | .level l => do
      let left ← ruleLogged levels l.operand
      let more ← .lift ahead
      .chain l (ruleLogged levels l.operand) more left
    | .unary => do
      let mark ← .lift current
      match Op.ofUnary? mark.kind with
      | some op => do
        let _ ← .lift advance
        let operand ← ruleLogged levels .unary
        pure (.unary op operand mark.line)
      | none => ruleLogged levels .primary
    | .primary => do
      let token ← .lift current
      match token.kind with
      | .number | .string => do
        let _ ← .lift advance
        pure (.literal token.literal)
      | .trueWord => do
        let _ ← .lift advance
        pure (.literal (.bool true))
      | .falseWord => do
        let _ ← .lift advance
        pure (.literal (.bool false))
      | .nilWord => do
        let _ ← .lift advance
        pure (.literal .nil)
      | .identifier => do
        let _ ← .lift advance
        pure (.var token)
      | .leftParen => do
        let _ ← .lift advance
        let inner ← ruleLogged levels .expr
        let _ ← .lift (eat .rightParen "after expression")
        pure (.grouping inner)
      | _ => .lift (reject .expectedExpression)

/-- Without its log a rule is parsed as it is, whatever rules are around. -/
theorem run_ruleLogged (n : Nat) (r : Rule) (around : List Entry) :
    (ruleLogged n r).run around = rule n r := by
  induction n generalizing r around with
  | zero => rfl
  | succ n ih =>
    funext c
    unfold ruleLogged
    rw [Logged.run_enter]
    cases r with
    | statement =>
      rw [rule_statement]
      simp only [Logged.run_bind, Logged.run_lift, ih]
      rfl
    | block =>
      simp only [rule, Logged.run_bind, Logged.run_lift, Logged.run_pure,
        Logged.run_many (ih _ _)]
      rfl
    | assignment =>
      simp only [rule, Logged.run_bind, Logged.run_lift, Logged.run_pure, Logged.run_ite, ih]
      refine congrFun (bind_congr fun target => ?_) c
      cases target <;> rfl
    | level l =>
      simp only [rule, Logged.run_bind, Logged.run_lift, Logged.run_chain (ih _ _), ih]
    | unary =>
      simp only [rule, Logged.run_bind, Logged.run_lift]
      refine congrFun (bind_congr fun mark => ?_) c
      cases Op.ofUnary? mark.kind with
      | none => exact ih _ _
      | some op => simp only [Logged.run_bind, Logged.run_lift, Logged.run_pure, ih]
    | primary =>
      simp only [rule, Logged.run_bind, Logged.run_lift]
      refine congrFun (bind_congr fun token => ?_) c
      cases token.kind with
      | leftParen => simp only [Logged.run_bind, Logged.run_lift, Logged.run_pure, ih]
      | _ => rfl
    | declaration | varDecl | print | ifElse | whileLoop | exprStmt | expr =>
      simp only [rule, Logged.run_bind, Logged.run_lift, Logged.run_pure, Logged.run_ite, ih]

end Parse

end Lox
