import Lox.Syntax.Node

/-!
# The cursor of the parser

A parser reads tokens through a cursor that only moves forward and stays on the first end of
source it meets. It fails by rejecting a token, or because a rule is nested too deeply; either way
the cursor stays where the failure left it.
-/

set_option autoImplicit false

namespace Lox

/-- Why tokens are rejected. -/
inductive ParseFault where
  /-- A token of another kind was expected; `context` says where, unless it is empty. -/
  | expected (kind : Kind) (context : String)
  | expectedExpression
  | invalidTarget
  | tooDeep
  /-- A fault in the words of the caller. -/
  | stated (text : String)

structure ParseError where
  fault : ParseFault
  token : Token

/-- What is wrong, in words. -/
def ParseError.detail (e : ParseError) : String :=
  let found := e.token.kind.spelling
  match e.fault with
  | .expected kind context =>
    let lexeme := e.token.lexeme
    "expected '" ++ kind.spelling ++ "' but got '" ++ found ++ "'"
      ++ (if lexeme.isEmpty || lexeme == found then "" else " (" ++ lexeme ++ ")")
      ++ (if context.isEmpty then "" else " " ++ context)
  | .expectedExpression => "expected expression but got '" ++ found ++ "'"
  | .invalidTarget => "invalid assignment target"
  | .tooDeep => "expression nested too deeply"
  | .stated text => text

/-- How parsing fails. -/
inductive ParseFailure where
  | rejected (error : ParseError)
  /-- Rules are nested more deeply than allowed. -/
  | tooDeep

/-- The current token and those after it. -/
structure Cursor where
  current : Token
  rest : List Token

namespace Cursor

/-- The tokens with an end of source after them, unless they have one; it stands on the line of the
last token. -/
def close (tokens : List Token) : List Token :=
  match tokens.getLast? with
  | none => [Token.eof 1]
  | some last => if last.kind = .eof then tokens else tokens ++ [Token.eof last.line]

/-- The cursor on the first of the tokens. -/
def start (tokens : List Token) : Cursor :=
  match close tokens with
  | [] => ⟨Token.eof 1, []⟩
  | first :: rest => ⟨first, rest⟩

/-- Moves to the next token, except at the end of source. -/
def advance (c : Cursor) : Cursor :=
  if c.current.kind = .eof then c
  else match c.rest with
    | [] => c
    | next :: rest => ⟨next, rest⟩

/-- The tokens from the current one on. -/
def ahead (c : Cursor) : List Token := c.current :: c.rest

end Cursor

abbrev Parse := EStateM ParseFailure Cursor

namespace Parse

def current : Parse Token := fun c => .ok c.current c

/-- Moves past the current token, which is the result. -/
def advance : Parse Token := fun c => .ok c.current c.advance

def check (kind : Kind) : Parse Bool := fun c => .ok (c.current.kind == kind) c

/-- Rejects the current token. -/
def reject {α : Type} (fault : ParseFault) : Parse α := fun c =>
  .error (.rejected ⟨fault, c.current⟩) c

/-- Rejects a token that has been passed. -/
def rejectAt {α : Type} (fault : ParseFault) (token : Token) : Parse α := fun c =>
  .error (.rejected ⟨fault, token⟩) c

/-- Moves past a token of the given kind and rejects any other. -/
def eat (kind : Kind) (context : String) : Parse Token := do
  if ← check kind then advance else reject (.expected kind context)

def tooDeep {α : Type} : Parse α := fun c => .error .tooDeep c

end Parse

end Lox
