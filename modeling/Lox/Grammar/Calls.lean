import Lox.Grammar.Rule

/-!
# Parsing step by step

A parser can be driven one call at a time: look at the current token, move past it, or parse any
rule. A call that fails leaves the cursor where the failure left it, and the next call goes on
there.
-/

set_option autoImplicit false

namespace Lox

/-- A list of tokens closed by an end of source, and a cursor in it. -/
structure Parsing where
  tokens : List Token
  cursor : Cursor

inductive Parsing.Call where
  /-- Is the current token of one of these kinds? -/
  | check (kinds : List Kind)
  | advance
  | eat (kind : Kind) (context : String)
  /-- The error of rejecting a token, the current one if none is given, in the caller's words. -/
  | complain (text : String) (token? : Option Token)
  | program
  | rule (r : Rule)

inductive Parsing.Reply where
  | answer (b : Bool)
  | token (t : Token)
  | complaint (e : ParseError)
  | program (nodes : List Node)
  | node (n : Node)

namespace Parsing

def start (tokens : List Token) : Parsing := ⟨Cursor.close tokens, Cursor.start tokens⟩

/-- The number of tokens that have been passed. -/
def position (p : Parsing) : Nat := p.tokens.length - p.cursor.ahead.length

def Call.parse : Call → Parse Reply
  | .check kinds => return .answer (kinds.contains (← Parse.current).kind)
  | .advance => return .token (← Parse.advance)
  | .eat kind context => return .token (← Parse.eat kind context)
  | .complain text (some token) => return .complaint ⟨.stated text, token⟩
  | .complain text none => return .complaint ⟨.stated text, ← Parse.current⟩
  | .program => return .program (← Parse.program Parse.limit)
  | .rule r => return .node (← Parse.rule Parse.limit r)

/-- Makes a call: what it replies, and the parsing that later calls go on from. -/
def call (p : Parsing) (c : Call) : Except ParseFailure Reply × Parsing :=
  match c.parse p.cursor with
  | .ok reply cursor => (.ok reply, { p with cursor := cursor })
  | .error failure cursor => (.error failure, { p with cursor := cursor })

end Parsing

end Lox
