import Lox.Value

/-!
# Tokens

The kinds of token, how each is spelled, and the token itself. A kind that stands for one fixed
text is spelled as that text; words are reserved in any letter case.
-/

set_option autoImplicit false

namespace Lox

inductive Kind where
  | leftParen | rightParen | leftBrace | rightBrace | comma | dot | minus | plus | semicolon
  | slash | star
  | bang | bangEqual | equal | equalEqual | greater | greaterEqual | less | lessEqual
  | andWord | classWord | elseWord | falseWord | funWord | forWord | ifWord | nilWord | orWord
  | printWord | returnWord | superWord | thisWord | trueWord | varWord | whileWord
  | identifier | string | number | eof
deriving DecidableEq, Repr

namespace Kind

/-- The text of a kind in messages; for marks and reserved words the text they are written as. -/
def spelling : Kind → String
  | leftParen => "(" | rightParen => ")" | leftBrace => "\x7b" | rightBrace => "\x7d"
  | comma => "," | dot => "." | minus => "-" | plus => "+" | semicolon => ";" | slash => "/"
  | star => "*" | bang => "!" | bangEqual => "!=" | equal => "=" | equalEqual => "=="
  | greater => ">" | greaterEqual => ">=" | less => "<" | lessEqual => "<="
  | andWord => "and" | classWord => "class" | elseWord => "else" | falseWord => "false"
  | funWord => "fun" | forWord => "for" | ifWord => "if" | nilWord => "nil" | orWord => "or"
  | printWord => "print" | returnWord => "return" | superWord => "super" | thisWord => "this"
  | trueWord => "true" | varWord => "var" | whileWord => "while" | identifier => "identifier"
  | string => "string" | number => "number" | eof => "EOF"

/-- The name of a kind in dumps. -/
def name : Kind → String
  | leftParen => "LPAREN" | rightParen => "RPAREN" | leftBrace => "LBRACE"
  | rightBrace => "RBRACE" | comma => "COMMA" | dot => "DOT" | minus => "MINUS" | plus => "PLUS"
  | semicolon => "SEMICOLON" | slash => "SLASH" | star => "STAR" | bang => "BANG"
  | bangEqual => "BANG_EQUAL" | equal => "EQUAL" | equalEqual => "EQUAL_EQUAL"
  | greater => "GREATER" | greaterEqual => "GREATER_EQUAL" | less => "LESS"
  | lessEqual => "LESS_EQUAL" | andWord => "AND" | classWord => "CLASS" | elseWord => "ELSE"
  | falseWord => "FALSE" | funWord => "FUN" | forWord => "FOR" | ifWord => "IF"
  | nilWord => "NIL" | orWord => "OR" | printWord => "PRINT" | returnWord => "RETURN"
  | superWord => "SUPER" | thisWord => "THIS" | trueWord => "TRUE" | varWord => "VAR"
  | whileWord => "WHILE" | identifier => "IDENTIFIER" | string => "STRING" | number => "NUMBER"
  | eof => "EOF"

/-- The kinds spelled as marks. -/
def marks : List Kind :=
  [leftParen, rightParen, leftBrace, rightBrace, comma, dot, minus, plus, semicolon, slash, star,
   bang, bangEqual, equal, equalEqual, greater, greaterEqual, less, lessEqual]

/-- The reserved words. -/
def reserved : List Kind :=
  [andWord, classWord, elseWord, falseWord, funWord, forWord, ifWord, nilWord, orWord, printWord,
   returnWord, superWord, thisWord, trueWord, varWord, whileWord]

def all : List Kind := marks ++ reserved ++ [identifier, string, number, eof]

theorem mem_all (k : Kind) : k ∈ all := by cases k <;> decide

/-- The kind of a mark. -/
def ofMark? (text : List Char) : Option Kind := marks.find? (·.spelling.toList == text)

/-- A word in upper case, by which reserved words are known. -/
def upperCase (word : List Char) : List Char := word.map Char.toUpper

/-- The key of a reserved word in any letter case. -/
def key (k : Kind) : List Char := upperCase k.spelling.toList

/-- The kind of a word: reserved in any letter case, an identifier otherwise. -/
def ofWord (word : List Char) : Kind :=
  (reserved.find? (·.key == upperCase word)).getD identifier

def ofName? (name : String) : Option Kind := all.find? (·.name == name)

end Kind

/-- A token. `literal` is what a number or a string stands for, and `nil` elsewhere. -/
structure Token where
  kind : Kind
  lexeme : String
  literal : Value
  line : Int

namespace Token

/-- The token as a dump shows it, by its literal if it has one. -/
def dump (t : Token) : String :=
  let content := match t.literal with
    | .nil => Text.quote t.lexeme
    | v => v.dump
  "Token(" ++ t.kind.name ++ ", " ++ content ++ ", line=" ++ toString t.line ++ ")"

/-- The end of the source. -/
def eof (line : Int) : Token := ⟨.eof, "", .nil, line⟩

end Token

end Lox
