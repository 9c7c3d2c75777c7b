/-!
# Line ends

Text that comes from outside may end its lines by a line feed, a carriage return, or both. Reading
such text makes every line end a line feed.
-/

set_option autoImplicit false

namespace Lox.Text

/-- The text with every carriage return, and the line feed that may follow it, made a line feed. -/
def unifyNewlines : List Char → List Char
  | [] => []
  | '\r' :: '\n' :: rest => '\n' :: unifyNewlines rest
  | c :: rest => (if c = '\r' then '\n' else c) :: unifyNewlines rest

/-- The number of line feeds in a text. -/
def lineBreaks (text : List Char) : Nat := text.count '\n'

/-- The pieces of a text that line feeds separate; one more than there are line feeds. -/
def splitLines : List Char → List (List Char)
  | [] => [[]]
  | c :: rest =>
    if c = '\n' then [] :: splitLines rest
    else match splitLines rest with
      | [] => [[c]]
      | line :: lines => (c :: line) :: lines

/-- The lines of a text, where a line feed ends a line and what follows the last one is a line
unless it is empty. -/
def lines (text : List Char) : List (List Char) :=
  let pieces := splitLines text
  if pieces.getLast? = some [] then pieces.dropLast else pieces

@[simp] theorem lineBreaks_nil : lineBreaks [] = 0 := rfl

@[simp] theorem lineBreaks_append (a b : List Char) :
    lineBreaks (a ++ b) = lineBreaks a + lineBreaks b := List.count_append

end Lox.Text
