import Lox.Text.Newline
import Lox.Token

/-!
# Scanning

Source is cut into segments from the left. A segment is a string, a number, a word, a comment, a
mark, a line feed or a run of blanks; each of the first three and each mark becomes a token, the
others are dropped. The first place where no segment can be cut, or where a number has two points,
is the error. Lines are counted by the line feeds of the segments passed.
-/

set_option autoImplicit false

namespace Lox

/-- Why source cannot be scanned. -/
inductive ScanFault where
  /-- A string that the source ends in; more text may close it. -/
  | unterminated
  /-- A number with more than one point. -/
  | invalidNumber (text : List Char)
  /-- A character that starts no segment. -/
  | stray (c : Char)

structure ScanError where
  fault : ScanFault
  line : Int

namespace ScanFault

def detail : ScanFault → String
  | unterminated => "unterminated string"
  | invalidNumber text => "invalid number literal " ++ Text.quote (String.ofList text)
  | stray c => "failed to scan token " ++ Text.quote (String.ofList [c])

/-- Whether the source stops too early to be scanned. -/
def incomplete : ScanFault → Bool
  | unterminated => true
  | _ => false

end ScanFault

/-! ## Segments -/

inductive Shape where
  | string | number | word | comment | mark | newline | blank
deriving DecidableEq, Repr

/-- A piece of source of one shape. -/
structure Segment where
  shape : Shape
  text : List Char
deriving DecidableEq, Repr

namespace Segment

def isNumberPart (c : Char) : Bool := Text.isDigit c || c == '.'

def isWordStart (c : Char) : Bool := c.isAlpha || c == '_'

def isWordPart (c : Char) : Bool := c.isAlphanum || c == '_'

/-- A blank between tokens, line feeds apart. -/
def isSpace (c : Char) : Bool := c == ' ' || c == '\r' || c == '\t'

def isQuote (c : Char) : Bool := c == '"'

/-- A segment that starts with `c` and goes on for as long as `part` holds. -/
def run (shape : Shape) (part : Char → Bool) (c : Char) (rest : List Char) :
    Segment × List Char :=
  (⟨shape, c :: rest.takeWhile part⟩, rest.dropWhile part)

/-- Cuts a string whose opening quote `c` has been passed. -/
def cutString (c : Char) (rest : List Char) : Except ScanFault (Segment × List Char) :=
  match rest.dropWhile (!isQuote ·) with
  | [] => .error .unterminated
  | close :: after => .ok (⟨.string, c :: rest.takeWhile (!isQuote ·) ++ [close]⟩, after)

/-- Cuts a mark, of two characters where there is one, or else nothing. -/
def cutMark? (c : Char) (rest : List Char) : Option (Segment × List Char) :=
  if (Kind.ofMark? (c :: rest.take 1)).isSome then
    some (⟨.mark, c :: rest.take 1⟩, rest.drop 1)
  else if (Kind.ofMark? [c]).isSome then some (⟨.mark, [c]⟩, rest)
  else none

/-- Cuts the first segment of the source `c :: rest`. -/
def cut (c : Char) (rest : List Char) : Except ScanFault (Segment × List Char) :=
  if isQuote c then cutString c rest
  else if Text.isDigit c then .ok (run .number isNumberPart c rest)
  else if isWordStart c then .ok (run .word isWordPart c rest)
  else if c == '/' && rest.head? == some '/' then .ok (run .comment (· != '\n') c rest)
  else if c == '\n' then .ok (⟨.newline, [c]⟩, rest)
  else if isSpace c then .ok (run .blank isSpace c rest)
  else match cutMark? c rest with
    | some found => .ok found
    | none => .error (.stray c)

/-- A cut takes the first character and a stretch after it, and loses nothing. -/
theorem cut_eq_ok {c : Char} {rest : List Char} {s : Segment} {after : List Char}
    (h : cut c rest = .ok (s, after)) : ∃ more, s.text = c :: more ∧ more ++ after = rest := by
  have hrun : ∀ {shape part}, run shape part c rest = (s, after) →
      ∃ more, s.text = c :: more ∧ more ++ after = rest := by
    intro shape part e
    cases e
    exact ⟨_, rfl, List.takeWhile_append_dropWhile⟩
  unfold cut at h
  split at h
  · unfold cutString at h
    split at h
    · cases h
    · rename_i close more e
      cases h
      refine ⟨rest.takeWhile (!isQuote ·) ++ [close], rfl, ?_⟩
      rw [List.append_assoc, List.singleton_append, ← e]
      exact List.takeWhile_append_dropWhile
  · split at h
    · exact hrun (by simpa using h)
    · split at h
      · exact hrun (by simpa using h)
      · split at h
        · exact hrun (by simpa using h)
        · split at h
          · cases h; exact ⟨[], rfl, rfl⟩
          · split at h
            · exact hrun (by simpa using h)
            · split at h
              · rename_i found e
                cases h
                unfold cutMark? at e
                split at e
                · cases e; exact ⟨_, rfl, List.take_append_drop 1 rest⟩
                · split at e
                  · cases e; exact ⟨[], rfl, rfl⟩
                  · cases e
              · cases h

theorem length_cut_le {c : Char} {rest : List Char} {s : Segment} {after : List Char}
    (h : cut c rest = .ok (s, after)) : after.length ≤ rest.length := by
  obtain ⟨more, -, rfl⟩ := cut_eq_ok h
  simp

/-- The token of a segment, if it has one. -/
def token? (line : Int) (s : Segment) : Except ScanFault (Option Token) :=
  let lexeme := String.ofList s.text
  match s.shape with
  | .string => .ok (some ⟨.string, lexeme, .str (String.ofList (s.text.drop 1).dropLast), line⟩)
  | .number =>
    match Number.ofLiteral? s.text with
    | some x => .ok (some ⟨.number, lexeme, .num x, line⟩)
    | none => .error (.invalidNumber s.text)
  | .word => .ok (some ⟨Kind.ofWord s.text, lexeme, .nil, line⟩)
  | .mark => .ok ((Kind.ofMark? s.text).map fun kind => ⟨kind, lexeme, .nil, line⟩)
  | .comment | .newline | .blank => .ok none

end Segment

/-! ## Tokens -/

/-- The tokens of source whose first character is on line `line`, the end among them. -/
def scanFrom (line : Int) : List Char → Except ScanError (List Token)
  | [] => .ok [Token.eof line]
  | c :: rest =>
    match _h : Segment.cut c rest with
    | .error fault => .error ⟨fault, line⟩
    | .ok (segment, after) =>
      match segment.token? line with
      | .error fault => .error ⟨fault, line⟩
      | .ok token =>
        match scanFrom (line + Text.lineBreaks segment.text) after with
        | .error e => .error e
        | .ok tokens => .ok (token.toList ++ tokens)
termination_by source => source.length
decreasing_by exact Nat.lt_succ_of_le (Segment.length_cut_le _h)

/-- The tokens of a source text, closed by one that marks its end. -/
def scan (source : String) : Except ScanError (List Token) := scanFrom 1 source.toList

end Lox
