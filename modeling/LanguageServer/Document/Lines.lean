import LanguageServer.Text.Bytes

set_option autoImplicit false

/-! # Lines

A line ends at a line feed, at a carriage return, or at the two of them in that order. What follows
the last end of a line is a line too, so every text has at least one. -/

namespace LanguageServer.Document

/-- Whether a character ends a line. -/
def isLineEnd (c : Char) : Bool := c == '\n' || c == '\r'

/-- The lines of a text, without what ends them. -/
def splitLines : List Char → List (List Char)
  | [] => [[]]
  | '\r' :: '\n' :: rest => [] :: splitLines rest
  | c :: rest =>
    if isLineEnd c then [] :: splitLines rest
    else match splitLines rest with
      | [] => [[c]]
      | line :: lines => (c :: line) :: lines

/-- The lines of a text. -/
def lines (text : String) : List String := (splitLines text.toList).map String.ofList

/-- Where a line starts and ends; `current` is the line at hand, `start` where it starts and `i`
how far the text has been read. -/
def lineBoundsFrom (line : Nat) : (current start i : Nat) → List Char → Option (Nat × Nat)
  | current, start, i, [] => if current = line then some (start, i) else none
  | current, start, i, '\r' :: '\n' :: rest =>
    if current = line then some (start, i)
    else lineBoundsFrom line (current + 1) (i + 2) (i + 2) rest
  | current, start, i, c :: rest =>
    if isLineEnd c then
      if current = line then some (start, i)
      else lineBoundsFrom line (current + 1) (i + 1) (i + 1) rest
    else lineBoundsFrom line current start (i + c.utf8Size) rest

/-- The byte offsets at which a line starts and ends, its terminator left out; none past the last
line. -/
def lineBounds (text : List Char) (line : Nat) : Option (Nat × Nat) :=
  lineBoundsFrom line 0 0 0 text

end LanguageServer.Document
