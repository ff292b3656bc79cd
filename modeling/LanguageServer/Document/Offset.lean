import LanguageServer.Document.Lines
import LanguageServer.Document.Position

set_option autoImplicit false

/-! # Positions and byte offsets

Any position has an offset: a character past the end of its line stands for the end of the line, a
unit inside a character for where the character starts, a line past the last for the end of the
text. Any offset has a position: one past the end stands for the end, one inside a character for
where it starts, and one between the two characters of a line end for the end of the line. -/

namespace LanguageServer.Document

/-- How many bytes of a line the first `target` units take, whole characters only; `units` and
`bytes` have been passed. -/
def columnOffset (e : PositionEncoding) (target : Nat) : (units bytes : Nat) → List Char → Nat
  | _, bytes, [] => bytes
  | units, bytes, c :: rest =>
    if target ≤ units then bytes
    else if target < units + e.units c then bytes
    else columnOffset e target (units + e.units c) (bytes + c.utf8Size) rest

/-- The byte offset of a position. -/
def offsetOf (text : List Char) (p : Position) (e : PositionEncoding) : Nat :=
  match lineBounds text p.line.toNat with
  | none => Text.byteLength text
  | some (start, stop) =>
    start + columnOffset e p.character.toNat 0 0 (Text.slice start stop text)

/-- The line and column at an offset where a character starts; `line`, `column` and `i` have been
reached. -/
def positionFrom (e : PositionEncoding) (offset : Nat) :
    (line column i : Nat) → List Char → Nat × Nat
  | line, column, _, [] => (line, column)
  | line, column, i, '\r' :: '\n' :: rest =>
    if offset ≤ i + 1 then (line, column)
    else positionFrom e offset (line + 1) 0 (i + 2) rest
  | line, column, i, c :: rest =>
    if offset ≤ i then (line, column)
    else if isLineEnd c then positionFrom e offset (line + 1) 0 (i + 1) rest
    else positionFrom e offset line (column + e.units c) (i + c.utf8Size) rest

/-- The position of a byte offset. -/
def positionOf (text : List Char) (offset : Nat) (e : PositionEncoding) : Position :=
  let (line, column) := positionFrom e (Text.floorBoundary offset text) 0 0 0 text
  ⟨line.toUInt32, column.toUInt32⟩

end LanguageServer.Document
