import LanguageServer.Wire.Record

set_option autoImplicit false

/-! # Positions

A position counts lines from zero, and within a line it counts characters in units of an agreed
encoding. Positions are ordered by line, then by character. -/

namespace LanguageServer

open Wire

structure Position where
  line : UInt32
  character : UInt32
deriving DecidableEq, Repr, Inhabited

namespace Position

/-- Whether one position stands at or before another. -/
def le (a b : Position) : Bool :=
  a.line < b.line || (a.line = b.line && a.character ≤ b.character)

def fields : Fields Position :=
  ((Fields.required "line" .uint32).and (.required "character" .uint32)).map
    (fun (line, character) => ⟨line, character⟩) (fun p => (p.line, p.character))

def codec : Codec Position := .record "Position" fields

end Position

/-- The text between two positions. -/
structure Range where
  start : Position
  stop : Position
deriving DecidableEq, Repr, Inhabited

namespace Range

/-- The range with its ends in order. -/
def normalized (r : Range) : Range :=
  if r.start.le r.stop then r else ⟨r.stop, r.start⟩

def fields : Fields Range :=
  ((Fields.required "start" Position.codec).and (.required "end" Position.codec)).map
    (fun (start, stop) => ⟨start, stop⟩) (fun r => (r.start, r.stop))

def codec : Codec Range := .record "Range" fields

end Range

/-- The unit in which characters of a line are counted. -/
inductive PositionEncoding where
  | utf8
  | utf16
  | utf32
deriving DecidableEq, Repr, Inhabited

namespace PositionEncoding

/-- The encoding both sides fall back on. -/
def fallback : PositionEncoding := .utf16

def all : List PositionEncoding := [.utf8, .utf16, .utf32]

def name : PositionEncoding → String
  | .utf8 => "utf-8"
  | .utf16 => "utf-16"
  | .utf32 => "utf-32"

/-- The encoding with this name. -/
def ofName? (s : String) : Option PositionEncoding := all.find? fun e => e.name = s

/-- How many units a character takes. -/
def units (e : PositionEncoding) (c : Char) : Nat :=
  match e with
  | .utf8 => c.utf8Size
  | .utf16 => if c.toNat < 0x10000 then 1 else 2
  | .utf32 => 1

def codec : Codec PositionEncoding := .named all name

end PositionEncoding

end LanguageServer
