import LanguageServer.Document.Position

set_option autoImplicit false

/-! # Tokens and their flat data

A token has absolute coordinates. On the wire tokens stand in order and each is five numbers: lines
since the token before, columns since it if it stands on the same line, length, type and
modifiers. -/

namespace LanguageServer

structure SemanticToken where
  line : UInt32
  start : UInt32
  length : UInt32
  tokenType : UInt32
  tokenModifiers : UInt32
deriving DecidableEq, Repr, Inhabited

/-- Why flat data stands for no tokens. -/
inductive TokenDataFault where
  /-- The length is not a multiple of five. -/
  | truncated (length : Nat)
  /-- A coordinate does not fit 32 bits. -/
  | overflow (index : Nat)
deriving DecidableEq, Repr, Inhabited

def TokenDataFault.message : TokenDataFault → String
  | .truncated length => s!"token data length {length} is not a multiple of 5"
  | .overflow index => s!"token {index} overflows absolute coordinates"

namespace SemanticToken

/-- Tokens are ordered by where they start. -/
def le (a b : SemanticToken) : Bool :=
  a.line < b.line || (a.line = b.line && a.start ≤ b.start)

/-- Tokens in order; those that start at one place keep theirs. -/
def sort (tokens : List SemanticToken) : List SemanticToken := tokens.mergeSort le

/-- The data of tokens in order, after a token at `line` and `start`. -/
def encodeFrom (line start : UInt32) : List SemanticToken → List UInt32
  | [] => []
  | t :: rest =>
    let deltaLine := t.line - line
    let deltaStart := if deltaLine = 0 then t.start - start else t.start
    [deltaLine, deltaStart, t.length, t.tokenType, t.tokenModifiers] ++
      encodeFrom t.line t.start rest

/-- The flat data of tokens. -/
def encode (tokens : List SemanticToken) : List UInt32 := encodeFrom 0 0 (sort tokens)

/-- The sum of two numbers, if it fits 32 bits. -/
def checkedAdd (a b : UInt32) : Option UInt32 :=
  if a.toNat + b.toNat < 4294967296 then some (a + b) else none

/-- The tokens of data, after `index` tokens of which the last stands at `line` and `start`. -/
def decodeFrom (index : Nat) (line start : UInt32) :
    List UInt32 → Except TokenDataFault (List SemanticToken)
  | deltaLine :: deltaStart :: length :: tokenType :: tokenModifiers :: rest =>
    let place : Option (UInt32 × UInt32) := do
      let line ← checkedAdd line deltaLine
      let start ← if deltaLine = 0 then checkedAdd start deltaStart else some deltaStart
      return (line, start)
    match place with
    | none => .error (.overflow index)
    | some (line, start) => do
      let tokens ← decodeFrom (index + 1) line start rest
      return ⟨line, start, length, tokenType, tokenModifiers⟩ :: tokens
  | _ => .ok []

/-- The tokens that flat data stands for. -/
def decode (data : List UInt32) : Except TokenDataFault (List SemanticToken) :=
  if data.length % 5 = 0 then decodeFrom 0 0 0 data else .error (.truncated data.length)

/-- The column after a token; one beyond 32 bits stands for the last. -/
def stop (t : SemanticToken) : UInt32 :=
  if t.start.toNat + t.length.toNat < 4294967296 then t.start + t.length else 4294967295

/-- Whether a token lies partly between two positions. -/
def overlaps (r : Range) (t : SemanticToken) : Bool :=
  (t.line > r.start.line || (t.line = r.start.line && t.stop > r.start.character)) &&
  (t.line < r.stop.line || (t.line = r.stop.line && t.start < r.stop.character))

/-- The tokens that lie partly in a range, in their order. -/
def inRange (tokens : List SemanticToken) (r : Range) : List SemanticToken :=
  tokens.filter (overlaps r.normalized)

end SemanticToken

end LanguageServer
