import LanguageServer.Wire.Codec

set_option autoImplicit false

/-! # Keys chosen by a sender

Requests and streams of progress reports carry a key that is a number or a text. The two kinds of
key never mix, so they are two types. -/

namespace LanguageServer

open Wire

/-- The key of a request. -/
inductive RequestId where
  | number (n : Int64)
  | text (s : String)
deriving DecidableEq, Repr, Inhabited

/-- The key of a stream of progress reports. -/
inductive ProgressToken where
  | number (n : Int64)
  | text (s : String)
deriving DecidableEq, Repr, Inhabited

/-- An integer of 64 bits in decimal. -/
def int64Text (n : Int64) : String := String.ofList (Json.intChars n.toInt)

namespace RequestId

def codec : Codec RequestId :=
  (Codec.either "RequestId" .int64 .string).map
    (fun | .inl n => .number n | .inr s => .text s)
    (fun | .number n => .inl n | .text s => .inr s)

/-- The id as shown to people: texts stand in quotes. -/
def display : RequestId → String
  | .number n => int64Text n
  | .text s => Text.quoted s

/-- The id with the kind of its key. -/
def describe : RequestId → String
  | .number n => s!"Number({int64Text n})"
  | .text s => s!"String({Text.quoted s})"

/-- The id a value stands for. -/
def ofJson? : Json → Option RequestId
  | .num (.int n) =>
    if -9223372036854775808 ≤ n ∧ n < 9223372036854775808 then some (.number (Int64.ofInt n))
    else none
  | .str s => some (.text s)
  | _ => none

def toJson : RequestId → Json
  | .number n => .int n.toInt
  | .text s => .str s

end RequestId

namespace ProgressToken

def codec : Codec ProgressToken :=
  (Codec.either "ProgressToken" .int64 .string).map
    (fun | .inl n => .number n | .inr s => .text s)
    (fun | .number n => .inl n | .text s => .inr s)

/-- The token as shown to people: texts stand in quotes. -/
def display : ProgressToken → String
  | .number n => int64Text n
  | .text s => Text.quoted s

/-- The token with the kind of its key. -/
def describe : ProgressToken → String
  | .number n => s!"Number({int64Text n})"
  | .text s => s!"String({Text.quoted s})"

end ProgressToken

end LanguageServer
