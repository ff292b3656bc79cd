import LanguageServer.Wire.Record

set_option autoImplicit false

/-! # Legends

A legend lists the names of token types and modifiers. A type is written as its place in the list;
a set of modifiers is written as a number with one bit for each, so only the first 32 can be
used. -/

namespace LanguageServer

open Wire

structure Legend where
  tokenTypes : List String
  tokenModifiers : List String
deriving DecidableEq, Repr, Inhabited

namespace Legend

/-- The code of a token type. -/
def typeIndex (l : Legend) (name : String) : Option Nat :=
  l.tokenTypes.findIdx? (· = name)

/-- The token type with this code. -/
def typeName (l : Legend) (index : Nat) : Option String := l.tokenTypes[index]?

/-- Add the bit of one modifier. -/
def addModifier (l : Legend) (bits : UInt32) (name : String) : Option UInt32 :=
  match l.tokenModifiers.findIdx? (· = name) with
  | some i => if i < 32 then some (bits ||| (1 <<< i.toUInt32)) else none
  | none => none

/-- The bits of a set of modifiers; none if one of them has no bit. -/
def modifierBits (l : Legend) (names : List String) : Option UInt32 :=
  names.foldlM l.addModifier 0

/-- The modifiers whose bit is set, in the order of the legend. -/
def modifierNames (l : Legend) (bits : UInt32) : List String :=
  ((l.tokenModifiers.take 32).zipIdx.filter fun p => bits &&& ((1 : UInt32) <<< p.2.toUInt32) ≠ 0).map
    Prod.fst

def fields : Fields Legend :=
  ((Fields.required "tokenTypes" (.list .string)).and
    (.required "tokenModifiers" (.list .string))).map
    (fun (tokenTypes, tokenModifiers) => ⟨tokenTypes, tokenModifiers⟩)
    (fun l => (l.tokenTypes, l.tokenModifiers))

def codec : Codec Legend := .record "SemanticTokensLegend" fields

end Legend

end LanguageServer
