import LanguageServer.Token.Payload

set_option autoImplicit false

/-! # Applying edits to flat data

The places of all edits refer to the data before any of them. They may come in any order, but they
must stay inside the data and may not overlap. -/

namespace LanguageServer.TokensEdit

/-- Why edits cannot be applied. -/
inductive Fault where
  | outOfBounds (start deleteCount : UInt32) (length : Nat)
  | overlapping (start : UInt32)
deriving DecidableEq, Repr, Inhabited

def Fault.message : Fault → String
  | .outOfBounds start deleteCount length =>
    s!"edit at {start.toNat} deleting {deleteCount.toNat} exceeds data length {length}"
  | .overlapping start => s!"edits overlap at {start.toNat}"

/-- Where the replaced numbers end. -/
def stop (e : TokensEdit) : Nat := e.start.toNat + e.deleteCount.toNat

/-- What stands in their place. -/
def insertion (e : TokensEdit) : List UInt32 := e.data.getD []

/-- The data from `cursor` on with edits in order applied. -/
def applyFrom (data : List UInt32) : (cursor : Nat) → List TokensEdit → Except Fault (List UInt32)
  | cursor, [] => .ok (data.drop cursor)
  | cursor, e :: rest =>
    if e.stop > data.length then .error (.outOfBounds e.start e.deleteCount data.length)
    else if e.start.toNat < cursor then .error (.overlapping e.start)
    else do
      let after ← applyFrom data e.stop rest
      return (data.drop cursor).take (e.start.toNat - cursor) ++ e.insertion ++ after

/-- Edits by where they start; those that start at one place keep their order. -/
def sort (edits : List TokensEdit) : List TokensEdit := edits.mergeSort fun a b => a.start ≤ b.start

/-- The data after edits. -/
def apply (data : List UInt32) (edits : List TokensEdit) : Except Fault (List UInt32) :=
  applyFrom data 0 (sort edits)

end LanguageServer.TokensEdit
