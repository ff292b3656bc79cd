import LanguageServer.Token.Payload

set_option autoImplicit false

/-! # Edit scripts

A script says how a new sequence comes from an old one, step by step. `Script.edits` gathers each run
of steps that change something into one edit. -/

namespace LanguageServer

/-- What a step does. -/
inductive StepKind where
  | equal
  | delete
  | insert
  | replace
deriving DecidableEq, Repr, Inhabited

/-- One step: a piece of the old sequence and the piece of the new one in its place. -/
structure Step where
  kind : StepKind
  oldIndex : Nat
  newIndex : Nat
  oldLength : Nat
  newLength : Nat
deriving DecidableEq, Repr, Inhabited

namespace Script

/-- An edit being gathered: where it starts, how much it deletes, what it inserts. -/
structure Pending where
  start : Nat
  deleteCount : Nat
  data : List UInt32
deriving DecidableEq, Repr

/-- The finished edit; one that inserts nothing carries no data. -/
def Pending.finish (p : Pending) : TokensEdit :=
  ⟨p.start.toUInt32, p.deleteCount.toUInt32, if p.data.isEmpty then none else some p.data⟩

/-- Add a step to the edit being gathered, or start one with it. -/
def Pending.add (new : List UInt32) (pending : Option Pending) (s : Step) : Pending :=
  let p := pending.getD ⟨s.oldIndex, 0, []⟩
  { p with
    deleteCount := p.deleteCount + s.oldLength
    data := p.data ++ (new.drop s.newIndex).take s.newLength }

/-- The edits of the steps from here on, with the edit being gathered. -/
def editsFrom (new : List UInt32) : (pending : Option Pending) → List Step → List TokensEdit
  | none, [] => []
  | some p, [] => [p.finish]
  | pending, s :: rest =>
    if s.kind = .equal then
      match pending with
      | some p => p.finish :: editsFrom new none rest
      | none => editsFrom new none rest
    else editsFrom new (some (Pending.add new pending s)) rest

/-- The edits of a script. -/
def edits (new : List UInt32) (steps : List Step) : List TokensEdit := editsFrom new none steps

end Script

end LanguageServer
