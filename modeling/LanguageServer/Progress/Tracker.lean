import LanguageServer.Progress.Payload

set_option autoImplicit false

/-! # Streams of progress reports

On each stream a begin comes first, then any number of reports, then an end; after the end the key may
be used again. A key that the server has announced to the client is held until its begin, or until it
is given up. -/

namespace LanguageServer

/-- How far a stream has come. -/
inductive ProgressPhase where
  | created
  | begun
deriving DecidableEq, Repr, Inhabited

/-- Why a report does not fit its stream. -/
inductive ProgressFault where
  | duplicateToken (token : ProgressToken)
  | alreadyBegun (token : ProgressToken)
  | notBegun (token : ProgressToken)
deriving DecidableEq, Repr, Inhabited

def ProgressFault.message : ProgressFault → String
  | .duplicateToken token => s!"progress token {token.describe} already in use"
  | .alreadyBegun token => s!"progress token {token.describe} already began"
  | .notBegun token => s!"progress token {token.describe} has not begun"

/-- The streams that are announced or running. -/
structure ProgressTracker where
  phases : List (ProgressToken × ProgressPhase)
deriving DecidableEq, Repr, Inhabited

namespace ProgressTracker

def empty : ProgressTracker := ⟨[]⟩

def phase? (t : ProgressTracker) (token : ProgressToken) : Option ProgressPhase :=
  t.phases.lookup token

def size (t : ProgressTracker) : Nat := t.phases.length

def isActive (t : ProgressTracker) (token : ProgressToken) : Bool :=
  t.phase? token = some .begun

def erase (t : ProgressTracker) (token : ProgressToken) : ProgressTracker :=
  ⟨t.phases.filter fun entry => entry.1 ≠ token⟩

def set (t : ProgressTracker) (token : ProgressToken) (phase : ProgressPhase) : ProgressTracker :=
  ⟨(t.erase token).phases ++ [(token, phase)]⟩

/-- Announce a stream. -/
def create (t : ProgressTracker) (token : ProgressToken) : Except ProgressFault ProgressTracker :=
  match t.phase? token with
  | some _ => .error (.duplicateToken token)
  | none => .ok (t.set token .created)

/-- Give up a stream that has not begun. -/
def discard (t : ProgressTracker) (token : ProgressToken) : ProgressTracker :=
  if t.phase? token = some .created then t.erase token else t

/-- Let a report pass, if it fits. -/
def advance (t : ProgressTracker) (token : ProgressToken) (value : WorkDoneProgress) :
    Except ProgressFault ProgressTracker :=
  match value, t.phase? token with
  | .begin _, none | .begin _, some .created => .ok (t.set token .begun)
  | .begin _, some .begun => .error (.alreadyBegun token)
  | .report _, some .begun => .ok t
  | .finish _, some .begun => .ok (t.erase token)
  | .report _, none | .report _, some .created
  | .finish _, none | .finish _, some .created => .error (.notBegun token)

end ProgressTracker

end LanguageServer
