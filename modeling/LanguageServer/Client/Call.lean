import LanguageServer.Client.Link
import LanguageServer.Progress.Tracker

set_option autoImplicit false

/-! # One call to the client

A call gets its number, is sent, and waits. It ends when the client answers, when it has waited too
long, when it cannot be sent, or when the connection ends. Each of these is a step of its own, since
other things can happen between any two of them. Whoever makes a call can set a limit to it, and
gives it up when that is reached, however far it has come. -/

namespace LanguageServer

/-- A call to the client, to be given up after some milliseconds if it says so. -/
structure Call where
  method : String
  params : Option Json
  within : Option Nat
deriving DecidableEq, Repr, Inhabited

/-- Parameters that are null are left out. -/
def paramsOf (j : Json) : Option Json := if j = .null then none else some j

/-- Why a call to the client has no answer. -/
inductive CallFault where
  | response (method : String) (error : ResponseError)
  | abandoned (method : String)
  | timedOut (method : String) (milliseconds : Nat)
  | disconnected
  | progress (fault : ProgressFault)
deriving DecidableEq, Repr, Inhabited

/-- A span of time, in the unit that suits it. -/
def durationText (milliseconds : Nat) : String :=
  if milliseconds = 0 then "0ns"
  else if milliseconds < 1000 then s!"{milliseconds}ms"
  else
    let digits := (Nat.toDigits 10 (1000 + milliseconds % 1000)).drop 1
    let fraction := (digits.reverse.dropWhile (· == '0')).reverse
    let whole := s!"{milliseconds / 1000}"
    if fraction.isEmpty then s!"{whole}s" else s!"{whole}.{String.ofList fraction}s"

namespace CallFault

def message : CallFault → String
  | .response method error => s!"client answered {method} with an error: {error.display}"
  | .abandoned method => s!"{method} abandoned: connection closed before a response"
  | .timedOut method milliseconds => s!"{method} timed out after {durationText milliseconds}"
  | .disconnected => "connection writer is closed"
  | .progress fault => fault.message

/-- The kind of the fault. -/
def kind : CallFault → String
  | .response .. => "Response"
  | .abandoned _ => "Abandoned"
  | .timedOut .. => "TimedOut"
  | .disconnected => "Disconnected"
  | .progress _ => "Progress"

end CallFault

/-- How a call to the client ended. -/
inductive CallResult where
  | answered (value : Json)
  | failed (fault : CallFault)
  /-- Whoever made the call did not want to wait any longer. -/
  | gaveUp
deriving DecidableEq, Repr, Inhabited

/-- How far a call has come. -/
inductive CallStage where
  /-- It has no number yet. -/
  | planned
  /-- It has a number and is still to be sent. -/
  | issued (id : RequestId)
  /-- It could not be sent. -/
  | unsent (id : RequestId)
  /-- It has been sent and is about to wait. -/
  | sent (id : RequestId)
  /-- It waits for the client, until its timer goes off. -/
  | waiting (id : RequestId) (timeout : Timer)
  /-- It has waited too long. -/
  | expired (id : RequestId)
  /-- It is given up, and the client is still to be told. -/
  | withdrawn (id : RequestId)
  | ended (result : CallResult)
deriving DecidableEq, Repr, Inhabited

/-- A call and how far it has come. -/
structure OngoingCall where
  call : Call
  /-- When whoever made the call gives it up. -/
  limit : Option Timer
  stage : CallStage
deriving DecidableEq, Repr, Inhabited

namespace OngoingCall

/-- Start to make a call. -/
def plan (call : Call) (l : Link) : OngoingCall × Link :=
  match call.within with
  | none => (⟨call, none, .planned⟩, l)
  | some within =>
    let (limit, l) := l.setTimer within
    (⟨call, some limit, .planned⟩, l)

/-- Start to make calls, one after another. -/
def planAll : List Call → Link → List OngoingCall × Link
  | [], l => ([], l)
  | call :: rest, l =>
    let (o, l) := plan call l
    let (os, l) := planAll rest l
    (o :: os, l)

def result? (o : OngoingCall) : Option CallResult :=
  match o.stage with
  | .ended result => some result
  | _ => none

/-- The timers that the call waits for. -/
def timers (o : OngoingCall) : List Timer :=
  match o.stage with
  | .ended _ => []
  | .waiting _ timeout => timeout :: o.limit.toList
  | _ => o.limit.toList

/-- The number of a call that is to be withdrawn if nobody waits for it any more. -/
def open? (o : OngoingCall) : Option RequestId :=
  match o.stage with
  | .issued id | .sent id | .waiting id _ => some id
  | _ => none

/-- Whether there is a next step for the call now. -/
def canStep (l : Link) (o : OngoingCall) : Bool :=
  match o.stage with
  | .planned | .issued _ | .unsent _ | .sent _ | .expired _ | .withdrawn _ => true
  | .waiting id timeout =>
    match l.pending.waiter? id with
    | some (.received _) | some .closed => true
    | _ => timeout.isDue l.clock
  | .ended _ => false

/-- The next step of a call that may wait so many milliseconds. An answer comes before a timer. -/
def step (timeout : Nat) (o : OngoingCall) (l : Link) : OngoingCall × Link :=
  let method := o.call.method
  match o.stage with
  | .planned =>
    let (id, pending) := l.pending.issue method
    ({ o with stage := .issued id }, { l with pending := pending })
  | .issued id =>
    let (sent, l) := l.send (.request ⟨id, method, o.call.params⟩)
    ({ o with stage := if sent then .sent id else .unsent id }, l)
  | .unsent id =>
    ({ o with stage := .ended (.failed .disconnected) },
      { l with pending := (l.pending.remove id).2 })
  | .sent id =>
    let (timer, l) := l.setTimer timeout
    ({ o with stage := .waiting id timer }, l)
  | .waiting id timer =>
    match l.pending.waiter? id with
    | some (.received (.result value)) => ({ o with stage := .ended (.answered value) }, l)
    | some (.received (.error error)) =>
      ({ o with stage := .ended (.failed (.response method error)) }, l)
    | some .closed => ({ o with stage := .ended (.failed (.abandoned method)) }, l)
    | _ => if timer.isDue l.clock then ({ o with stage := .expired id }, l) else (o, l)
  | .expired id =>
    let (known, pending) := l.pending.cancel id
    let l := { l with pending := pending }
    if known.isSome then ({ o with stage := .withdrawn id }, l)
    else ({ o with stage := .ended (.failed (.timedOut method timeout)) }, l)
  | .withdrawn id =>
    ({ o with stage := .ended (.failed (.timedOut method timeout)) },
      l.post (Link.cancellation id))
  | .ended _ => (o, l)

/-- Whether the call has reached its limit. -/
def isOverdue (l : Link) (o : OngoingCall) : Bool :=
  o.result?.isNone && o.limit.any (·.isDue l.clock)

/-- Give up a call that has reached its limit. -/
def giveUp (o : OngoingCall) (l : Link) : OngoingCall × Link :=
  if o.isOverdue l then
    ({ o with stage := .ended .gaveUp },
      match o.open? with
      | some id => l.desert id
      | none => l)
  else (o, l)

/-- Go on with one of several calls. -/
def atIndex (f : OngoingCall → Link → OngoingCall × Link) (index : Nat) (calls : List OngoingCall)
    (l : Link) : List OngoingCall × Link :=
  match calls[index]? with
  | none => (calls, l)
  | some o =>
    let (o, l) := f o l
    (calls.set index o, l)

/-- The results, once all calls have ended. -/
def results? (calls : List OngoingCall) : Option (List CallResult) := calls.mapM result?

end OngoingCall

end LanguageServer
