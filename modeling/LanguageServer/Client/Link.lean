import LanguageServer.Client.Pending
import LanguageServer.Message.Method
import LanguageServer.Session.Payload

set_option autoImplicit false

/-! # The line to the client

Messages are put into an outbox, from which they are written one at a time. Once a write has failed
nothing can be sent any more. The line also knows the time, hands out timers, and keeps the calls
that wait for an answer. How many messages the outbox may hold is not decided here: what is sent when
depends on that, but not what sending does. -/

namespace LanguageServer

/-- A moment to wait for. Timers for the same moment go off in the order in which they were set. -/
structure Timer where
  deadline : Nat
  order : Nat
deriving DecidableEq, Repr, Inhabited

/-- Whether the moment has come. -/
def Timer.isDue (t : Timer) (clock : Nat) : Bool := decide (t.deadline ≤ clock)

/-- A call that nobody waits for any more. -/
structure Withdrawal where
  id : RequestId
  /-- Whether the call has been given up and the client is still to be told. -/
  confirmed : Bool
deriving DecidableEq, Repr, Inhabited

structure Link where
  pending : PendingCalls
  /-- Messages sent and not yet written, first to be written first. -/
  outbox : List Message
  /-- Messages written, first to be written first. -/
  written : List Message
  /-- Whether messages can still be sent. -/
  writerOpen : Bool
  /-- Whether the client still takes what is written. -/
  outputOpen : Bool
  /-- The time, in milliseconds. -/
  clock : Nat
  /-- How many timers have been set. -/
  timersSet : Nat
  /-- Calls that nobody waits for any more and about which something is still to be done. -/
  withdrawals : List Withdrawal
deriving DecidableEq, Repr, Inhabited

namespace Link

def fresh : Link := ⟨.empty, [], [], true, true, 0, 0, []⟩

/-- All messages sent and not lost, in order. -/
def sent (l : Link) : List Message := l.written ++ l.outbox

/-- Send a message; tells whether that was possible. -/
def send (l : Link) (m : Message) : Bool × Link :=
  if l.writerOpen then (true, { l with outbox := l.outbox ++ [m] }) else (false, l)

/-- Send a message, if possible. -/
def post (l : Link) (m : Message) : Link := (l.send m).2

/-- Write the next message. If the client does not take it, it is lost with all that wait. -/
def writeNext (l : Link) : Link :=
  match l.outbox with
  | [] => l
  | m :: rest =>
    if l.outputOpen then { l with outbox := rest, written := l.written ++ [m] }
    else { l with outbox := [], writerOpen := false }

/-- Set a timer. -/
def setTimer (l : Link) (milliseconds : Nat) : Timer × Link :=
  (⟨l.clock + milliseconds, l.timersSet⟩, { l with timersSet := l.timersSet + 1 })

/-- Give a response to the call it answers; a response to no call is passed over. -/
def resolve (l : Link) (r : Response) : Link := { l with pending := (l.pending.resolve r).2 }

/-- The message that tells the client to forget about a call. -/
def cancellation (id : RequestId) : Message :=
  .notification ⟨Method.cancelRequest, some (CancelParams.codec.write ⟨id⟩)⟩

/-- What is still to be done about a call that nobody waits for any more. -/
def withdrawal? (l : Link) (id : RequestId) : Option Withdrawal :=
  l.withdrawals.find? (·.id = id)

/-- Leave a call that nobody waits for any more to be given up. -/
def desert (l : Link) (id : RequestId) : Link :=
  { l with pending := l.pending.dropWaiter id, withdrawals := l.withdrawals ++ [⟨id, false⟩] }

/-- Nothing is left to be done about a call. -/
def dismiss (l : Link) (id : RequestId) : Link :=
  { l with withdrawals := l.withdrawals.filter (·.id ≠ id) }

/-- Do the next thing about a call that nobody waits for any more: give it up, and then tell the
client, if it had not answered. -/
def withdraw (l : Link) (id : RequestId) : Link :=
  match l.withdrawal? id with
  | none => l
  | some ⟨_, true⟩ => (l.dismiss id).post (cancellation id)
  | some ⟨_, false⟩ =>
    let (method, pending) := l.pending.cancel id
    let l := { l with pending := pending }
    if method.isSome then
      { l with withdrawals := l.withdrawals.map fun w => if w.id = id then ⟨id, true⟩ else w }
    else l.dismiss id

/-- The connection ends: no call is answered any more. -/
def abandon (l : Link) : Link := { l with pending := l.pending.abandonAll.2 }

end Link

end LanguageServer
