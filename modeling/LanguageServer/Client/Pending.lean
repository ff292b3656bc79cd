import LanguageServer.Message.Envelope

set_option autoImplicit false

/-! # Calls to the client

A call gets a number of its own and waits for the response with that number. It can be given up, in
which case a response that still comes is known to be late; it can be removed; and all calls are
abandoned when the connection ends. Each call has one waiter, which learns at most one thing. -/

namespace LanguageServer

/-- What the waiter of a call has learned. -/
inductive WaiterState where
  /-- Nothing yet. -/
  | waiting
  /-- The client has answered. -/
  | received (outcome : Outcome)
  /-- No answer will come. -/
  | closed
  /-- The waiter has gone away. -/
  | dropped
deriving DecidableEq, Repr, Inhabited

/-- Why a response answers no call. -/
inductive ResolveFault where
  | unknownId (id : Option RequestId)
  | cancelled (id : RequestId) (method : String)
deriving DecidableEq, Repr, Inhabited

def ResolveFault.message : ResolveFault → String
  | .unknownId none => "response for unknown request id None"
  | .unknownId (some id) => s!"response for unknown request id Some({id.describe})"
  | .cancelled id method => s!"late response for cancelled {method} request {id.display}"

structure PendingCalls where
  /-- How many calls have been made. -/
  issued : Nat
  /-- The calls without an answer, with their methods. -/
  entries : List (RequestId × String)
  /-- The calls given up whose answer has not come, with their methods. -/
  cancelled : List (RequestId × String)
  /-- The waiters of all calls, in the order of the calls. -/
  waiters : List (RequestId × WaiterState)
deriving DecidableEq, Repr, Inhabited

namespace PendingCalls

def empty : PendingCalls := ⟨0, [], [], []⟩

def contains (p : PendingCalls) (id : RequestId) : Bool := (p.entries.lookup id).isSome

def size (p : PendingCalls) : Nat := p.entries.length

/-- What the waiter of a call has learned. -/
def waiter? (p : PendingCalls) (id : RequestId) : Option WaiterState := p.waiters.lookup id

/-- Tell the waiter of a call something, if it still waits. -/
def settle (p : PendingCalls) (id : RequestId) (state : WaiterState) : PendingCalls :=
  { p with
    waiters := p.waiters.map fun w =>
      if w.1 = id ∧ w.2 = .waiting then (w.1, state) else w }

/-- Forget an entry. -/
def eraseEntry (p : PendingCalls) (id : RequestId) : PendingCalls :=
  { p with entries := p.entries.filter fun entry => entry.1 ≠ id }

/-- Make a call: its number is one more than the last. -/
def issue (p : PendingCalls) (method : String) : RequestId × PendingCalls :=
  let id := RequestId.number (Int64.ofNat (p.issued + 1))
  (id, { p with
    issued := p.issued + 1
    entries := p.entries ++ [(id, method)]
    waiters := p.waiters ++ [(id, .waiting)] })

/-- Give a response to the call it answers. -/
def resolve (p : PendingCalls) (r : Response) : Except ResolveFault String × PendingCalls :=
  match r.id with
  | none => (.error (.unknownId none), p)
  | some id =>
    match p.entries.lookup id with
    | some method => (.ok method, (p.eraseEntry id).settle id (.received r.outcome))
    | none =>
      match p.cancelled.lookup id with
      | some method =>
        (.error (.cancelled id method),
          { p with cancelled := p.cancelled.filter fun entry => entry.1 ≠ id })
      | none => (.error (.unknownId (some id)), p)

/-- Give up a call; gives its method if it had no answer yet. -/
def cancel (p : PendingCalls) (id : RequestId) : Option String × PendingCalls :=
  match p.entries.lookup id with
  | none => (none, p)
  | some method =>
    let p := (p.eraseEntry id).settle id .closed
    (some method, { p with cancelled := p.cancelled ++ [(id, method)] })

/-- Forget a call; tells whether it had no answer yet. -/
def remove (p : PendingCalls) (id : RequestId) : Bool × PendingCalls :=
  (p.contains id, if p.contains id then (p.eraseEntry id).settle id .closed else p)

/-- Abandon all calls; gives their number. -/
def abandonAll (p : PendingCalls) : Nat × PendingCalls :=
  (p.entries.length,
    { p with
      entries := []
      cancelled := []
      waiters := p.waiters.map fun w => if w.2 = .waiting then (w.1, .closed) else w })

/-- The waiter of a call goes away. -/
def dropWaiter (p : PendingCalls) (id : RequestId) : PendingCalls := p.settle id .dropped

end PendingCalls

end LanguageServer
