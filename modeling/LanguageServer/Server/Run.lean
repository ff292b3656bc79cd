import LanguageServer.Server.Dispatch

set_option autoImplicit false

/-! # Runs of a connection

All that can happen to a connection is a list of events, and `Connection.run` takes them in order.
Which events come in which order is decided elsewhere: whatever holds for every list of events holds
however the work is scheduled. -/

namespace LanguageServer

/-- Something that happens to a connection. -/
inductive Event where
  /-- Something comes in. -/
  | received (incoming : Incoming)
  /-- The reader goes on with what has come in. -/
  | reader
  /-- The work on a request goes on. -/
  | task (key : Nat) (move : Move)
  /-- The handlers of notifications go on. -/
  | worker (move : Move)
  /-- A message is written. -/
  | writer
  /-- A call that nobody waits for is dealt with. -/
  | withdrawal (id : RequestId)
  /-- Time passes. -/
  | tick (milliseconds : Nat)
  /-- The client takes no more messages. -/
  | outputClosed
deriving DecidableEq, Repr, Inhabited

namespace Connection

/-- Let time pass. -/
def tick (milliseconds : Nat) (c : Connection) : Connection :=
  { c with link := { c.link with clock := c.link.clock + milliseconds } }

/-- What an event does to a connection that has not ended. -/
def handle (s : Server) (e : Event) (c : Connection) : Connection :=
  match e with
  | .received incoming => { c with inbox := c.inbox ++ [incoming] }
  | .reader => c.stepReader s
  | .task key move => c.stepTask s key move
  | .worker move => c.stepWorker s move
  | .writer => { c with link := c.link.writeNext }
  | .withdrawal id => { c with link := c.link.withdraw id }
  | .tick milliseconds => c.tick milliseconds
  | .outputClosed => { c with link := { c.link with outputOpen := false } }

/-- What an event does to a connection. Once it has ended, what was sent is still written, and
nothing else happens. -/
def step (s : Server) (e : Event) (c : Connection) : Connection :=
  match c.ending with
  | none => c.handle s e
  | some _ =>
    match e with
    | .writer => { c with link := c.link.writeNext }
    | _ => c

/-- What events do to a connection, one after another. -/
def run (s : Server) (c : Connection) (events : List Event) : Connection :=
  events.foldl (fun c e => c.step s e) c

end Connection

end LanguageServer
