import LanguageServer.Server.Agent

set_option autoImplicit false

/-! # Hosting a connection

A host feeds a connection with bytes and with time and decides what goes on when. Agents that can go
on wait in a queue; the first has its turn until it can not go on, then the next, and an agent that
becomes able to go on joins the queue at its end. Two things are scarce:

* strength: an agent has only so much for one turn. When that is used up it rests, until the queue is
  empty or a number of turns have passed;
* room: the outbox holds only so many messages. Who finds no room stands in a line, and a place that
  becomes free goes to the first of the line.

Time passes only when told to, and then from one timer to the next. -/

namespace LanguageServer

/-- A message that an agent is about to send: the agent, and its slot. -/
abbrev Sender := Agent × Nat

structure Host where
  connection : Connection
  /-- What has been received and not yet read. -/
  input : List UInt8
  inputEnded : Bool
  /-- The agents that wait for their turn. -/
  ready : List Agent
  /-- The agent that has its turn, and the strength it has left. -/
  running : Option (Agent × Nat)
  /-- The agents that rest, last first. -/
  resting : List Agent
  /-- How many turns there have been since agents were last called back from rest. -/
  turns : Nat
  /-- The senders for which there was no room, first to come first. -/
  line : List Sender
  /-- The senders that a free place has gone to. -/
  placed : List Sender

namespace Host

def fresh : Host := ⟨.fresh, [], false, [], none, [], 0, [], []⟩

/-- How many messages the outbox holds. -/
def capacity : Nat := 64

/-- How much strength an agent has for one turn. -/
def strength : Nat := 128

/-- After how many turns agents are called back from rest. -/
def interval : Nat := 61

/-! ## Room -/

/-- How many places nobody has. Nobody needs a place any more once the outbox is closed. -/
def vacancies (h : Host) : Nat :=
  capacity - (h.connection.link.outbox.length + h.placed.length)

/-- Whether a sender still wants to send. -/
def wants (s : Server) (h : Host) (sender : Sender) : Bool :=
  (sender.1.choices s h.connection).any (·.need = .room sender.2)

/-- After a step of an agent, let those leave that do not want to send any more, and give away the
places that are free. What others want to send changes only at the end of the connection, when the
reader drops all work. -/
def givePlaces (s : Server) (h : Host) (mover : Agent) : Host :=
  if h.line.isEmpty && h.placed.isEmpty then h
  else
    let stays (sender : Sender) : Bool :=
      (mover ≠ .reader && sender.1 ≠ mover) || h.wants s sender
    let h := { h with line := h.line.filter stays, placed := h.placed.filter stays }
    let free := if h.connection.link.writerOpen then h.vacancies else h.line.length
    let called := (h.line.take free).map (·.1)
    { h with
      line := h.line.drop free
      placed := h.placed ++ h.line.take free
      ready := h.ready ++ (called.filter fun a => !h.ready.contains a).eraseDups }

/-- Whether a sender can send now. -/
def hasRoom (h : Host) (sender : Sender) : Bool :=
  !h.connection.link.writerOpen || h.placed.contains sender || decide (0 < h.vacancies)

/-! ## Turns -/

/-- Whether an agent can do something if it has its turn. -/
def canStep (s : Server) (h : Host) (a : Agent) : Bool :=
  (a.choices s h.connection).any fun choice =>
    match choice.need with
    | .room slot => !h.line.contains (a, slot)
    | _ => true

/-- The agents that a step of an agent may have made able to go on. Handlers wait for messages, which
the reader passes on, for tokens to be fired, for time, and for room; so only a step of the reader or
one that fires a token concerns them. -/
def concerned (h : Host) (mover : Agent) (fires : Bool) : List Agent :=
  let withdrawals := h.connection.link.withdrawals.map fun w => Agent.withdrawal w.id
  if mover = .reader || fires then
    .writer :: .worker :: h.connection.tasks.map (fun t => .task t.key) ++ withdrawals
  else .writer :: withdrawals

/-- After a step of an agent, let all that can go on join the queue, if they do not wait, rest or go
on already. -/
def wake (s : Server) (h : Host) (mover : Agent) (fires : Bool) : Host :=
  let isKnown (a : Agent) : Bool :=
    h.running.any (·.1 = a) || h.ready.contains a || h.resting.contains a
  { h with ready := h.ready ++ (h.concerned mover fires).filter fun a => !isKnown a && h.canStep s a }

/-- Let an event happen, which is a step of an agent. -/
def happen (s : Server) (mover : Agent) (e : Event) (h : Host) : Host :=
  let after := h.connection.step s e
  let fires := h.connection.fired.length < after.fired.length
  ({ h with connection := after }.givePlaces s mover).wake s mover fires

/-- Call all agents back from rest. -/
def callBack (h : Host) : Host :=
  { h with ready := h.ready ++ h.resting, resting := [], turns := 0 }

/-- Let the next agent have its turn. -/
def nextTurn (h : Host) : Option Host :=
  match h.ready with
  | [] => if h.resting.isEmpty then none else some h.callBack
  | a :: rest =>
    if h.turns = interval then some h.callBack
    else some { h with ready := rest, running := some (a, strength), turns := h.turns + 1 }

/-- End the turn of an agent; it rests if it lacks the strength that it needs. -/
def endTurn (h : Host) (a : Agent) (exhausted : Bool) : Host :=
  if exhausted then { h with running := none, resting := a :: h.resting }
  else { h with running := none }

/-- Read what comes next, if there is anything. -/
def fetch (s : Server) (h : Host) : Option Host :=
  let received (incoming : Incoming) (rest : List UInt8) : Option Host :=
    some ({ h with input := rest }.happen s .reader (.received incoming))
  match Frame.read s.options.maxFrameBytes h.inputEnded h.input with
  | .waiting _ => none
  | .finished => received (.ended none) h.input
  | .failed fault => received (.ended (some fault)) h.input
  | .frame body rest =>
    match Message.decode body with
    | .ok m => received (.message m) rest
    | .error fault => received (.unreadable fault) rest

/-- What an agent does next. -/
inductive Decision where
  /-- It takes a step. -/
  | step (choice : Choice)
  /-- It stands in line, since there is no room. -/
  | standInLine (sender : Sender)
  /-- It lacks the strength for the step that it would take. -/
  | rest

/-- What an agent would do about a choice; nothing if it stands in line for it already. -/
def consider (h : Host) (a : Agent) (exhausted : Bool) (choice : Choice) : Option Decision :=
  match choice.need with
  | .nothing | .lastEffort => some (.step choice)
  | .strength | .effort => some (if exhausted then .rest else .step choice)
  | .room slot =>
    if exhausted then some .rest
    else if h.hasRoom (a, slot) then some (.step choice)
    else if h.line.contains (a, slot) then none
    else some (.standInLine (a, slot))

/-- What an agent does next: the first of its choices that it can make, or else to rest. -/
def decide? (s : Server) (h : Host) (a : Agent) (exhausted : Bool) : Option Decision :=
  let choices := a.choices s h.connection
  let decision := choices.findSome? fun choice =>
    match h.consider a exhausted choice with
    | some .rest => none
    | decision => decision
  match decision with
  | some decision => some decision
  | none => if exhausted && !choices.isEmpty then some .rest else none

/-- Let the agent go on that has its turn, with the strength it has left. -/
def goOn (s : Server) (h : Host) (a : Agent) (left : Nat) : Host :=
  let isCounted := a.isCounted h.connection
  match h.decide? s a (isCounted && left = 0) with
  | none =>
    match if a = .reader && h.connection.ending.isNone && h.connection.reading = .idle
        then h.fetch s else none with
    | some h => h
    | none => h.endTurn a (left = 0 && a.isWatchful h.connection)
  | some .rest => h.endTurn a true
  | some (.standInLine sender) => { h with line := h.line ++ [sender] }
  | some (.step ⟨event, need⟩) =>
    let left := if isCounted && need.isEffort then left - 1 else left
    let h := match need with
      | .room slot => { h with placed := h.placed.filter (· ≠ (a, slot)) }
      | _ => h
    { h with running := some (a, left) }.happen s a event

/-- The next thing that goes on. -/
def advance (s : Server) (h : Host) : Option Host :=
  match h.running with
  | none => h.nextTurn
  | some (a, left) => some (h.goOn s a left)

/-- More steps than anything takes before it has to wait. -/
def patience : Nat := 10000000

/-- Let all go on until nothing can. -/
def settleFrom (s : Server) : (fuel : Nat) → Host → Host
  | 0, h => h
  | fuel + 1, h =>
    match h.advance s with
    | none => h
    | some h => settleFrom s fuel h

/-- Let all go on until nothing can. -/
def settle (s : Server) (h : Host) : Host := settleFrom s patience { h with turns := 0 }

/-! ## Time -/

/-- All timers that something waits for, each with what waits. -/
def timers (h : Host) : List (Timer × Agent) :=
  let agents : List Agent := .worker :: h.connection.tasks.map fun t => .task t.key
  agents.flatMap fun a =>
    ((a.activity? h.connection).map (·.timers)).getD [] |>.map fun t => (t, a)

/-- The next moment, up to a last one, for which a timer is set. -/
def nextDeadline? (h : Host) (last : Nat) : Option Nat :=
  ((h.timers.map (·.1.deadline)).filter (· ≤ last)).min?

/-- Let time pass up to a moment. Agents whose timers are due then join the queue, in the order in
which the timers were set. -/
def passUntil (s : Server) (moment : Nat) (h : Host) : Host :=
  let passed := h.connection.step s (.tick (moment - h.connection.link.clock))
  let due := h.timers.filter fun entry => entry.1.isDue passed.link.clock
  let owners := (due.mergeSort fun a b => a.1.order ≤ b.1.order).map (·.2)
  { h with
    connection := passed
    ready := h.ready ++ (owners.filter fun a => !h.ready.contains a).eraseDups }

/-- Let time pass up to a moment, with all that happens meanwhile. -/
def advanceUntil (s : Server) (last : Nat) : (fuel : Nat) → Host → Host
  | 0, h => h
  | fuel + 1, h =>
    match h.nextDeadline? last with
    | none => h.passUntil s last
    | some moment => advanceUntil s last fuel ((h.passUntil s moment).settle s)

/-! ## From outside -/

/-- What is done to a host from outside. -/
inductive Stimulus where
  /-- Bytes come in. -/
  | feed (bytes : List UInt8)
  /-- Time passes. -/
  | advance (milliseconds : Nat)
  /-- No more bytes come in. -/
  | close
  /-- The client takes no more messages. -/
  | closeOutput
deriving DecidableEq, Repr, Inhabited

/-- Let the reader join the queue. -/
def wakeReader (h : Host) : Host :=
  if h.ready.contains .reader then h else { h with ready := h.ready ++ [.reader] }

/-- Do something to a host and let all go on until nothing can. After the connection has ended
nothing happens. -/
def apply (s : Server) (stimulus : Stimulus) (h : Host) : Host :=
  if h.connection.ending.isSome then h
  else
    match stimulus with
    | .feed bytes => { h with input := h.input ++ bytes }.wakeReader.settle s
    | .close => { h with inputEnded := true }.wakeReader.settle s
    | .closeOutput => { h with connection := h.connection.step s .outputClosed }
    | .advance milliseconds =>
      advanceUntil s (h.connection.link.clock + milliseconds) patience h

/-- How many bytes have to come in, at least, before anything else can be read. -/
def missing (s : Server) (h : Host) : Nat :=
  match Frame.read s.options.maxFrameBytes h.inputEnded h.input with
  | .waiting missing => missing
  | _ => 0

/-- What can be seen of a stretch of a connection's life. -/
structure Observation where
  /-- The messages written. -/
  output : List Message
  /-- The notification handlers that ended. -/
  finished : List FinishedCall
  /-- How the connection ended, if it did. -/
  ending : Option Ending
deriving DecidableEq, Repr, Inhabited

/-- What can be seen of the time between two states. -/
def observe (before after : Host) : Observation :=
  { output := after.connection.link.written.drop before.connection.link.written.length
    finished := after.connection.finished.drop before.connection.finished.length
    ending := if before.connection.ending.isSome then none else after.connection.ending }

/-- Do things to a host one after another and see what comes of each. -/
def observeAll (s : Server) : Host → List Stimulus → List Observation
  | _, [] => []
  | h, stimulus :: rest =>
    let after := h.apply s stimulus
    observe h after :: observeAll s after rest

end Host

end LanguageServer
