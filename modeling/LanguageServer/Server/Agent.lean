import LanguageServer.Server.Run

set_option autoImplicit false

/-! # What goes on in a connection

The agents of a connection go on by themselves, each one step at a time. `Agent.choices` tells the
steps that an agent could take next, each as an event, and what the step needs: nothing, some
strength, an effort, or room for a message. Looking at anything that is shared is an effort, and so
are taking what others have left and noticing that time is up. -/

namespace LanguageServer

/-- Something that goes on by itself. -/
inductive Agent where
  | reader
  | writer
  | worker
  | task (key : Nat)
  | withdrawal (id : RequestId)
deriving DecidableEq, Repr, Inhabited

/-- What a step needs. -/
inductive Need where
  | nothing
  /-- Some strength, of which nothing is used up. -/
  | strength
  /-- An effort, which uses up strength. -/
  | effort
  /-- An effort that is possible even without strength. -/
  | lastEffort
  /-- An effort, and room for the message that the agent sends; the slot tells it from other messages
  that the same agent is about to send. -/
  | room (slot : Nat)
deriving DecidableEq, Repr, Inhabited

/-- Whether a step is an effort. -/
def Need.isEffort : Need → Bool
  | .nothing | .strength => false
  | .effort | .lastEffort | .room _ => true

/-- A step that could be taken. -/
structure Choice where
  event : Event
  need : Need
deriving DecidableEq, Repr, Inhabited

/-! ## Handlers -/

/-- What an action needs. -/
def Action.need : Action → Need
  | .document _ | .openCount | .progress _ | .tokensFull .. | .tokensDelta .. => .effort
  | .send _ => .room 0
  | .traceLevel | .isCancelled _ | .fire _ | .nextStream => .nothing

/-- What the next step of a call needs. -/
def CallStage.need (index : Nat) : CallStage → Need
  | .issued _ | .withdrawn _ => .room index
  | .sent _ => .strength
  | .planned | .unsent _ | .waiting .. | .expired _ | .ended _ => .effort

/-- The moves that could be made for a call: its next step, or else to give it up. A call that has
used up the strength of an agent can still be given up. -/
def OngoingCall.moves (l : Link) (index : Nat) (o : OngoingCall) : List (Move × Need) :=
  let next := if o.canStep l then [(.call index, o.stage.need index)] else []
  let last := if o.stage = .planned then Need.effort else .lastEffort
  if o.isOverdue l then next ++ [(.giveUp index, last)] else next

/-- The moves that could be made for calls. -/
def OngoingCall.allMoves (l : Link) : (index : Nat) → List OngoingCall → List (Move × Need)
  | _, [] => []
  | index, o :: rest => o.moves l index ++ allMoves l (index + 1) rest

namespace Activity

/-- The moves that a handler could make, first choice first. -/
def moves (c : Connection) : Activity → List (Move × Need)
  | .running (.act a _) => [(.forward, a.need)]
  | .running (.wait (.sleep _) _) | .running (.wait (.call _) _) => [(.forward, .strength)]
  | .running _ => [(.forward, .nothing)]
  | .sleeping timer _ => if timer.isDue c.link.clock then [(.forward, .effort)] else []
  | .untilCancelled token _ => if c.isFired token then [(.forward, .nothing)] else []
  | .tracing entry _ => [(.forward, if entry.isSome then .room 0 else .nothing)]
  | .calling call _ => if call.result?.isSome then [(.forward, .nothing)] else call.moves c.link 0
  | .callingAll calls _ =>
    if (OngoingCall.results? calls).isSome then [(.forward, .nothing)]
    else OngoingCall.allMoves c.link 0 calls
  | .ended _ => []

/-- Whether the effort of the handler counts. What several calls made at once take does not. -/
def isCounted : Activity → Bool
  | .callingAll .. => false
  | _ => true

/-- Whether it takes strength, but no effort, to go on waiting. -/
def isWatchful : Activity → Bool
  | .sleeping .. | .calling .. => true
  | _ => false

end Activity

/-! ## The reader -/

/-- Whether there is something to look up in order to serve a notification. -/
def Notification.looksUp (s : Server) (n : Notification) : Bool :=
  let params := n.params.getD .null
  let reads {α : Type} (codec : Wire.Codec α) : Bool := (codec.decode params).isOk
  if n.method = Method.cancelRequest then reads CancelParams.codec
  else if n.method = Method.didOpen then reads DidOpenParams.codec
  else if n.method = Method.didChange then reads DidChangeParams.codec
  else if n.method = Method.didSave then reads DidSaveParams.codec
  else if n.method = Method.didClose then s.tokens.isSome && reads DidCloseParams.codec
  else false

/-- Whether there is something to look up in order to serve a request. -/
def Request.looksUp (s : Server) (c : Connection) (r : Request) : Bool :=
  (c.session.admitRequest r.method).isOk && r.method ≠ Method.handshake &&
    r.method ≠ Method.shutdown && s.handlesRequest r.method

/-- What the next stage of the reader needs. -/
def Reading.need (s : Server) (c : Connection) : Reading → Need
  | .idle => .nothing
  | .taken _ => if c.session.trace = .off then .nothing else .room 0
  | .noted (.request r) => if r.looksUp s c then .effort else .nothing
  | .noted (.notification n) => if n.looksUp s then .effort else .nothing
  | .noted (.response _) => .effort
  | .forgotten params => if (DidCloseParams.codec.decode params).isOk then .effort else .nothing
  | .synced .. => .nothing
  | .dropped _ => .effort
  | .answering _ | .leaving _ => .room 0

/-! ## Agents -/

namespace Agent

/-- The steps that an agent could take, first choice first. Once the connection has ended, only the
writer goes on. -/
def choices (s : Server) (c : Connection) (a : Agent) : List Choice :=
  if c.ending.isSome && a ≠ .writer then []
  else
    match a with
    | .reader =>
      if c.reading = .idle && c.inbox.isEmpty then [] else [⟨.reader, c.reading.need s c⟩]
    | .writer => if c.link.outbox.isEmpty then [] else [⟨.writer, .effort⟩]
    | .worker =>
      match c.current with
      | none => if c.queue.isEmpty then [] else [⟨.worker .forward, .effort⟩]
      | some ⟨_, _, .ended _⟩ => [⟨.worker .forward, .nothing⟩]
      | some call =>
        (call.activity.moves c).map fun (move, need) => ⟨.worker move, need⟩
    | .task key =>
      match c.task? key with
      | none => []
      | some t =>
        match t.stage with
        | .replying _ => [⟨.task key .forward, .room 0⟩]
        | .unlisted _ => [⟨.task key .forward, .nothing⟩]
        | .working (.ended _) => [⟨.task key .forward, .effort⟩]
        | .working activity =>
          (activity.moves c).map fun (move, need) => ⟨.task key move, need⟩
    | .withdrawal id =>
      match c.link.withdrawal? id with
      | none => []
      | some w => [⟨.withdrawal id, if w.confirmed then .room 0 else .effort⟩]

/-- The handler at work for an agent, if there is one. -/
def activity? (c : Connection) : Agent → Option Activity
  | .worker => c.current.map (·.activity)
  | .task key =>
    (c.task? key).bind fun t =>
      match t.stage with
      | .working activity => some activity
      | .unlisted _ | .replying _ => none
  | .reader | .writer | .withdrawal _ => none

/-- Whether the effort of an agent counts. That of the reader does not, however long its turn. -/
def isCounted (c : Connection) (a : Agent) : Bool :=
  match a.activity? c with
  | some activity => activity.isCounted
  | none => a ≠ .reader

/-- Whether it takes strength, but no effort, to wait for what comes next. -/
def isWatchful (c : Connection) (a : Agent) : Bool :=
  match a.activity? c with
  | some activity => activity.isWatchful
  | none => a = .writer || a = .worker

end Agent

end LanguageServer
