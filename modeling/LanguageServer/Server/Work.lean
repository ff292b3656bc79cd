import LanguageServer.Server.Connection

set_option autoImplicit false

/-! # The steps of handlers

Handlers go forward one step at a time, and between any two steps of one handler other things can
happen. The work on a request ends in four steps: its handler comes to an outcome, the request is
taken out of the table, its token is looked at, and the response is sent.
Notification handlers take their turns, one after another in the order of the notifications. -/

namespace LanguageServer

/-- How a handler goes on. -/
inductive Move where
  /-- By itself. -/
  | forward
  /-- One of its calls takes its next step. -/
  | call (index : Nat)
  /-- One of its calls has reached its limit and is given up. -/
  | giveUp (index : Nat)
deriving DecidableEq, Repr, Inhabited

namespace Activity

/-- The calls that the handler waits for. -/
def calls : Activity → List OngoingCall
  | .calling call _ => [call]
  | .callingAll calls _ => calls
  | .running _ | .sleeping .. | .untilCancelled .. | .tracing .. | .ended _ => []

/-- The timers that the handler waits for. -/
def timers : Activity → List Timer
  | .sleeping timer _ => [timer]
  | activity => activity.calls.flatMap OngoingCall.timers

/-- Go on with one of the calls that the handler waits for. -/
def atCall (f : OngoingCall → Link → OngoingCall × Link) (index : Nat) (c : Connection) :
    Activity → Activity × Connection
  | .calling call next =>
    let (call, link) := f call c.link
    (.calling call next, { c with link := link })
  | .callingAll calls next =>
    let (calls, link) := OngoingCall.atIndex f index calls c.link
    (.callingAll calls next, { c with link := link })
  | activity => (activity, c)

/-- Go on by itself. -/
def forward (c : Connection) : Activity → Activity × Connection
  | .running (.finish outcome) => (.ended (some outcome), c)
  | .running .crash => (.ended none, c)
  | .running (.act a next) =>
    let (answer, c) := c.perform a
    (.running (next answer), c)
  | .running (.wait (.sleep milliseconds) next) =>
    let (timer, link) := c.link.setTimer milliseconds
    (.sleeping timer (next ()), { c with link := link })
  | .running (.wait (.cancellation token) next) => (.untilCancelled token (next ()), c)
  | .running (.wait (.logTrace message verbose) next) =>
    (.tracing (Connection.traceEntry c.session.trace message verbose) next, c)
  | .running (.wait (.call call) next) =>
    let (call, link) := OngoingCall.plan call c.link
    (.calling call next, { c with link := link })
  | .running (.wait (.calls calls) next) =>
    let (calls, link) := OngoingCall.planAll calls c.link
    (.callingAll calls next, { c with link := link })
  | .sleeping timer next =>
    if timer.isDue c.link.clock then (.running next, c) else (.sleeping timer next, c)
  | .untilCancelled token next =>
    if c.isFired token then (.running next, c) else (.untilCancelled token next, c)
  | .tracing none next => (.running (next true), c)
  | .tracing (some entry) next =>
    let (sent, link) := c.link.send (.notification entry)
    (.running (next sent), { c with link := link })
  | .calling call next =>
    match call.result? with
    | some result => (.running (next result), c)
    | none => (.calling call next, c)
  | .callingAll calls next =>
    match OngoingCall.results? calls with
    | some results => (.running (next results), c)
    | none => (.callingAll calls next, c)
  | .ended outcome => (.ended outcome, c)

/-- The next step of a handler whose calls to the client may take so many milliseconds. -/
def step (timeout : Nat) (c : Connection) (move : Move) (activity : Activity) :
    Activity × Connection :=
  match move with
  | .forward => activity.forward c
  | .call index => activity.atCall (OngoingCall.step timeout) index c
  | .giveUp index => activity.atCall OngoingCall.giveUp index c

end Activity

/-! ## Requests -/

namespace Task

/-- What a handler that crashed amounts to. -/
def crashed (method : String) : Outcome :=
  .error (.internalError s!"handler for {method} panicked")

/-- The timers that the work waits for. -/
def timers (t : Task) : List Timer :=
  match t.stage with
  | .working activity => activity.timers
  | .unlisted _ | .replying _ => []

end Task

namespace Connection

def task? (c : Connection) (key : Nat) : Option Task := c.tasks.find? (·.key = key)

/-- Put the work on a request at another stage. -/
def setStage (c : Connection) (key : Nat) (stage : TaskStage) : Connection :=
  { c with tasks := c.tasks.map fun t => if t.key = key then { t with stage := stage } else t }

/-- The response to a request whose handler came to an outcome: cancelling it has the last word. -/
def response (cancelled : Bool) (own : Outcome) : Outcome :=
  if cancelled then .error .requestCancelled else own

/-- The next step of the work on a request. -/
def stepTask (s : Server) (key : Nat) (move : Move) (c : Connection) : Connection :=
  match c.task? key with
  | none => c
  | some t =>
    match t.stage with
    | .working (.ended outcome) =>
      let c := c.setStage key (.unlisted (outcome.getD (Task.crashed t.method)))
      { c with inFlight := c.inFlight.filter fun entry => entry.1 ≠ t.id }
    | .working activity =>
      let (activity, c) := activity.step s.options.requestTimeout c move
      c.setStage key (.working activity)
    | .unlisted own => c.setStage key (.replying (response (c.isFired key) own))
    | .replying outcome =>
      let c := { c with tasks := c.tasks.filter fun t => t.key ≠ key }
      c.post (.response ⟨some t.id, outcome⟩)

/-! ## Notifications -/

/-- The next step of the handlers of notifications. -/
def stepWorker (s : Server) (move : Move) (c : Connection) : Connection :=
  match c.current with
  | some ⟨method, params, .ended outcome⟩ =>
    { c with current := none, finished := c.finished ++ [⟨method, params, outcome⟩] }
  | some call =>
    let (activity, c) := call.activity.step s.options.requestTimeout c move
    { c with current := some { call with activity := activity } }
  | none =>
    match c.queue with
    | [] => c
    | next :: rest =>
      { c with
        queue := rest
        current := some ⟨next.method, next.params, .running next.program⟩ }

end Connection

end LanguageServer
