import LanguageServer.Server.Basic

set_option autoImplicit false

/-! # Connections

The state of one connection: the session, the documents, what has been received and how far the
reader has come with it, the requests being worked on, the notification handlers waiting for their
turn, and the line to the client. Here are the state and the single actions on it that handlers can
take. -/

namespace LanguageServer

/-! ## Work in progress -/

/-- A handler at work. -/
inductive Activity where
  | running (program : Program)
  | sleeping (timer : Timer) (next : Program)
  | untilCancelled (token : CancelToken) (next : Program)
  /-- It writes to the client's trace, if the client wanted an entry when it began to. -/
  | tracing (entry : Option Notification) (next : Bool → Program)
  | calling (call : OngoingCall) (next : CallResult → Program)
  | callingAll (calls : List OngoingCall) (next : List CallResult → Program)
  /-- The handler has ended; without an outcome if it crashed. -/
  | ended (outcome : Option Outcome)

/-- How far the work on a request has come. -/
inductive TaskStage where
  | working (activity : Activity)
  /-- The request is no longer in the table; whether it was cancelled is to be looked at. -/
  | unlisted (own : Outcome)
  /-- All that is left is to send the response. -/
  | replying (outcome : Outcome)

/-- The work on a request. -/
structure Task where
  /-- Tells this piece of work from all others of the connection, and is the token of the request. -/
  key : Nat
  id : RequestId
  method : String
  stage : TaskStage

/-- A notification whose handler waits for its turn. -/
structure QueuedCall where
  method : String
  params : Json
  program : Program

/-- A notification whose handler is at work. -/
structure CurrentCall where
  method : String
  params : Json
  activity : Activity

/-- A notification whose handler has ended; without an outcome if it crashed. -/
structure FinishedCall where
  method : String
  params : Json
  outcome : Option Outcome
deriving DecidableEq, Repr, Inhabited

/-- How a connection ended. -/
inductive Ending where
  | status (status : ExitStatus)
  /-- The client's messages could not be told apart. -/
  | fault (fault : Frame.Fault)
deriving DecidableEq, Repr, Inhabited

/-- How a connection ends when nothing more comes in, because of a fault if there is one. -/
def Ending.ofInput : Option Frame.Fault → Ending
  | none => .status .connectionClosed
  | some cause => .fault cause

/-! ## What is received -/

/-- Something that comes in. -/
inductive Incoming where
  | message (m : Message)
  /-- A frame that holds no message. -/
  | unreadable (fault : Message.DecodeFault)
  /-- Nothing more comes in, because of a fault if there is one. -/
  | ended (fault : Option Frame.Fault)
deriving DecidableEq, Repr, Inhabited

/-- How far the reader has come with what it took last. Other work can go on between any two
stages. -/
inductive Reading where
  /-- It is done with that. -/
  | idle
  /-- A request or a notification is to be noted in the client's trace, if it wants that. -/
  | taken (m : Message)
  /-- A message is to be served. -/
  | noted (m : Message)
  /-- The tokens of a document have been forgotten, and the document is to be closed. -/
  | forgotten (params : Json)
  /-- The documents are in step with a notification, whose handler is to wait for its turn. -/
  | synced (method : String) (params : Json)
  /-- A message is to be sent in answer. -/
  | answering (m : Message)
  /-- All work has been dropped, and the calls to the client are to be abandoned. -/
  | dropped (ending : Ending)
  /-- The connection is to end once there is room for that. -/
  | leaving (ending : Ending)
deriving DecidableEq, Repr, Inhabited

/-! ## The state -/

structure Connection where
  session : Session
  documents : DocumentStore
  cache : TokenCache
  /-- What has come in and waits for the reader, first to come first. -/
  inbox : List Incoming
  reading : Reading
  /-- The requests being worked on, each with its token. -/
  inFlight : List (RequestId × CancelToken)
  /-- The tokens that have been fired. -/
  fired : List CancelToken
  tasks : List Task
  /-- How many requests have been taken on. -/
  spawned : Nat
  /-- The notifications whose handlers wait, first to come first. -/
  queue : List QueuedCall
  current : Option CurrentCall
  finished : List FinishedCall
  progress : ProgressTracker
  /-- How many streams of progress reports the server has opened by itself. -/
  streams : Nat
  link : Link
  ending : Option Ending

/-- What is agreed on before anything is. -/
def Negotiated.nothing : Negotiated := ⟨⟨.null⟩, .fallback, none, none, [], none⟩

namespace Connection

def fresh : Connection :=
  ⟨.fresh, .empty, .empty, [], .idle, [], [], [], 0, [], none, [], .empty, 0, .fresh, none⟩

def negotiated (c : Connection) : Negotiated := c.session.negotiated.getD .nothing

/-- Whether a request is being worked on. -/
def isInFlight (c : Connection) (id : RequestId) : Bool := (c.inFlight.lookup id).isSome

/-- Whether a token has been fired. -/
def isFired (c : Connection) (token : CancelToken) : Bool := c.fired.contains token

/-- Fire a token, if it has been given out. -/
def fire (token : CancelToken) (c : Connection) : Connection :=
  if token < c.spawned then { c with fired := c.fired.insert token } else c

/-! ## Sending -/

/-- Send a message, if possible. -/
def post (c : Connection) (m : Message) : Connection := { c with link := c.link.post m }

/-- The entry in the client's trace at the level it wants, if it wants any. -/
def traceEntry (level : TraceLevel) (message verbose : String) : Option Notification :=
  let entry (verbose : Option String) : Notification :=
    ⟨Method.logTrace, some (LogTraceParams.codec.write ⟨message, verbose⟩)⟩
  match level with
  | .off => none
  | .messages => some (entry none)
  | .verbose => some (entry (some verbose))

/-! ## Actions -/

/-- Note a step of a stream of progress reports; gives why it does not fit, if it does not. -/
def noteProgress (c : Connection) (a : ProgressAction) : Option ProgressFault × Connection :=
  let outcome := match a with
    | .create token => c.progress.create token
    | .discard token => .ok (c.progress.discard token)
    | .advance token value => c.progress.advance token value
  match outcome with
  | .ok tracker => (none, { c with progress := tracker })
  | .error fault => (some fault, c)

/-- Do an action for a handler. -/
def perform (c : Connection) : (a : Action) → a.Answer × Connection
  | .document uri => (c.documents.get? uri, c)
  | .openCount => (c.documents.size, c)
  | .traceLevel => (c.session.trace, c)
  | .isCancelled token => (c.isFired token, c)
  | .fire token => ((), c.fire token)
  | .send n =>
    let (sent, link) := c.link.send (.notification n)
    (sent, { c with link := link })
  | .progress a => c.noteProgress a
  | .nextStream => (c.streams + 1, { c with streams := c.streams + 1 })
  | .tokensFull uri data =>
    let (tokens, cache) := c.cache.full uri data
    (tokens, { c with cache := cache })
  | .tokensDelta uri previous data =>
    let (result, cache) := c.cache.delta uri previous data
    (result, { c with cache := cache })

end Connection

end LanguageServer
