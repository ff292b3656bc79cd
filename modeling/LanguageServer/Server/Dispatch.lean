import LanguageServer.Document.Payload
import LanguageServer.Server.Work

set_option autoImplicit false

/-! # Receiving messages

What a connection does with a message from the client, stage by stage. The session decides whether a
request or a notification is heard at all. Requests are answered at once or handed to a handler;
notifications about documents are applied at one stage and handed to a handler at the next; responses
go to the calls they answer. -/

namespace LanguageServer.Connection

/-- Answer a request; the response is sent at the next stage. -/
def answer (id : RequestId) (outcome : Outcome) (c : Connection) : Connection :=
  { c with reading := .answering (.response ⟨some id, outcome⟩) }

/-! ## Requests -/

/-- The client introduces itself. -/
def start (s : Server) (id : RequestId) (params : Json) (c : Connection) : Connection :=
  match SessionParams.codec.parseParams params with
  | .error e => c.answer id (.error e)
  | .ok p =>
    match c.session.start p s.advertised s.options.serverInfo s.options.positionEncodings with
    | .error e => c.answer id (.error e)
    | .ok (result, session) =>
      { c with session := session }.answer id (.result (SessionResult.codec.write result))

/-- Hand a request to its handler, unless one with the same id is being worked on. -/
def spawn (id : RequestId) (method : String) (params : Json) (h : RequestHandler)
    (c : Connection) : Connection :=
  if c.isInFlight id then
    c.answer id (.error (.invalidRequest "request id already in flight"))
  else
    { c with
      inFlight := c.inFlight ++ [(id, c.spawned)]
      tasks := c.tasks ++ [⟨c.spawned, id, method,
        .working (.running (h params ⟨id, c.spawned, c.negotiated⟩))⟩]
      spawned := c.spawned + 1 }

/-- A request that the session admits. -/
def serveRequest (s : Server) (id : RequestId) (method : String) (params : Json)
    (c : Connection) : Connection :=
  if method = Method.handshake then c.start s id params
  else if method = Method.shutdown then
    { c with session := c.session.shutdown }.answer id (.result .null)
  else
    match s.requests.lookup method with
    | some h => c.spawn id method params h
    | none =>
      if method = Method.willSaveWaitUntil then c.answer id (.result (.arr []))
      else c.answer id (.error (.methodNotFound method))

/-- A request, which the session may refuse. -/
def considerRequest (s : Server) (r : Request) (c : Connection) : Connection :=
  match c.session.admitRequest r.method with
  | .error e => c.answer r.id (.error e)
  | .ok () => c.serveRequest s r.id r.method (r.params.getD .null)

/-! ## Notifications -/

/-- Cancel a request that is being worked on. -/
def cancel (id : RequestId) (c : Connection) : Connection :=
  match c.inFlight.lookup id with
  | some token => c.fire token
  | none => c

/-- The documents after a notification about one of them; one that cannot be read or does not fit
changes nothing. -/
def syncDocuments (method : String) (params : Json) (e : PositionEncoding) (d : DocumentStore) :
    DocumentStore :=
  let apply {α : Type} (codec : Wire.Codec α) (f : α → Except SyncFault DocumentStore) :=
    match codec.decode params with
    | .error _ => d
    | .ok p =>
      match f p with
      | .error _ => d
      | .ok d => d
  if method = Method.didOpen then apply DidOpenParams.codec d.didOpen
  else if method = Method.didChange then apply DidChangeParams.codec (d.didChange · e)
  else if method = Method.didSave then apply DidSaveParams.codec d.didSave
  else if method = Method.didClose then
    apply DidCloseParams.codec fun p => d.didClose p.textDocument.uri
  else d

/-- The tokens known after a document is closed: its own are forgotten. -/
def syncTokens (params : Json) (cache : TokenCache) : TokenCache :=
  match DidCloseParams.codec.decode params with
  | .error _ => cache
  | .ok p => (cache.invalidate p.textDocument.uri).2

/-- Let the handler of a notification, if there is one, wait for its turn. -/
def enqueue (s : Server) (method : String) (params : Json) (c : Connection) : Connection :=
  match s.notifications.lookup method with
  | none => c
  | some h => { c with queue := c.queue ++ [⟨method, params, h params c.negotiated⟩] }

/-- Bring the documents in step with a notification. -/
def sync (method : String) (params : Json) (c : Connection) : Connection :=
  { c with
    documents := syncDocuments method params c.session.encoding c.documents
    reading := .synced method params }

/-- Drop all work, since the connection ends. Nobody waits any more for the calls that it made. -/
def drop (ending : Ending) (c : Connection) : Connection :=
  let activities := (c.current.map (·.activity)).toList ++ c.tasks.filterMap fun t =>
    match t.stage with
    | .working activity => some activity
    | .unlisted _ | .replying _ => none
  let deserted := activities.flatMap fun a => a.calls.filterMap OngoingCall.open?
  { c with
    tasks := []
    queue := []
    current := none
    link := deserted.foldl Link.desert c.link
    reading := .dropped ending }

/-- A notification that the session admits. -/
def serveNotification (method : String) (params : Json) (c : Connection) : Connection :=
  if method = Method.exit then
    let (status, session) := c.session.exit
    { c with session := session }.drop (.status status)
  else if method = Method.confirmed then { c with session := c.session.confirm }
  else if method = Method.cancelRequest then
    match CancelParams.codec.decode params with
    | .ok p => c.cancel p.id
    | .error _ => c
  else if method = Method.setTrace then
    match SetTraceParams.codec.decode params with
    | .ok p => { c with session := c.session.setTrace p.value }
    | .error _ => c
  else if method = Method.didClose then
    { c with cache := syncTokens params c.cache, reading := .forgotten params }
  else c.sync method params

/-! ## Stages -/

/-- Take something that has come in. A notification that the session refuses is passed over. -/
def take (incoming : Incoming) (c : Connection) : Connection :=
  match incoming with
  | .message (.response r) => { c with reading := .noted (.response r) }
  | .message (.request r) => { c with reading := .taken (.request r) }
  | .message (.notification n) =>
    if c.session.admitNotification n.method then { c with reading := .taken (.notification n) }
    else c
  | .unreadable fault =>
    match fault.reply with
    | some m => { c with reading := .answering m }
    | none => c
  | .ended fault => c.drop (.ofInput fault)

/-- Write to the client's trace what was taken, if it wants that. -/
def note (m : Message) (c : Connection) : Connection :=
  let entry (message : String) (params : Option Json) : Option Notification :=
    traceEntry c.session.trace message s!"Params: {(params.getD .null).render}"
  let entry := match m with
    | .request r => entry s!"Received request '{r.method} - ({r.id.display})'." r.params
    | .notification n => entry s!"Received notification '{n.method}'." n.params
    | .response _ => none
  { c with
    link := (entry.map fun n => c.link.post (.notification n)).getD c.link
    reading := .noted m }

/-- Serve a message. -/
def serve (s : Server) (m : Message) (c : Connection) : Connection :=
  let c := { c with reading := .idle }
  match m with
  | .request r => c.considerRequest s r
  | .notification n => c.serveNotification n.method (n.params.getD .null)
  | .response r => { c with link := c.link.resolve r }

/-- The next stage of the reader. -/
def stepReader (s : Server) (c : Connection) : Connection :=
  match c.reading with
  | .idle =>
    match c.inbox with
    | [] => c
    | incoming :: rest => { c with inbox := rest }.take incoming
  | .taken m => c.note m
  | .noted m => c.serve s m
  | .forgotten params => c.sync Method.didClose params
  | .synced method params => { c with reading := .idle }.enqueue s method params
  | .answering m => { c.post m with reading := .idle }
  | .dropped ending => { c with link := c.link.abandon, reading := .leaving ending }
  | .leaving ending => { c with reading := .idle, ending := some ending }

end LanguageServer.Connection
