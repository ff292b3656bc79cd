import LanguageServer.Client.Handle
import LanguageServer.Server.Basic

set_option autoImplicit false

/-! # Scripted handlers

A handler can be given as data: a list of instructions that are carried out in order. Each gives a
result, and the list of results is what the handler comes to. Arguments that belong to a wire type
are read when their turn comes, and one that cannot be read ends the handler. -/

namespace LanguageServer

/-! ## Values as results -/

/-- What a script sees of a document. -/
def TextDocument.toJson (d : TextDocument) : Json :=
  .obj [("uri", .str d.uri), ("languageId", .str d.languageId), ("version", .int d.version.toInt),
    ("text", .str d.text), ("lines", .nat d.lines.length)]

/-- What a script sees of what the two sides agreed on. -/
def Negotiated.toJson (n : Negotiated) : Json :=
  .obj [("clientCapabilities", n.clientCapabilities.value),
    ("positionEncoding", .str n.positionEncoding.name),
    ("clientInfo", (n.clientInfo.map ProgramInfo.clientCodec.write).getD .null),
    ("rootUri", (n.rootUri.map .str).getD .null),
    ("workspaceFolders", .arr (n.workspaceFolders.map WorkspaceFolder.codec.write)),
    ("initializationOptions", n.initializationOptions.getD .null)]

def CallFault.toJson (f : CallFault) : Json :=
  .obj [("error", .str f.kind), ("message", .str f.message)]

def CallResult.toJson : CallResult → Json
  | .answered value => .obj [("ok", value)]
  | .failed fault => fault.toJson
  | .gaveUp => .str "gave up"

/-! ## Instructions -/

/-- One instruction of a script. -/
inductive Instruction where
  /-- The parameters of the request or notification. -/
  | params
  /-- End with a result. -/
  | finish (value : Json)
  /-- End with an error. -/
  | fail (error : Json)
  | crash
  | sleep (milliseconds : Nat)
  /-- Wait until the request is cancelled; a notification does not wait. -/
  | awaitCancellation
  /-- The id of the request, and whether it has been cancelled. -/
  | request
  | negotiated
  | encoding
  | traceLevel
  | openCount
  | supports (path : String)
  | document (uri : String)
  /-- The position of the end of a document. -/
  | endPosition (uri : String)
  | ask (call : Call)
  | askAll (calls : List Call)
  | notify (method : String) (params : Json)
  | logMessage (type : Json) (message : String)
  | showMessage (type : Json) (message : String)
  | publish (uri : String) (version diagnostics : Json)
  | register (registrations : Json)
  | unregister (unregistrations : Json)
  | logTrace (message verbose : String)
  /-- Begin a stream of progress reports, which is then the current one. -/
  | beginProgress (token value : Json)
  /-- Ask the client for a stream and begin it; it is then the current one. -/
  | createProgress (value : Json)
  /-- Report on the current stream. -/
  | reportProgress (message percentage : Json)
  /-- End the current stream. -/
  | endProgress (message : Json)
deriving DecidableEq, Repr, Inhabited

/-- What a script works with. -/
structure ScriptState where
  params : Json
  /-- The request and its token, unless it handles a notification. -/
  request : Option (RequestId × CancelToken)
  negotiated : Negotiated
  /-- The current stream of progress reports. -/
  stream : Option ProgressToken
  /-- The results so far. -/
  results : List Json

namespace ScriptState

def push (s : ScriptState) (result : Json) : ScriptState :=
  { s with results := s.results ++ [result] }

/-- Add the result of something that can fail. -/
def pushUnit (s : ScriptState) : Except CallFault Unit → ScriptState
  | .ok () => s.push (.str "ok")
  | .error fault => s.push fault.toJson

/-- Add the result of opening a stream, which is then the current one. -/
def pushStream (s : ScriptState) : Except CallFault ProgressToken → ScriptState
  | .ok token =>
    { s with stream := some token }.push (.obj [("token", ProgressToken.codec.write token)])
  | .error fault => s.push fault.toJson

/-- Read an argument and go on, or end with why it cannot be read. -/
def reading {α : Type} (codec : Wire.Codec α) (argument : Json) (next : α → Program) : Program :=
  match codec.parseParams argument with
  | .ok a => next a
  | .error e => .finish (.error e)

/-- Carry out one instruction, then go on. -/
def carryOut (s : ScriptState) (i : Instruction) (next : ScriptState → Program) : Program :=
  match i with
  | .params => next (s.push s.params)
  | .finish value => .finish (.result value)
  | .fail error => reading ResponseError.codec error fun e => .finish (.error e)
  | .crash => .crash
  | .sleep milliseconds => .wait (.sleep milliseconds) fun _ => next (s.push (.str "slept"))
  | .awaitCancellation =>
    match s.request with
    | some (_, token) => .wait (.cancellation token) fun _ => next (s.push (.str "cancelled"))
    | none => next (s.push .null)
  | .request =>
    match s.request with
    | some (id, token) =>
      .act (.isCancelled token) fun cancelled =>
        next (s.push (.obj [("id", id.toJson), ("cancelled", .bool cancelled)]))
    | none => next (s.push .null)
  | .negotiated => next (s.push s.negotiated.toJson)
  | .encoding => next (s.push (.str s.negotiated.positionEncoding.name))
  | .traceLevel => .act .traceLevel fun level => next (s.push (.str level.name))
  | .openCount => .act .openCount fun count => next (s.push (.nat count))
  | .supports path => next (s.push (.bool (s.negotiated.clientCapabilities.supports path)))
  | .document uri =>
    .act (.document uri) fun d => next (s.push ((d.map TextDocument.toJson).getD .null))
  | .endPosition uri =>
    .act (.document uri) fun d =>
      let last (d : TextDocument) : Position :=
        d.positionOf d.text.utf8ByteSize s.negotiated.positionEncoding
      next (s.push ((d.map fun d => Position.codec.write (last d)).getD .null))
  | .ask call => .wait (.call call) fun result => next (s.push result.toJson)
  | .askAll calls =>
    .wait (.calls calls) fun results => next (s.push (.arr (results.map CallResult.toJson)))
  | .notify method params => Client.notify method params fun r => next (s.pushUnit r)
  | .logMessage type message =>
    reading MessageType.codec type fun type =>
      Client.logMessage ⟨type, message⟩ fun r => next (s.pushUnit r)
  | .showMessage type message =>
    reading MessageType.codec type fun type =>
      Client.showMessage ⟨type, message⟩ fun r => next (s.pushUnit r)
  | .publish uri version diagnostics =>
    reading (Wire.Fields.orNull .int32) version fun version =>
      reading (.list Diagnostic.codec) diagnostics fun diagnostics =>
        Client.publishDiagnostics ⟨uri, version, diagnostics⟩ fun r => next (s.pushUnit r)
  | .register registrations =>
    reading (.list Registration.codec) registrations fun registrations =>
      Client.register ⟨registrations⟩ fun r => next (s.pushUnit r)
  | .unregister unregistrations =>
    reading (.list Unregistration.codec) unregistrations fun unregistrations =>
      Client.unregister ⟨unregistrations⟩ fun r => next (s.pushUnit r)
  | .logTrace message verbose =>
    Client.logTrace message verbose fun r => next (s.pushUnit r)
  | .beginProgress token value =>
    reading ProgressToken.codec token fun token =>
      reading ProgressBegin.codec value fun value =>
        Client.beginProgress token value fun r => next (s.pushStream r)
  | .createProgress value =>
    reading ProgressBegin.codec value fun value =>
      Client.createProgress value fun r => next (s.pushStream r)
  | .reportProgress message percentage =>
    match s.stream with
    | none => next (s.push .null)
    | some token =>
      reading (Wire.Fields.orNull .string) message fun message =>
        reading (Wire.Fields.orNull .uint32) percentage fun percentage =>
          Client.reportProgress token message percentage fun r => next (s.pushUnit r)
  | .endProgress message =>
    match s.stream with
    | none => next (s.push .null)
    | some token =>
      reading (Wire.Fields.orNull .string) message fun message =>
        let s := { s with stream := none }
        Client.endProgress token message fun r => next (s.pushUnit r)

/-- Carry out instructions in order. -/
def carryOutAll : List Instruction → ScriptState → Program
  | [], s => .finish (.result (.arr s.results))
  | i :: rest, s => s.carryOut i (carryOutAll rest)

end ScriptState

namespace Server

/-- Handle a request by a script. -/
def withRequestScript (s : Server) (method : String) (script : List Instruction) : Server :=
  s.withRequest method fun params cx =>
    ScriptState.carryOutAll script ⟨params, some (cx.id, cx.token), cx.negotiated, none, []⟩

/-- Handle a notification by a script. -/
def withNotificationScript (s : Server) (method : String) (script : List Instruction) : Server :=
  s.withNotification method fun params negotiated =>
    ScriptState.carryOutAll script ⟨params, none, negotiated, none, []⟩

end Server

end LanguageServer
