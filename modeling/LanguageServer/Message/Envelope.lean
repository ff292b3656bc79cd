import LanguageServer.Json.Reader
import LanguageServer.Message.Error

set_option autoImplicit false

/-! # Messages

The two peers exchange requests, notifications and responses, each one JSON object.
`Message.ofJson` decides which of the three an object is, or why it is none; `Message.toJson` writes
one. `Message.decode` and `Message.encode` do the same from and to bytes. -/

namespace LanguageServer

open Wire

/-- A call that expects a response. -/
structure Request where
  id : RequestId
  method : String
  params : Option Json
deriving DecidableEq, Repr, Inhabited

/-- A call that expects none. -/
structure Notification where
  method : String
  params : Option Json
deriving DecidableEq, Repr, Inhabited

/-- How a call ended. -/
inductive Outcome where
  | result (value : Json)
  | error (error : ResponseError)
deriving DecidableEq, Repr, Inhabited

/-- The answer to a request; it has no id when the request could not be read. -/
structure Response where
  id : Option RequestId
  outcome : Outcome
deriving DecidableEq, Repr, Inhabited

inductive Message where
  | request (r : Request)
  | notification (n : Notification)
  | response (r : Response)
deriving DecidableEq, Repr, Inhabited

/-- Why an object is not a message. -/
inductive EnvelopeReason where
  | notObject
  | unsupportedVersion (version : Json)
  | missingVersion
  | carriesOutcome (method : String)
  | badRequestId
  | badMethod
  | noMethodNoId
  | badResponseId
  | bothOutcomes
  | noOutcome
  | malformedError (fault : Fault)
deriving DecidableEq, Repr, Inhabited

/-- A value that is not a message. It is shaped like a request when it has both a method and an id,
so that its sender waits for an answer. -/
structure EnvelopeFault where
  reason : EnvelopeReason
  requestShaped : Bool
deriving DecidableEq, Repr, Inhabited

def EnvelopeReason.message : EnvelopeReason → String
  | .notObject => "message is not a JSON object"
  | .unsupportedVersion version => s!"unsupported jsonrpc version {version.render}"
  | .missingVersion => "missing jsonrpc field"
  | .carriesOutcome method => s!"{method} carries a result or error"
  | .badRequestId => "request id must be an integer or a string"
  | .badMethod => "method must be a string"
  | .noMethodNoId => "message has neither method nor id"
  | .badResponseId => "response id must be an integer, a string or null"
  | .bothOutcomes => "response carries both result and error"
  | .noOutcome => "response carries neither result nor error"
  | .malformedError fault => s!"malformed error object: {fault.message}"

def EnvelopeFault.message (f : EnvelopeFault) : String :=
  s!"invalid JSON-RPC envelope: {f.reason.message}"

namespace Message

/-- The protocol version every message names. -/
def version : Json := .str "2.0"

/-! ## Reading -/

/-- What a response carries. -/
def readOutcome (result error : Option Json) : Except EnvelopeReason Outcome :=
  match result, error with
  | some result, none => .ok (.result result)
  | none, some error =>
    match ResponseError.codec.decode error with
    | .ok e => .ok (.error e)
    | .error fault => .error (.malformedError fault)
  | some _, some _ => .error .bothOutcomes
  | none, none => .error .noOutcome

/-- The id of a response, which may be null. -/
def readResponseId (id : Json) : Except EnvelopeReason (Option RequestId) :=
  match id with
  | .null => .ok none
  | id =>
    match RequestId.ofJson? id with
    | some id => .ok (some id)
    | none => .error .badResponseId

/-- A message with a method. -/
def readCall (method : String) (id params result error : Option Json) :
    Except EnvelopeReason Message :=
  if result.isSome || error.isSome then .error (.carriesOutcome method)
  else
    match id with
    | none => .ok (.notification ⟨method, params⟩)
    | some id =>
      match RequestId.ofJson? id with
      | some id => .ok (.request ⟨id, method, params⟩)
      | none => .error .badRequestId

/-- A message without a method. -/
def readResponse (id result error : Option Json) : Except EnvelopeReason Message :=
  match id with
  | none => .error .noMethodNoId
  | some id => do
    let id ← readResponseId id
    let outcome ← readOutcome result error
    return .response ⟨id, outcome⟩

/-- The message an object is. -/
def ofMembers (ms : List (String × Json)) : Except EnvelopeReason Message :=
  match Json.lookup "jsonrpc" ms with
  | none => .error .missingVersion
  | some v =>
    if v = version then
      let id := Json.lookup "id" ms
      let result := Json.lookup "result" ms
      let error := Json.lookup "error" ms
      match Json.lookup "method" ms with
      | some (.str method) => readCall method id (Json.lookup "params" ms) result error
      | some _ => .error .badMethod
      | none => readResponse id result error
    else .error (.unsupportedVersion v)

/-- Whether an object has both a method and an id. -/
def isRequestShaped (ms : List (String × Json)) : Bool :=
  (Json.lookup "method" ms).isSome && (Json.lookup "id" ms).isSome

/-- The message a value is. -/
def ofJson (j : Json) : Except EnvelopeFault Message :=
  match j with
  | .obj ms =>
    match ofMembers ms with
    | .ok m => .ok m
    | .error reason => .error ⟨reason, isRequestShaped ms⟩
  | _ => .error ⟨.notObject, false⟩

/-! ## Writing -/

/-- The member of parameters, if there are any. -/
def paramsMembers (params : Option Json) : List (String × Json) :=
  match params with
  | some params => [("params", params)]
  | none => []

def toJson : Message → Json
  | .request r =>
    .obj ([("jsonrpc", version), ("id", r.id.toJson), ("method", .str r.method)] ++
      paramsMembers r.params)
  | .notification n =>
    .obj ([("jsonrpc", version), ("method", .str n.method)] ++ paramsMembers n.params)
  | .response r =>
    let id := match r.id with
      | some id => id.toJson
      | none => .null
    let outcome := match r.outcome with
      | .result value => ("result", value)
      | .error e => ("error", ResponseError.codec.write e)
    .obj [("jsonrpc", version), ("id", id), outcome]

/-- The method of a call. -/
def method? : Message → Option String
  | .request r => some r.method
  | .notification n => some n.method
  | .response _ => none

/-! ## Bytes -/

/-- The compact text of a message. -/
def render (m : Message) : String := m.toJson.render

/-- The body of a frame that carries a message. -/
def encode (m : Message) : List UInt8 := Text.Utf8.encode m.render

/-- Why a body is not a message. -/
inductive DecodeFault where
  | malformed (fault : TextFault)
  | envelope (fault : EnvelopeFault)
deriving DecidableEq, Repr, Inhabited

/-- The message in the body of a frame. -/
def decode (body : List UInt8) : Except DecodeFault Message :=
  match Json.parse body with
  | .error fault => .error (.malformed fault)
  | .ok j =>
    match ofJson j with
    | .error fault => .error (.envelope fault)
    | .ok m => .ok m

/-- The message that a text begins with. Only blanks may follow it, which is looked at last: a value
that is no message is told even if more stands after it. -/
def parse (text : List UInt8) : Except DecodeFault Message :=
  match Json.parseFirst text with
  | .error fault => .error (.malformed fault)
  | .ok (j, rest) =>
    match ofJson j with
    | .error fault => .error (.envelope fault)
    | .ok m => if Json.isFinished rest then .ok m else .error (.malformed .malformed)

/-- The answer owed for a body that is not a message: a text that is not JSON, and an object shaped
like a request, are answered without an id; anything else is passed over. -/
def DecodeFault.reply : DecodeFault → Option Message
  | .malformed _ => some (.response ⟨none, .error (.parseError "Parse error: <json>")⟩)
  | .envelope fault =>
    if fault.requestShaped then
      some (.response ⟨none, .error (.parseError s!"Parse error: {fault.reason.message}")⟩)
    else none

end Message

end LanguageServer
