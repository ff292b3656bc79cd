import LanguageServer.Client.Payload
import LanguageServer.Server.Program

set_option autoImplicit false

/-! # Talking to the client

The ways in which a handler can address the client, each with what to do next. -/

namespace LanguageServer.Client

/-- Send a notification. -/
def notify (method : String) (params : Json) (next : Except CallFault Unit → Program) : Program :=
  .act (.send ⟨method, paramsOf params⟩) fun sent =>
    next (if sent then .ok () else .error .disconnected)

/-- Make a call and wait for its answer; it is never given up. -/
def request (method : String) (params : Json) (next : Except CallFault Json → Program) : Program :=
  .wait (.call ⟨method, paramsOf params, none⟩) fun
    | .answered value => next (.ok value)
    | .failed fault => next (.error fault)
    | .gaveUp => next (.error (.abandoned method))

def logMessage (params : MessageParams) (next : Except CallFault Unit → Program) : Program :=
  notify Method.logMessage (MessageParams.logCodec.write params) next

def showMessage (params : MessageParams) (next : Except CallFault Unit → Program) : Program :=
  notify Method.showMessage (MessageParams.showCodec.write params) next

def publishDiagnostics (params : PublishDiagnosticsParams)
    (next : Except CallFault Unit → Program) : Program :=
  notify Method.publishDiagnostics (PublishDiagnosticsParams.codec.write params) next

/-- Register capabilities; what the client answers does not matter. -/
def register (params : RegistrationParams) (next : Except CallFault Unit → Program) : Program :=
  request Method.registerCapability (RegistrationParams.codec.write params) fun r =>
    next (r.map fun _ => ())

def unregister (params : UnregistrationParams) (next : Except CallFault Unit → Program) :
    Program :=
  request Method.unregisterCapability (UnregistrationParams.codec.write params) fun r =>
    next (r.map fun _ => ())

/-- Write to the client's trace, if it wants one. -/
def logTrace (message verbose : String) (next : Except CallFault Unit → Program) : Program :=
  .wait (.logTrace message verbose) fun sent =>
    next (if sent then .ok () else .error .disconnected)

/-! ## Progress -/

/-- Send a report, if it fits its stream. -/
def progress (token : ProgressToken) (value : WorkDoneProgress)
    (next : Except CallFault Unit → Program) : Program :=
  .act (.progress (.advance token value)) fun
    | some fault => next (.error (.progress fault))
    | none =>
      notify Method.progress
        (ProgressParams.codec.write ⟨token, WorkDoneProgress.codec.write value⟩) next

/-- Begin a stream under a key the client has chosen. -/
def beginProgress (token : ProgressToken) (value : ProgressBegin)
    (next : Except CallFault ProgressToken → Program) : Program :=
  progress token (.begin value) fun r => next (r.map fun _ => token)

/-- The key of the `n`-th stream that the server opens by itself. -/
def ownToken (n : Nat) : ProgressToken := .text s!"parley/{n}"

/-- Ask the client for a stream, then begin it. -/
def createProgress (value : ProgressBegin) (next : Except CallFault ProgressToken → Program) :
    Program :=
  .act .nextStream fun n =>
    let token := ownToken n
    .act (.progress (.create token)) fun
      | some fault => next (.error (.progress fault))
      | none =>
        request Method.createProgress (ProgressCreateParams.codec.write ⟨token⟩) fun
          | .ok _ => beginProgress token value next
          | .error fault =>
            .act (.progress (.discard token)) fun _ => next (.error fault)

/-- Report on a stream; a percentage above 100 is lowered to 100. -/
def reportProgress (token : ProgressToken) (message : Option String) (percentage : Option UInt32)
    (next : Except CallFault Unit → Program) : Program :=
  progress token (.report ⟨none, message, percentage.map (min 100)⟩) next

/-- End a stream. -/
def endProgress (token : ProgressToken) (message : Option String)
    (next : Except CallFault Unit → Program) : Program :=
  progress token (.finish ⟨message⟩) next

end LanguageServer.Client
