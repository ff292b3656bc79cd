import LanguageServer.Document.Position

set_option autoImplicit false

/-! # What the server tells and asks the client -/

namespace LanguageServer

open Wire

/-- A capability registered while a session is running. -/
structure Registration where
  id : String
  method : String
  registerOptions : Option Json
deriving DecidableEq, Repr, Inhabited

def Registration.codec : Codec Registration :=
  .record "Registration" <|
    ((Fields.required "id" .string).and ((Fields.required "method" .string).and
      (.optional "registerOptions" .json))).map
      (fun (id, method, registerOptions) => ⟨id, method, registerOptions⟩)
      (fun r => (r.id, r.method, r.registerOptions))

structure RegistrationParams where
  registrations : List Registration
deriving DecidableEq, Repr, Inhabited

def RegistrationParams.codec : Codec RegistrationParams :=
  .record "RegistrationParams" <|
    (Fields.required "registrations" (.list Registration.codec)).map (⟨·⟩) (·.registrations)

structure Unregistration where
  id : String
  method : String
deriving DecidableEq, Repr, Inhabited

def Unregistration.codec : Codec Unregistration :=
  .record "Unregistration" <|
    ((Fields.required "id" .string).and (.required "method" .string)).map
      (fun (id, method) => ⟨id, method⟩) (fun u => (u.id, u.method))

structure UnregistrationParams where
  unregistrations : List Unregistration
deriving DecidableEq, Repr, Inhabited

/-- The protocol spells the field with one `e` more than its type. -/
def UnregistrationParams.codec : Codec UnregistrationParams :=
  .record "UnregistrationParams" <|
    (Fields.required "unregisterations" (.list Unregistration.codec)).map
      (⟨·⟩) (·.unregistrations)

/-- How serious a message is. -/
inductive MessageType where
  | error
  | warning
  | info
  | log
  | debug
deriving DecidableEq, Repr, Inhabited

namespace MessageType

def all : List MessageType := [.error, .warning, .info, .log, .debug]

def code : MessageType → UInt8
  | .error => 1
  | .warning => 2
  | .info => 3
  | .log => 4
  | .debug => 5

def name : MessageType → String
  | .error => "Error"
  | .warning => "Warning"
  | .info => "Info"
  | .log => "Log"
  | .debug => "Debug"

def codec : Codec MessageType := .numbered "message type" all code

end MessageType

/-- A message to log or to show. -/
structure MessageParams where
  type : MessageType
  message : String
deriving DecidableEq, Repr, Inhabited

namespace MessageParams

def fields : Fields MessageParams :=
  ((Fields.required "type" MessageType.codec).and (.required "message" .string)).map
    (fun (type, message) => ⟨type, message⟩) (fun p => (p.type, p.message))

def logCodec : Codec MessageParams := .record "LogMessageParams" fields

def showCodec : Codec MessageParams := .record "ShowMessageParams" fields

end MessageParams

/-- A remark on a piece of text. Members that are not known here are kept. -/
structure Diagnostic where
  range : Range
  severity : Option UInt8
  source : Option String
  message : String
  extra : List (String × Json)
deriving DecidableEq, Repr, Inhabited

def Diagnostic.codec : Codec Diagnostic :=
  .mapping "Diagnostic" <|
    (((Fields.required "range" Range.codec).and ((Fields.optional "severity" .uint8).and
      ((Fields.optional "source" .string).and (.required "message" .string)))).andOthers).map
      (fun ((range, severity, source, message), extra) =>
        ⟨range, severity, source, message, extra⟩)
      (fun d => ((d.range, d.severity, d.source, d.message), d.extra))

/-- All remarks on a document. -/
structure PublishDiagnosticsParams where
  uri : String
  version : Option Int32
  diagnostics : List Diagnostic
deriving DecidableEq, Repr, Inhabited

def PublishDiagnosticsParams.codec : Codec PublishDiagnosticsParams :=
  .record "PublishDiagnosticsParams" <|
    ((Fields.required "uri" .string).and ((Fields.optional "version" .int32).and
      (.required "diagnostics" (.list Diagnostic.codec)))).map
      (fun (uri, version, diagnostics) => ⟨uri, version, diagnostics⟩)
      (fun p => (p.uri, p.version, p.diagnostics))

end LanguageServer
