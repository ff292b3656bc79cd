import LanguageServer.Message.Id
import LanguageServer.Session.Capabilities

set_option autoImplicit false

/-! # What the peers say when a session starts, and about its log -/

namespace LanguageServer

open Wire

/-- The name of a program, with its version. -/
structure ProgramInfo where
  name : String
  version : Option String
deriving DecidableEq, Repr, Inhabited

namespace ProgramInfo

def fields : Fields ProgramInfo :=
  ((Fields.required "name" .string).and (.optional "version" .string)).map
    (fun (name, version) => ⟨name, version⟩) (fun i => (i.name, i.version))

/-- A program that acts as the client. -/
def clientCodec : Codec ProgramInfo := .record "ClientInfo" fields

/-- A program that acts as the server. -/
def serverCodec : Codec ProgramInfo := .record "ServerInfo" fields

end ProgramInfo

structure WorkspaceFolder where
  uri : String
  name : String
deriving DecidableEq, Repr, Inhabited

def WorkspaceFolder.codec : Codec WorkspaceFolder :=
  .record "WorkspaceFolder" <|
    ((Fields.required "uri" .string).and (.required "name" .string)).map
      (fun (uri, name) => ⟨uri, name⟩) (fun f => (f.uri, f.name))

/-- How much the server tells about its work. -/
inductive TraceLevel where
  | off
  | messages
  | verbose
deriving DecidableEq, Repr, Inhabited

namespace TraceLevel

def all : List TraceLevel := [.off, .messages, .verbose]

def name : TraceLevel → String
  | .off => "off"
  | .messages => "messages"
  | .verbose => "verbose"

/-- Levels are ordered by how much is told. -/
def rank : TraceLevel → Nat
  | .off => 0
  | .messages => 1
  | .verbose => 2

def lt (a b : TraceLevel) : Bool := a.rank < b.rank

def codec : Codec TraceLevel := .named all name

end TraceLevel

/-- What the client says first. -/
structure SessionParams where
  processId : Option Int64
  clientInfo : Option ProgramInfo
  locale : Option String
  rootUri : Option String
  initializationOptions : Option Json
  capabilities : ClientCapabilities
  trace : Option TraceLevel
  workspaceFolders : Option (List WorkspaceFolder)
deriving DecidableEq, Repr, Inhabited

def SessionParams.codec : Codec SessionParams :=
  .record "InitializeParams" <|
    ((Fields.nullable "processId" .int64).and
      ((Fields.optional "clientInfo" ProgramInfo.clientCodec).and
      ((Fields.optional "locale" .string).and
      ((Fields.nullable "rootUri" .string).and
      ((Fields.optional "initializationOptions" .json).and
      ((Fields.defaulted "capabilities" ClientCapabilities.codec ⟨.null⟩).and
      ((Fields.optional "trace" TraceLevel.codec).and
      (.optional "workspaceFolders" (.list WorkspaceFolder.codec))))))))).map
      (fun (processId, clientInfo, locale, rootUri, initializationOptions, capabilities, trace,
          workspaceFolders) =>
        ⟨processId, clientInfo, locale, rootUri, initializationOptions, capabilities, trace,
          workspaceFolders⟩)
      (fun p => (p.processId, p.clientInfo, p.locale, p.rootUri, p.initializationOptions,
        p.capabilities, p.trace, p.workspaceFolders))

/-- What the server answers to it. -/
structure SessionResult where
  capabilities : ServerCapabilities
  serverInfo : Option ProgramInfo
deriving DecidableEq, Repr, Inhabited

def SessionResult.codec : Codec SessionResult :=
  .record "InitializeResult" <|
    ((Fields.required "capabilities" ServerCapabilities.codec).and
      (.optional "serverInfo" ProgramInfo.serverCodec)).map
      (fun (capabilities, serverInfo) => ⟨capabilities, serverInfo⟩)
      (fun r => (r.capabilities, r.serverInfo))

/-- Asks to cancel a request. -/
structure CancelParams where
  id : RequestId
deriving DecidableEq, Repr, Inhabited

def CancelParams.codec : Codec CancelParams :=
  .record "CancelParams" <| (Fields.required "id" RequestId.codec).map (⟨·⟩) (·.id)

structure SetTraceParams where
  value : TraceLevel
deriving DecidableEq, Repr, Inhabited

def SetTraceParams.codec : Codec SetTraceParams :=
  .record "SetTraceParams" <| (Fields.required "value" TraceLevel.codec).map (⟨·⟩) (·.value)

structure LogTraceParams where
  message : String
  verbose : Option String
deriving DecidableEq, Repr, Inhabited

def LogTraceParams.codec : Codec LogTraceParams :=
  .record "LogTraceParams" <|
    ((Fields.required "message" .string).and (.optional "verbose" .string)).map
      (fun (message, verbose) => ⟨message, verbose⟩) (fun p => (p.message, p.verbose))

end LanguageServer
