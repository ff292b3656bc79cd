import LanguageServer.Frame
import LanguageServer.Server.Program
import LanguageServer.Token.Data

set_option autoImplicit false

/-! # Servers

A server is its options, its handlers by method, and the capabilities it tells the client. The
requests for semantic tokens have handlers of their own, made from a provider that computes the
tokens of a document. -/

namespace LanguageServer

structure ServerOptions where
  serverInfo : Option ProgramInfo
  syncKind : SyncKind
  /-- The encodings the server can work in, most preferred first. -/
  positionEncodings : List PositionEncoding
  maxFrameBytes : Nat
  /-- How many milliseconds a call to the client may take. -/
  requestTimeout : Nat
deriving DecidableEq, Repr, Inhabited

def ServerOptions.default : ServerOptions :=
  ⟨none, .incremental, [.utf16], Frame.defaultLimit, 30000⟩

/-- Computes the tokens of a document, with columns in the given encoding. -/
abbrev TokenProvider := TextDocument → PositionEncoding → List SemanticToken

structure Server where
  options : ServerOptions
  capabilities : ServerCapabilities
  requests : List (String × RequestHandler)
  notifications : List (String × NotificationHandler)
  /-- Computes semantic tokens, if the server does that by itself. -/
  tokens : Option TokenProvider

/-! ## Semantic tokens -/

namespace TokenProvider

def notOpen (uri : String) : Outcome := .error (.requestFailed s!"document not open: {uri}")

/-- Look at a document and go on with the data of its tokens. -/
def compute (provider : TokenProvider) (n : Negotiated) (uri : String)
    (next : List UInt32 → Program) : Program :=
  .act (.document uri) fun
    | none => .finish (notOpen uri)
    | some d => next (SemanticToken.encode (provider d n.positionEncoding))

/-- Answers with all tokens of a document. -/
def full (provider : TokenProvider) : RequestHandler := fun params cx =>
  match TokensParams.codec.parseParams params with
  | .error e => .finish (.error e)
  | .ok p =>
    let uri := p.textDocument.uri
    provider.compute cx.negotiated uri fun data =>
      .act (.tokensFull uri data) fun tokens =>
        .finish (.result (SemanticTokens.codec.write tokens))

/-- Answers with the changes since an earlier answer. -/
def delta (provider : TokenProvider) : RequestHandler := fun params cx =>
  match TokensDeltaParams.codec.parseParams params with
  | .error e => .finish (.error e)
  | .ok p =>
    let uri := p.textDocument.uri
    provider.compute cx.negotiated uri fun data =>
      .act (.tokensDelta uri p.previousResultId data) fun result =>
        .finish (.result (TokensResult.codec.write result))

/-- Answers with the tokens of a part of a document. -/
def range (provider : TokenProvider) : RequestHandler := fun params cx =>
  match TokensRangeParams.codec.parseParams params with
  | .error e => .finish (.error e)
  | .ok p =>
    let uri := p.textDocument.uri
    .act (.document uri) fun
      | none => .finish (notOpen uri)
      | some d =>
        let tokens := SemanticToken.inRange (provider d cx.negotiated.positionEncoding) p.range
        .finish (.result (SemanticTokens.codec.write ⟨none, SemanticToken.encode tokens⟩))

end TokenProvider

/-! ## Putting a server together -/

/-- Register under a name, in place of what was registered before. -/
def register {α : Type} (table : List (String × α)) (name : String) (value : α) :
    List (String × α) :=
  table.filter (fun entry => entry.1 ≠ name) ++ [(name, value)]

namespace Server

def withRequest (s : Server) (method : String) (h : RequestHandler) : Server :=
  { s with requests := register s.requests method h }

def withNotification (s : Server) (method : String) (h : NotificationHandler) : Server :=
  { s with notifications := register s.notifications method h }

/-- Serve requests for semantic tokens. -/
def withTokens (s : Server) (legend : Legend) (provider : TokenProvider) : Server :=
  let s := s.withRequest Method.tokensFull provider.full
  let s := s.withRequest Method.tokensDelta provider.delta
  let s := s.withRequest Method.tokensRange provider.range
  { s with
    tokens := some provider
    capabilities := { s.capabilities with
      semanticTokensProvider := some ⟨⟨none⟩, legend, some true, some (.delta (some true))⟩ } }

/-- A server without handlers. -/
def bare (options : ServerOptions) (capabilities : ServerCapabilities) : Server :=
  ⟨options, capabilities, [], [], none⟩

/-- Whether a request has a handler. -/
def handlesRequest (s : Server) (method : String) : Bool := (s.requests.lookup method).isSome

/-- What the server tells the client it can do: documents are kept in step by the server itself. -/
def advertised (s : Server) : ServerCapabilities :=
  { s.capabilities with
    textDocumentSync := some (.options
      { openClose := some true
        change := some s.options.syncKind
        willSave := some true
        willSaveWaitUntil := some (s.handlesRequest Method.willSaveWaitUntil)
        save := some ⟨some true⟩ }) }

end Server

end LanguageServer
