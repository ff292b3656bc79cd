import LanguageServer.Message.Error
import LanguageServer.Message.Method
import LanguageServer.Session.Payload

set_option autoImplicit false

/-! # The life of a session

A session starts when the client introduces itself, is active once it has confirmed that, winds down
when it asks for that, and is over when it says so. What may be said depends on how far the session
has come; what the two sides agreed on is fixed when it starts. -/

namespace LanguageServer

inductive SessionState where
  | unstarted
  | initializing
  | active
  | shuttingDown
  | exited
deriving DecidableEq, Repr, Inhabited

def SessionState.name : SessionState → String
  | .unstarted => "Unstarted"
  | .initializing => "Initializing"
  | .active => "Active"
  | .shuttingDown => "ShuttingDown"
  | .exited => "Exited"

/-- How a connection ended. -/
inductive ExitStatus where
  /-- The client said goodbye in order. -/
  | clean
  /-- It left without asking the server to wind down. -/
  | shutdownSkipped
  /-- Its messages stopped coming. -/
  | connectionClosed
deriving DecidableEq, Repr, Inhabited

namespace ExitStatus

/-- The exit code of the program. -/
def code : ExitStatus → Nat
  | .clean => 0
  | .shutdownSkipped | .connectionClosed => 1

def name : ExitStatus → String
  | .clean => "Clean"
  | .shutdownSkipped => "ShutdownSkipped"
  | .connectionClosed => "ConnectionClosed"

end ExitStatus

/-- What the two sides agreed on. -/
structure Negotiated where
  clientCapabilities : ClientCapabilities
  positionEncoding : PositionEncoding
  clientInfo : Option ProgramInfo
  rootUri : Option String
  workspaceFolders : List WorkspaceFolder
  initializationOptions : Option Json
deriving DecidableEq, Repr, Inhabited

/-- The encoding to use: the first of the preferred ones that the client offers. A client that
offers none of them, or nothing at all, gets the one everybody knows. -/
def negotiateEncoding (preferred : List PositionEncoding) (client : ClientCapabilities) :
    PositionEncoding :=
  (preferred.find? fun e => client.positionEncodings.contains e).getD .fallback

structure Session where
  state : SessionState
  negotiated : Option Negotiated
  trace : TraceLevel
  shutdownRequested : Bool
deriving DecidableEq, Repr, Inhabited

namespace Session

def fresh : Session := ⟨.unstarted, none, .off, false⟩

/-- The encoding agreed on. -/
def encoding (s : Session) : PositionEncoding :=
  match s.negotiated with
  | some n => n.positionEncoding
  | none => .fallback

def onlyOnce : ResponseError := .invalidRequest "initialize may only be sent once"

/-- Whether a request may be made now. -/
def admitRequest (s : Session) (method : String) : Except ResponseError Unit :=
  match s.state with
  | .unstarted => if method = Method.handshake then .ok () else .error .serverNotInitialized
  | .initializing => if method = Method.handshake then .error onlyOnce else .error .serverNotInitialized
  | .active => if method = Method.handshake then .error onlyOnce else .ok ()
  | .shuttingDown =>
    if method = Method.shutdown then .ok ()
    else .error (.invalidRequest s!"server is shutting down; {method} rejected")
  | .exited => .error (.invalidRequest "server has exited")

/-- Whether a notification is heard now. -/
def admitNotification (s : Session) (method : String) : Bool :=
  match s.state with
  | .exited => false
  | .unstarted | .shuttingDown => method = Method.exit
  | .initializing => method = Method.exit || method = Method.confirmed
  | .active => true

def setTrace (s : Session) (level : TraceLevel) : Session := { s with trace := level }

/-- The client introduces itself: agree on what is open and answer with what the server can do. -/
def start (s : Session) (p : SessionParams) (capabilities : ServerCapabilities)
    (info : Option ProgramInfo) (preferred : List PositionEncoding) :
    Except ResponseError (SessionResult × Session) :=
  if s.state = .unstarted then
    let e := negotiateEncoding preferred p.capabilities
    .ok (⟨{ capabilities with positionEncoding := some e }, info⟩,
      { s with
        state := .initializing
        trace := p.trace.getD s.trace
        negotiated := some
          { clientCapabilities := p.capabilities
            positionEncoding := e
            clientInfo := p.clientInfo
            rootUri := p.rootUri
            workspaceFolders := p.workspaceFolders.getD []
            initializationOptions := p.initializationOptions } })
  else .error onlyOnce

/-- The client confirms. -/
def confirm (s : Session) : Session :=
  if s.state = .initializing then { s with state := .active } else s

/-- The client asks to wind down. -/
def shutdown (s : Session) : Session := { s with state := .shuttingDown, shutdownRequested := true }

/-- The client leaves. -/
def exit (s : Session) : ExitStatus × Session :=
  (if s.shutdownRequested then .clean else .shutdownSkipped, { s with state := .exited })

end Session

end LanguageServer
