import LanguageServer.Client.Call
import LanguageServer.Document.Store
import LanguageServer.Session.State
import LanguageServer.Token.Cache

set_option autoImplicit false

/-! # What a handler does

A handler is a program: a tree of single actions on the connection, each followed by what to do with
its answer. Actions are done at once; waits may take any time, and in the meantime other work goes
on. A program ends with an outcome, or it crashes.

What a handler can do to a connection is what `Action` and `Wait` list. Documents are there to be
looked at: only the client's notifications change them. Handlers share no state of their own, so what
one does follows from its parameters, its context and the answers to its actions. They do hold tokens
of each other: a program may name any token, and firing one that has not been given out does
nothing. -/

namespace LanguageServer

/-! ## Actions and waits -/

/-- What can be done with a stream of progress reports. -/
inductive ProgressAction where
  | create (token : ProgressToken)
  | discard (token : ProgressToken)
  | advance (token : ProgressToken) (value : WorkDoneProgress)
deriving DecidableEq, Repr, Inhabited

/-- Tells all that hold it whether a request has been cancelled. A request has the token with the
number of the work on it. -/
abbrev CancelToken := Nat

/-- An action that is done at once. -/
inductive Action where
  /-- Look at a document. -/
  | document (uri : String)
  /-- Count the open documents. -/
  | openCount
  /-- Look at the level of tracing. -/
  | traceLevel
  /-- Ask whether a token has been fired, and with it the request cancelled. -/
  | isCancelled (token : CancelToken)
  /-- Fire a token, as the client does by cancelling the request that has it. -/
  | fire (token : CancelToken)
  /-- Send a notification to the client; answers whether it could be sent. -/
  | send (notification : Notification)
  /-- Note a step of a stream of progress reports; answers why it does not fit, if it does not. -/
  | progress (action : ProgressAction)
  /-- Draw a number for a new stream. -/
  | nextStream
  /-- Answer with all tokens of a document. -/
  | tokensFull (uri : String) (data : List UInt32)
  /-- Answer with the changes to the tokens of a document. -/
  | tokensDelta (uri previous : String) (data : List UInt32)
deriving DecidableEq, Repr, Inhabited

/-- What an action answers. -/
abbrev Action.Answer : Action → Type
  | .document _ => Option TextDocument
  | .openCount => Nat
  | .traceLevel => TraceLevel
  | .isCancelled _ => Bool
  | .fire _ => Unit
  | .send _ => Bool
  | .progress _ => Option ProgressFault
  | .nextStream => Nat
  | .tokensFull .. => SemanticTokens
  | .tokensDelta .. => TokensResult

/-- Something to wait for. -/
inductive Wait where
  /-- Some milliseconds. -/
  | sleep (milliseconds : Nat)
  /-- That a token is fired. -/
  | cancellation (token : CancelToken)
  /-- That the client's trace is written to, if it wants one; answers whether it could be sent. -/
  | logTrace (message verbose : String)
  /-- That a call to the client has ended. -/
  | call (call : Call)
  /-- That calls to the client, all made at once, have ended. -/
  | calls (calls : List Call)
deriving DecidableEq, Repr, Inhabited

/-- What a wait answers. -/
abbrev Wait.Answer : Wait → Type
  | .sleep _ => Unit
  | .cancellation _ => Unit
  | .logTrace .. => Bool
  | .call _ => CallResult
  | .calls _ => List CallResult

/-- What a handler does. -/
inductive Program where
  | finish (outcome : Outcome)
  | crash
  | act (action : Action) (next : action.Answer → Program)
  | wait (w : Wait) (next : w.Answer → Program)

/-! ## Handlers -/

/-- What a request handler knows from the start. -/
structure RequestContext where
  id : RequestId
  token : CancelToken
  negotiated : Negotiated
deriving DecidableEq, Repr, Inhabited

/-- A handler of requests. -/
abbrev RequestHandler := Json → RequestContext → Program

/-- A handler of notifications. Nobody waits for its outcome. -/
abbrev NotificationHandler := Json → Negotiated → Program

end LanguageServer
