import LanguageServer.Message.Id
import LanguageServer.Wire.Record

set_option autoImplicit false

/-! # Errors that answer a request -/

namespace LanguageServer

open Wire

/-- The code of an error. Some codes have a meaning fixed by the protocol; all others belong to the
server that sends them. -/
inductive ErrorCode where
  | parseError
  | invalidRequest
  | methodNotFound
  | invalidParams
  | internalError
  | serverNotInitialized
  | unknownErrorCode
  | requestFailed
  | serverCancelled
  | contentModified
  | requestCancelled
  | serverDefined (value : Int64)
deriving DecidableEq, Repr, Inhabited

namespace ErrorCode

/-- The number a code is written as. -/
def value : ErrorCode → Int64
  | .parseError => -32700
  | .invalidRequest => -32600
  | .methodNotFound => -32601
  | .invalidParams => -32602
  | .internalError => -32603
  | .serverNotInitialized => -32002
  | .unknownErrorCode => -32001
  | .requestFailed => -32803
  | .serverCancelled => -32802
  | .contentModified => -32801
  | .requestCancelled => -32800
  | .serverDefined value => value

/-- The codes with a meaning of their own. -/
def known : List ErrorCode :=
  [.parseError, .invalidRequest, .methodNotFound, .invalidParams, .internalError,
   .serverNotInitialized, .unknownErrorCode, .requestFailed, .serverCancelled, .contentModified,
   .requestCancelled]

/-- The code a number stands for; a known one where there is one. -/
def ofValue (n : Int64) : ErrorCode :=
  (known.find? fun c => c.value = n).getD (.serverDefined n)

def name : ErrorCode → String
  | .parseError => "ParseError"
  | .invalidRequest => "InvalidRequest"
  | .methodNotFound => "MethodNotFound"
  | .invalidParams => "InvalidParams"
  | .internalError => "InternalError"
  | .serverNotInitialized => "ServerNotInitialized"
  | .unknownErrorCode => "UnknownErrorCode"
  | .requestFailed => "RequestFailed"
  | .serverCancelled => "ServerCancelled"
  | .contentModified => "ContentModified"
  | .requestCancelled => "RequestCancelled"
  | .serverDefined value => s!"ServerDefined({int64Text value})"

/-- The code as shown to people. -/
def display (c : ErrorCode) : String := int64Text c.value

/-- Whether the code says that work was cancelled rather than that it failed. -/
def isCancellation : ErrorCode → Bool
  | .requestCancelled | .serverCancelled => true
  | _ => false

def codec : Codec ErrorCode := Codec.int64.map ofValue value

end ErrorCode

/-- The error that answers a request. -/
structure ResponseError where
  code : ErrorCode
  message : String
  data : Option Json
deriving DecidableEq, Repr, Inhabited

namespace ResponseError

def fields : Fields ResponseError :=
  ((Fields.required "code" ErrorCode.codec).and
    ((Fields.required "message" .string).and (.optional "data" .json))).map
    (fun (code, message, data) => ⟨code, message, data⟩)
    (fun e => (e.code, e.message, e.data))

def codec : Codec ResponseError := .record "ResponseError" fields

/-- The error as shown to people. -/
def display (e : ResponseError) : String := s!"{e.message} (code {e.code.display})"

/-- An error without further data. -/
def plain (code : ErrorCode) (message : String) : ResponseError := ⟨code, message, none⟩

def parseError (message : String) : ResponseError := plain .parseError message
def invalidRequest (message : String) : ResponseError := plain .invalidRequest message
def invalidParams (message : String) : ResponseError := plain .invalidParams message
def internalError (message : String) : ResponseError := plain .internalError message
def requestFailed (message : String) : ResponseError := plain .requestFailed message

def methodNotFound (method : String) : ResponseError :=
  plain .methodNotFound s!"Method not found: {method}"

def serverNotInitialized : ResponseError :=
  plain .serverNotInitialized "Server has not been initialized"

def requestCancelled : ResponseError := plain .requestCancelled "Request cancelled"

end ResponseError

/-- Read the parameters of a method; a value of the wrong shape is the sender's error. -/
def Wire.Codec.parseParams {α : Type} (c : Codec α) (j : Json) : Except ResponseError α :=
  match c.decode j with
  | .ok a => .ok a
  | .error e => .error (.invalidParams e.message)

end LanguageServer
