set_option autoImplicit false

/-! # Methods the server knows by itself -/

namespace LanguageServer.Method

/-! ## The life of a session -/

def handshake : String := "initialize"
def confirmed : String := "initialized"
def shutdown : String := "shutdown"
def exit : String := "exit"

/-! ## Requests, progress and tracing -/

def cancelRequest : String := "$/cancelRequest"
def progress : String := "$/progress"
def setTrace : String := "$/setTrace"
def logTrace : String := "$/logTrace"

/-! ## Documents -/

def didOpen : String := "textDocument/didOpen"
def didChange : String := "textDocument/didChange"
def didSave : String := "textDocument/didSave"
def willSave : String := "textDocument/willSave"
def willSaveWaitUntil : String := "textDocument/willSaveWaitUntil"
def didClose : String := "textDocument/didClose"

/-! ## Semantic tokens -/

def tokensFull : String := "textDocument/semanticTokens/full"
def tokensDelta : String := "textDocument/semanticTokens/full/delta"
def tokensRange : String := "textDocument/semanticTokens/range"

/-! ## What the server sends -/

def publishDiagnostics : String := "textDocument/publishDiagnostics"
def logMessage : String := "window/logMessage"
def showMessage : String := "window/showMessage"
def createProgress : String := "window/workDoneProgress/create"
def registerCapability : String := "client/registerCapability"
def unregisterCapability : String := "client/unregisterCapability"

end LanguageServer.Method
