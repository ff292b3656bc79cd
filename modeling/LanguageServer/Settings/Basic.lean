import LanguageServer.Server.Basic
import LanguageServer.Settings.Expansion
import LanguageServer.Text.Blank
import LanguageServer.Toml.Document

set_option autoImplicit false

/-! # Settings

The settings of the program come from a TOML document; what it does not set has a default. Keys that
mean nothing are passed over. A group of settings can also be given as an array, with its members in
order. -/

namespace LanguageServer

/-- How the client is asked to send changes. -/
inductive ChangeMode where
  | full
  | incremental
deriving DecidableEq, Repr, Inhabited

def ChangeMode.name : ChangeMode → String
  | .full => "Full"
  | .incremental => "Incremental"

def ChangeMode.syncKind : ChangeMode → SyncKind
  | .full => .full
  | .incremental => .incremental

structure Settings where
  serverName : Option String
  serverVersion : Option String
  change : ChangeMode
  /-- The encodings to offer, most preferred first. -/
  positionEncodings : List PositionEncoding
  maxFrameBytes : Option Nat
  requestTimeoutSeconds : Option Nat
  logFilter : Option String
  logFile : Option String
deriving DecidableEq, Repr, Inhabited

namespace Settings

def default : Settings := ⟨none, none, .incremental, [], none, none, none, none⟩

/-! ## Reading -/

/-- The members of a group, by name. In an array they stand in order, all of them unless those that
are missing have defaults. A date counts as a group without members. -/
def members? (names : List String) (defaulted : Bool) : Toml → Option (String → Option Toml)
  | .table entries => some fun name => entries.lookup name
  | .arr items =>
    if defaulted || names.length ≤ items.length then
      some fun name => (names.zip items).lookup name
    else none
  | .moment _ => some fun _ => none
  | _ => none

/-- A member that may be missing. -/
def optional? {α : Type} (read : Toml → Option α) : Option Toml → Option (Option α)
  | none => some none
  | some v => (read v).map some

def text? : Toml → Option String
  | .str s => some s
  | _ => none

/-- A number of at most 64 bits. -/
def count? : Toml → Option Nat
  | .int n => if 0 ≤ n && n < 18446744073709551616 then some n.toNat else none
  | _ => none

/-- A choice by name; the name may also stand as the only key of a table, over nothing. -/
def choice? {α : Type} (ofName : String → Option α) : Toml → Option α
  | .str s => ofName s
  | .table [(name, .table [])] | .table [(name, .arr [])] => ofName name
  | _ => none

def changeMode? : Toml → Option ChangeMode :=
  choice? fun
    | "full" => some .full
    | "incremental" => some .incremental
    | _ => none

def encodings? : Toml → Option (List PositionEncoding)
  | .arr items => items.mapM (choice? PositionEncoding.ofName?)
  | _ => none

/-- A group that may be missing. -/
def group? (names : List String) (defaulted : Bool) (group : Option Toml) :
    Option (String → Option Toml) :=
  match group with
  | none => some fun _ => none
  | some v => members? names defaulted v

/-- The settings that a document describes. -/
def ofToml? (document : Toml) : Option Settings := do
  let groups ← members? ["server", "sync", "transport", "log"] true document
  let server ← group? ["name", "version"] false (groups "server")
  let sync ← group? ["change", "position_encodings"] true (groups "sync")
  let transport ← group? ["max_frame_bytes", "request_timeout_secs"] false (groups "transport")
  let log ← group? ["filter", "file"] false (groups "log")
  return {
    serverName := ← optional? text? (server "name")
    serverVersion := ← optional? text? (server "version")
    change := (← optional? changeMode? (sync "change")).getD .incremental
    positionEncodings := (← optional? encodings? (sync "position_encodings")).getD []
    maxFrameBytes := ← optional? count? (transport "max_frame_bytes")
    requestTimeoutSeconds := ← optional? count? (transport "request_timeout_secs")
    logFilter := ← optional? text? (log "filter")
    logFile := ← optional? text? (log "file") }

/-- The settings in a text. -/
def parse? (text : String) : Option Settings := (Toml.parse? text).bind ofToml?

/-! ## What settings mean -/

/-- Which messages to log. -/
def filter (s : Settings) : String := s.logFilter.getD "info"

/-- The file to log to, with variables in its name replaced; a blank name is none. -/
def filePath (env : Environment) (s : Settings) : Option String :=
  match s.logFile with
  | none => none
  | some file =>
    let path := expand env file
    if (Text.trim path.toList).isEmpty then none else some path

/-- The version of the program. -/
def version : String := "0.0.0"

/-- The options of the server. -/
def serverOptions (s : Settings) : ServerOptions :=
  { serverInfo := some ⟨s.serverName.getD "parley", some (s.serverVersion.getD version)⟩
    syncKind := s.change.syncKind
    positionEncodings := if s.positionEncodings.isEmpty then [.utf16] else s.positionEncodings
    maxFrameBytes := s.maxFrameBytes.getD Frame.defaultLimit
    requestTimeout := (s.requestTimeoutSeconds.map (· * 1000)).getD 30000 }

end Settings

end LanguageServer
