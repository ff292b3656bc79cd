import LanguageServer.Command

set_option autoImplicit false

/-! # The program

Reads arguments, variables, files and standard input, and writes to standard output. What is done
with all that is decided elsewhere. -/

namespace LanguageServer.Main

/-- The values of some variables. -/
def readVariables (names : List String) : IO Settings.Environment := do
  let values ← names.mapM fun name => do return (name, ← IO.getEnv name)
  return fun name => (values.lookup name).join

/-- Whether there is something at a path, and its bytes if they can be read. -/
def content (path : String) : IO (Bool × Option (List UInt8)) := do
  try
    let bytes ← IO.FS.readBinFile path
    return (true, some bytes.toList)
  catch
    | .noFileOrDirectory .. => return (false, none)
    | _ => return (true, none)

/-- Read settings from a named file, or else from the usual one, which may be missing. -/
def load (explicit : Option String) : IO (Except Settings.LoadFault Settings) := do
  let env ← readVariables ["HOME", "XDG_CONFIG_HOME"]
  match explicit, Settings.defaultPath? env with
  | some path, _ => return Settings.ofFile path (← content path).2
  | none, none => return .ok .default
  | none, some path =>
    match ← content path with
    | (true, bytes) => return Settings.ofFile path bytes
    | (false, _) => return .ok .default

/-- Make the file to log to, if there is to be one. -/
def openLog (settings : Settings) : IO Unit := do
  let names := Settings.references none (settings.logFile.getD "").toList
  match settings.filePath (← readVariables names) with
  | none => return
  | some path =>
    let parent := "/".intercalate (path.splitOn "/").dropLast
    try
      unless parent.isEmpty do IO.FS.createDirAll parent
      discard <| IO.FS.Handle.mk path .append
    catch e => IO.eprintln s!"Failed to open log file {path}: {e}"

/-- Serve the client until the connection ends. -/
partial def serve (server : Server) (input output : IO.FS.Stream) (h : Host) : IO UInt32 := do
  match h.connection.ending with
  | some ending => return ending.code.toUInt32
  | none =>
    let bytes ← input.read (min (h.missing server) 65536).toUSize
    let stimulus : Host.Stimulus := if bytes.isEmpty then .close else .feed bytes.toList
    let after := h.apply server stimulus
    for m in (Host.observe h after).output do
      output.write (ByteArray.mk (Frame.write m.encode).toArray)
    output.flush
    serve server input output after

end LanguageServer.Main

open LanguageServer in
/-- Run the program. -/
def main (args : List String) : IO UInt32 := do
  match Invocation.parse args with
  | .version => IO.print versionText; return 0
  | .help => IO.print usageText; return 0
  | .misuse => IO.eprint usageText; return 2
  | .serve config _ =>
    match ← Main.load config with
    | .error (.unreadable path) => IO.eprintln s!"parley: failed to read config at {path}"; return 1
    | .error (.malformed path) => IO.eprintln s!"parley: failed to parse config at {path}"; return 1
    | .ok settings =>
      Main.openLog settings
      Main.serve settings.server (← IO.getStdin) (← IO.getStdout) .fresh
