import LanguageServer.Server.Host
import LanguageServer.Settings.Files
import LanguageServer.Token.Lexical

set_option autoImplicit false

/-! # The command line

The program reads its arguments from left to right and stops at the first that is wrong, or that
asks for its version or for help. Otherwise it reads its settings and serves one client, whose
documents it classifies word by word. -/

namespace LanguageServer

/-! ## Arguments -/

/-- What the program is asked to do. -/
inductive Invocation where
  | serve (config logFilter : Option String)
  | version
  | help
  /-- The arguments make no sense. -/
  | misuse
deriving DecidableEq, Repr, Inhabited

/-- The options seen so far. -/
structure Arguments where
  config : Option String
  logFilter : Option String
  stdio : Bool
deriving DecidableEq, Repr, Inhabited

namespace Arguments

def nothing : Arguments := ⟨none, none, false⟩

/-- An option that takes a value. -/
inductive Valued where
  | config
  | logFilter
deriving DecidableEq, Repr

/-- The option that takes a value, if an argument is one, and the value that it brings along. -/
def valued? (arg : String) : Option (Valued × Option String) :=
  if arg = "--config" then some (.config, none)
  else if arg = "--log-filter" then some (.logFilter, none)
  else if arg.startsWith "--config=" then some (.config, some (arg.drop 9).toString)
  else if arg.startsWith "--log-filter=" then some (.logFilter, some (arg.drop 13).toString)
  else none

/-- Set an option, which can be done once; the name of a file is not empty. -/
def set (a : Arguments) (option : Valued) (value : String) : Option Arguments :=
  match option with
  | .config =>
    if a.config.isSome || value.isEmpty then none else some { a with config := some value }
  | .logFilter => if a.logFilter.isSome then none else some { a with logFilter := some value }

/-- Whether an argument looks like an option, and so is not the value of one. -/
def isOption (arg : String) : Bool := arg.startsWith "-" && arg ≠ "-"

/-- Read the rest of the arguments; `pending` is an option that still lacks its value. -/
def readFrom (a : Arguments) : (pending : Option Valued) → List String → Invocation
  | none, [] => .serve a.config a.logFilter
  | some _, [] => .misuse
  | some option, arg :: rest =>
    if isOption arg then .misuse
    else
      match a.set option arg with
      | some a => a.readFrom none rest
      | none => .misuse
  | none, arg :: rest =>
    if arg = "--" then if rest.isEmpty then .serve a.config a.logFilter else .misuse
    else if arg = "--stdio" then
      if a.stdio then .misuse else { a with stdio := true }.readFrom none rest
    else if arg = "--version" || arg.startsWith "-V" then .version
    else if arg = "--help" || arg.startsWith "-h" then .help
    else
      match valued? arg with
      | some (option, none) => a.readFrom (some option) rest
      | some (option, some value) =>
        match a.set option value with
        | some a => a.readFrom none rest
        | none => .misuse
      | none => .misuse

end Arguments

/-- What arguments ask the program to do. -/
def Invocation.parse (args : List String) : Invocation := Arguments.nothing.readFrom none args

/-! ## Running -/

/-- What the program says about its version. -/
def versionText : String := s!"parley {Settings.version}\n"

/-- What the program says about its arguments. -/
def usageText : String :=
  "Language server over stdio\n\nUsage: parley [OPTIONS]\n\nOptions:\n" ++
  "      --config <PATH>\n      --log-filter <FILTER>\n      --stdio\n" ++
  "  -h, --help\n  -V, --version\n"

/-- The server for some settings: it classifies documents word by word. -/
def Settings.server (s : Settings) : Server :=
  (Server.bare s.serverOptions .empty).withTokens Lexical.legend fun d e =>
    Lexical.tokens d.text e

/-- The exit code for the end of a connection. -/
def Ending.code : Ending → Nat
  | .status s => s.code
  | .fault _ => 1

/-- What came of running the program. -/
structure Report where
  code : Nat
  /-- What it said outside of messages. -/
  text : String
  /-- The messages it sent. -/
  output : List Message
  /-- The files after it ran. -/
  files : FileTree
deriving DecidableEq, Repr, Inhabited

/-- Serve a client that sends pieces of input, each once the one before has been dealt with. -/
def Settings.serve (s : Settings) (input : List (List UInt8)) : Host :=
  let stimuli : List Host.Stimulus := input.map .feed ++ [.close]
  stimuli.foldl (fun h stimulus => h.apply s.server stimulus) .fresh

/-- Run the program. -/
def runCommand (env : Settings.Environment) (files : FileTree) (args : List String)
    (input : List (List UInt8)) : Report :=
  match Invocation.parse args with
  | .version => ⟨0, versionText, [], files⟩
  | .help => ⟨0, usageText, [], files⟩
  | .misuse => ⟨2, "", [], files⟩
  | .serve config _ =>
    match Settings.load env files config with
    | .error _ => ⟨1, "", [], files⟩
    | .ok settings =>
      let files := match settings.filePath env with
        | some path => ((Path.ofString? path).map files.openLog).getD files
        | none => files
      let c := (settings.serve input).connection
      ⟨(c.ending.map Ending.code).getD 1, "", c.link.written, files⟩

end LanguageServer
