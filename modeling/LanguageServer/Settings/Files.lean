import LanguageServer.File.Tree
import LanguageServer.Settings.Basic
import LanguageServer.Text.Utf8

set_option autoImplicit false

/-! # Settings in files

Settings are read from a named file, which has to be there, or else from the usual one, which may be
missing. -/

namespace LanguageServer.Settings

/-- Why settings cannot be read from a file. -/
inductive LoadFault where
  /-- The file cannot be read as text. -/
  | unreadable (path : String)
  /-- The text holds no settings. -/
  | malformed (path : String)
deriving DecidableEq, Repr, Inhabited

/-- The settings in a file with these bytes; a file that cannot be read has none. -/
def ofFile (path : String) (content : Option (List UInt8)) : Except LoadFault Settings :=
  match content.bind Text.Utf8.decode? with
  | none => .error (.unreadable path)
  | some text =>
    match parse? text with
    | none => .error (.malformed path)
    | some s => .ok s

/-- The directory for settings: the one named for that, or else the usual place at home. -/
def directory? (env : Environment) : Option String :=
  let home := ((env "HOME").filter fun d => !d.isEmpty).map fun d => d ++ "/.config"
  match env "XDG_CONFIG_HOME" with
  | some d => if d.startsWith "/" then some d else home
  | none => home

/-- The file that settings are read from when none is named. -/
def defaultPath? (env : Environment) : Option String :=
  (directory? env).map fun d => d ++ "/parley/config.toml"

/-- Read settings from a named file, or else from the usual one, which may be missing. -/
def load (env : Environment) (t : FileTree) (explicit : Option String) :
    Except LoadFault Settings :=
  let content (path : String) : Option (List UInt8) := (Path.ofString? path).bind t.read?
  match explicit with
  | some path => ofFile path (content path)
  | none =>
    match defaultPath? env with
    | none => .ok .default
    | some path =>
      match (Path.ofString? path).map t.find with
      | some (.ok _) => ofFile path (content path)
      | _ => .ok .default

end LanguageServer.Settings
