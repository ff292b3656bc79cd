import LanguageServer.Json.Writer
import LanguageServer.Text.Quoted

set_option autoImplicit false

/-! # Why a value does not have the expected shape -/

namespace LanguageServer.Wire

/-- Why a value could not be read as some type. -/
inductive Fault where
  /-- A value of the wrong kind. -/
  | wrongType (found : Json) (expected : String)
  /-- A value of the right kind that is out of range. -/
  | wrongValue (found : Json) (expected : String)
  /-- An array with too few or too many elements. -/
  | wrongLength (length : Nat) (expected : String)
  /-- A field that has to be there and is not. -/
  | missing (field : String)
  /-- A name that is none of the known ones. -/
  | unknownName (name : String) (known : List String)
  /-- A number that is none of the known codes. -/
  | unknownCode (what : String) (code : Nat)
  /-- A value that fits none of the alternatives of a type. -/
  | noAlternative (type : String)
deriving DecidableEq, Repr, Inhabited

/-- What kind of value was found, with the value itself where it is short. -/
def describe : Json → String
  | .null => "null"
  | .bool true => "boolean `true`"
  | .bool false => "boolean `false`"
  | .num (.int n) => s!"integer `{String.ofList (Json.intChars n)}`"
  | .num (.double d) => s!"floating point `{String.ofList d.render}`"
  | .str s => s!"string {Text.quoted s}"
  | .arr _ => "sequence"
  | .obj _ => "map"

/-- A choice of names. -/
def oneOf (names : List String) : String :=
  let marked := names.map fun n => s!"`{n}`"
  match marked with
  | [a] => a
  | [a, b] => s!"{a} or {b}"
  | _ => "one of " ++ ", ".intercalate marked

def Fault.message : Fault → String
  | .wrongType found expected => s!"invalid type: {describe found}, expected {expected}"
  | .wrongValue found expected => s!"invalid value: {describe found}, expected {expected}"
  | .wrongLength length expected => s!"invalid length {length}, expected {expected}"
  | .missing field => s!"missing field `{field}`"
  | .unknownName name known => s!"unknown variant `{name}`, expected {oneOf known}"
  | .unknownCode what code => s!"unknown {what} {code}"
  | .noAlternative type => s!"data did not match any variant of untagged enum {type}"

end LanguageServer.Wire
