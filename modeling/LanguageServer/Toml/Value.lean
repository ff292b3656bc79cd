set_option autoImplicit false

/-! # TOML values -/

namespace LanguageServer

/-- A TOML value. Floats and dates are kept as they are written. -/
inductive Toml where
  | str (s : String)
  | int (n : Int)
  | float (text : String)
  | bool (b : Bool)
  /-- A date, a time, or both. -/
  | moment (text : String)
  | arr (items : List Toml)
  | table (entries : List (String × Toml))
deriving Repr, Inhabited

end LanguageServer
