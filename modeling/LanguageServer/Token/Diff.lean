import LanguageServer.Token.Compaction

set_option autoImplicit false

/-! # The edits between two arrays of flat data -/

namespace LanguageServer.TokensEdit

/-- The edits that lead from one array to another: none if they are equal, else those of a
shortest script with its changes moved together. -/
def diff (old new : List UInt32) : List TokensEdit :=
  if old = new then []
  else
    let a := old.toArray
    let b := new.toArray
    Script.edits new (Compaction.compact a b (Myers.script a b))

end LanguageServer.TokensEdit
