set_option autoImplicit false

/-! # Paths

A path leads from the root to a file or a directory through the names between its slashes. It is
kept as it is written: where a path leads depends on what is there, so that nothing can be taken
out of its middle without looking. Only at its ends are there parts without a meaning of their own:
`Path.parent?` and `Path.below` pass over those. -/

namespace LanguageServer

/-- A path from the root: the parts between its slashes. -/
structure Path where
  parts : List String
deriving DecidableEq, Repr, Inhabited

namespace Path

/-- Paths that can be followed take fewer bytes than this. -/
def sizeLimit : Nat := 4096

/-- The longest name of a file or a directory, in bytes. -/
def nameLimit : Nat := 255

/-- The path in a text; a text that does not start at the root has none. -/
def ofString? (text : String) : Option Path :=
  match text.splitOn "/" with
  | "" :: parts => some ⟨parts⟩
  | _ => none

/-- How many bytes the path takes. -/
def size (p : Path) : Nat := p.parts.foldl (fun n part => n + 1 + part.utf8ByteSize) 0

/-- Whether something can have this name. -/
def isAllowed (name : String) : Bool :=
  name.utf8ByteSize ≤ nameLimit && !name.toList.contains '\x00'

/-- Whether a part stays where it is. -/
def isStill (part : String) : Bool := part = "" || part = "."

/-- The parts without those at the end that stay where they are. -/
def trimEnd (parts : List String) : List String := (parts.reverse.dropWhile isStill).reverse

/-- The path without its last part, which the root does not have. -/
def parent? (p : Path) : Option Path :=
  match p.parts.reverse.dropWhile isStill with
  | [] => none
  | _ :: rest => some ⟨(rest.dropWhile isStill).reverse⟩

/-- The path, its parent and so on, without the root. At most as many steps as there are parts. -/
def ancestorsFrom : (fuel : Nat) → Path → List Path
  | 0, _ => []
  | fuel + 1, p =>
    match p.parent? with
    | none => []
    | some parent => p :: ancestorsFrom fuel parent

/-- The path, its parent and so on, without the root. -/
def ancestors (p : Path) : List Path := ancestorsFrom p.parts.length p

/-- What is left of a path below a directory that it goes through first. -/
def below (directory p : Path) : String :=
  "/".intercalate (trimEnd ((p.parts.drop directory.parts.length).dropWhile isStill))

end Path

end LanguageServer
