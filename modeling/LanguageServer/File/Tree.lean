import LanguageServer.File.Path

set_option autoImplicit false

/-! # Trees of files

The value of a small file system: directories, and files with their bytes, each under the list of
names that leads to it from the root. A path is followed part by part: every part but the last has to
be a directory, also if the next part only stays there or goes up again. -/

namespace LanguageServer

structure FileTree where
  directories : List (List String)
  files : List (List String × List UInt8)
deriving DecidableEq, Repr, Inhabited

/-- Why nothing can be done at a path. -/
inductive PathFault where
  /-- There is nothing by a name on the way. -/
  | missing
  /-- There is something already. -/
  | taken
  /-- A file is in the way, or a name or the path is not allowed. -/
  | blocked
deriving DecidableEq, Repr, Inhabited

namespace FileTree

/-- Nothing but the root. -/
def empty : FileTree := ⟨[[]], []⟩

def isDirectory (t : FileTree) (names : List String) : Bool := t.directories.contains names

def isFile (t : FileTree) (names : List String) : Bool := (t.files.lookup names).isSome

/-! ## Following paths -/

/-- Follow one part of a path. Going up from the root stays there. -/
def enter (t : FileTree) (names : List String) (part : String) :
    Except PathFault (List String) :=
  if !t.isDirectory names then .error .blocked
  else if Path.isStill part then .ok names
  else if part = ".." then .ok names.dropLast
  else if !Path.isAllowed part then .error .blocked
  else if t.isDirectory (names ++ [part]) || t.isFile (names ++ [part]) then .ok (names ++ [part])
  else .error .missing

/-- Follow the parts of a path. -/
def follow (t : FileTree) (names : List String) : List String → Except PathFault (List String)
  | [] => .ok names
  | part :: rest =>
    match t.enter names part with
    | .error fault => .error fault
    | .ok names => t.follow names rest

/-- What a path leads to. -/
def find (t : FileTree) (p : Path) : Except PathFault (List String) :=
  if p.size < Path.sizeLimit then t.follow [] p.parts else .error .blocked

/-- Where something new by a path goes, if there is nothing yet. -/
def vacancy (t : FileTree) (p : Path) : Except PathFault (List String) :=
  match t.find ⟨p.parts.dropLast⟩, t.find p, p.parts.getLast? with
  | .ok names, .error .missing, some part => .ok (names ++ [part])
  | _, .error fault, _ => .error fault
  | _, .ok _, _ => .error .taken

/-- Whether a path leads to a directory. -/
def hasDirectory (t : FileTree) (p : Path) : Bool :=
  match t.find p with
  | .ok names => t.isDirectory names
  | .error _ => false

/-- Whether a path leads to a file. -/
def hasFile (t : FileTree) (p : Path) : Bool :=
  match t.find p with
  | .ok names => t.isFile names
  | .error _ => false

/-- The bytes of the file at a path. -/
def read? (t : FileTree) (p : Path) : Option (List UInt8) :=
  match t.find p with
  | .ok names => t.files.lookup names
  | .error _ => none

/-! ## Making directories and files -/

/-- Make one directory. -/
def makeDirectory (t : FileTree) (p : Path) : Except PathFault FileTree :=
  match t.vacancy p with
  | .ok names => .ok { t with directories := t.directories ++ [names] }
  | .error fault => .error fault

/-- Make the first of some directories, each of which is the parent of the one before; if it cannot
be made because something is missing, the others are made first. The answer also tells whether the
directory is there now; if not, some of the others may be new all the same. -/
def makeFirst (t : FileTree) : (ancestors : List Path) → FileTree × Bool
  | [] => (t, true)
  | p :: rest =>
    match t.makeDirectory p with
    | .ok t => (t, true)
    | .error .taken => (t, t.hasDirectory p)
    | .error .blocked => (t, false)
    | .error .missing =>
      match t.makeFirst rest with
      | (t, false) => (t, false)
      | (t, true) =>
        match t.makeDirectory p with
        | .ok t => (t, true)
        | .error _ => (t, t.hasDirectory p)

/-- Make a directory and those that lead to it. -/
def makeDirectories (t : FileTree) (p : Path) : FileTree × Bool := t.makeFirst p.ancestors

/-- Make the directories that lead to a path. -/
def makeParents (t : FileTree) (p : Path) : FileTree × Bool :=
  match p.parent? with
  | none => (t, false)
  | some parent => t.makeDirectories parent

/-- Make a file without content, if there is nothing at its path yet. -/
def touch (t : FileTree) (p : Path) : FileTree :=
  match t.vacancy p with
  | .ok names => { t with files := t.files ++ [(names, [])] }
  | .error _ => t

/-- Put bytes into a file, which is made if there is nothing at its path yet. -/
def write (t : FileTree) (p : Path) (bytes : List UInt8) : FileTree :=
  let t := t.touch p
  match t.find p with
  | .ok names =>
    { t with files := t.files.map fun file => if file.1 = names then (names, bytes) else file }
  | .error _ => t

/-- Put bytes into a file; the directories that lead to it are made. -/
def put (t : FileTree) (p : Path) (bytes : List UInt8) : FileTree :=
  match t.makeParents p with
  | (t, true) => t.write p bytes
  | (t, false) => t

/-- Open a file for adding to it: the directories that lead to it are made, and so is the file if
there is none. A tree in which that fails may have new directories all the same. -/
def openLog (t : FileTree) (p : Path) : FileTree :=
  match t.makeParents p with
  | (t, true) => t.touch p
  | (t, false) => t

end FileTree

end LanguageServer
