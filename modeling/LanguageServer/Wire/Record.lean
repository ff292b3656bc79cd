import LanguageServer.Wire.Codec

set_option autoImplicit false

/-! # Records

A record is read from an object in three passes, which fixes the fault that is reported when there
are several. Members present are checked in the order of the input; then each field that has to be
there is looked for, in the order of the fields; last come the groups, records whose fields stand
among the fields of another one, each read in the same way. Members that belong to no field are
ignored, unless the record ends with a map that collects them.

A record without groups may also be given as an array of its fields.

`Fields α` describes the fields of a record with values in `α`. Single fields are combined by
`and`. -/

namespace LanguageServer.Wire

/-- The fields of a record. -/
structure Fields (α : Type) where
  /-- How many fields there are. -/
  size : Nat
  /-- Their names, those of groups apart. -/
  names : List String
  /-- Whether a member has an acceptable value; members of other names have. -/
  check : Source → String → Json → Except Fault Unit
  /-- Whether all fields that have to be there are. -/
  present : List (String × Json) → Except Fault Unit
  /-- The values of the fields. -/
  build : Source → List (String × Json) → Except Fault α
  /-- The values of the fields from the front of an array; `index` counts the elements before it
  and `expected` says what an array that is too short should have been. -/
  take : Source → (expected : String) → (index : Nat) → List Json →
    Except Fault (α × List Json)
  /-- The members written for a value. -/
  members : α → List (String × Json)

namespace Fields

variable {α β : Type}

/-- Read a record with these fields from an object. -/
def ofMembers (f : Fields α) (src : Source) (ms : List (String × Json)) : Except Fault α := do
  ms.forM fun m => f.check src m.1 m.2
  f.present ms
  f.build src ms

/-! ## Single fields -/

/-- A field that has to be there. -/
def required (name : String) (c : Codec α) : Fields α where
  size := 1
  names := [name]
  check src key j := if key = name then discard (c.read src j) else .ok ()
  present ms := if (Json.lookup name ms).isSome then .ok () else .error (.missing name)
  build src ms :=
    match Json.lookup name ms with
    | some j => c.read src j
    | none => .error (.missing name)
  take src expected index
    | [] => .error (.wrongLength index expected)
    | j :: rest => do return (← c.read src j, rest)
  members a := [(name, c.write a)]

/-- A field that takes a given value when it is not there, and is always written. -/
def defaulted (name : String) (c : Codec α) (value : α) : Fields α where
  size := 1
  names := [name]
  check src key j := if key = name then discard (c.read src j) else .ok ()
  present _ := .ok ()
  build src ms :=
    match Json.lookup name ms with
    | some j => c.read src j
    | none => .ok value
  take src _ _
    | [] => .ok (value, [])
    | j :: rest => do return (← c.read src j, rest)
  members a := [(name, c.write a)]

/-- A value that may be null. -/
def orNull (c : Codec α) : Codec (Option α) where
  read src
    | .null => .ok none
    | j => some <$> c.read src j
  write
    | none => .null
    | some a => c.write a

/-- A field that may be null or not there, and is then written as null. -/
def nullable (name : String) (c : Codec α) : Fields (Option α) :=
  defaulted name (orNull c) none

/-- A field that may be null or not there, and is then not written. -/
def optional (name : String) (c : Codec α) : Fields (Option α) :=
  { nullable name c with
    members := fun
      | none => []
      | some a => [(name, c.write a)] }

/-! ## Combining fields -/

/-- The fields of another record, standing among these. Its members have been set aside by the
time it is read. -/
def group (g : Fields α) : Fields α where
  size := g.size
  names := []
  check _ _ _ := .ok ()
  present _ := .ok ()
  build _ ms := g.ofMembers .buffered ms
  take := g.take
  members := g.members

/-- Two lots of fields, one after the other. -/
def and (f : Fields α) (g : Fields β) : Fields (α × β) where
  size := f.size + g.size
  names := f.names ++ g.names
  check src key j := do f.check src key j; g.check src key j
  present ms := do f.present ms; g.present ms
  build src ms := do return (← f.build src ms, ← g.build src ms)
  take src expected index items := do
    let (a, rest) ← f.take src expected index items
    let (b, rest) ← g.take src expected (index + f.size) rest
    return ((a, b), rest)
  members p := f.members p.1 ++ g.members p.2

/-- All members that belong to no field, in their order. -/
def andOthers (f : Fields α) : Fields (α × List (String × Json)) where
  size := f.size
  names := f.names
  check := f.check
  present := f.present
  build src ms := do
    return (← f.build src ms, ms.filter fun m => !f.names.contains m.1)
  take src expected index items := do
    let (a, rest) ← f.take src expected index items
    return ((a, []), rest)
  members p := f.members p.1 ++ p.2

/-- The same fields under another type. -/
def map (f : Fields α) (make : α → β) (back : β → α) : Fields β where
  size := f.size
  names := f.names
  check := f.check
  present := f.present
  build src ms := make <$> f.build src ms
  take src expected index items := do
    let (a, rest) ← f.take src expected index items
    return (make a, rest)
  members b := f.members (back b)

end Fields

namespace Codec

variable {α : Type}

/-- A number of elements. -/
def elements (n : Nat) : String := if n = 1 then "1 element" else s!"{n} elements"

/-- A record given as an array. -/
def readArray (title : String) (f : Fields α) (src : Source) (items : List Json) :
    Except Fault α := do
  let (a, rest) ← f.take src s!"struct {title} with {elements f.size}" 0 items
  if rest.isEmpty then return a
  else match src with
    | .direct => throw (.wrongLength items.length "fewer elements in array")
    | .buffered => throw (.wrongLength items.length s!"{elements f.size} in sequence")

/-- A record, given as an object or as an array. -/
def record (title : String) (f : Fields α) : Codec α where
  read src
    | .obj ms => f.ofMembers src ms
    | .arr items => readArray title f src items
    | j => .error (.wrongType j s!"struct {title}")
  write a := .obj (f.members a)

/-- A record given as an object only: one with groups, or an alternative of a choice. -/
def mapping (title : String) (f : Fields α) : Codec α where
  read src
    | .obj ms => f.ofMembers src ms
    | j => .error (.wrongType j s!"struct {title}")
  write a := .obj (f.members a)

end Codec

end LanguageServer.Wire
