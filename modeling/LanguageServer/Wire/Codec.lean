import LanguageServer.Wire.Fault

set_option autoImplicit false

/-! # Codecs

A `Codec α` says how values of `α` appear in JSON: `read` takes a value apart, `write` builds one.
Codecs of compound types are built from those of their parts; see `LanguageServer.Wire.Record` for
records. -/

namespace LanguageServer.Wire

/-- Where a value is read from. A value that had to be set aside before it was known what it would
be read as is `buffered`; the only thing that depends on this is the wording for an array with too
many elements. -/
inductive Source where
  | direct
  | buffered
deriving DecidableEq, Repr, Inhabited

/-- How values of a type appear in JSON. -/
structure Codec (α : Type) where
  read : Source → Json → Except Fault α
  write : α → Json

namespace Codec

variable {α β : Type}

/-- Read a whole value. -/
def decode (c : Codec α) (j : Json) : Except Fault α := c.read .direct j

/-- Any value at all. -/
def json : Codec Json := ⟨fun _ j => .ok j, id⟩

def string : Codec String where
  read _
    | .str s => .ok s
    | j => .error (.wrongType j "a string")
  write := .str

def bool : Codec Bool where
  read _
    | .bool b => .ok b
    | j => .error (.wrongType j "a boolean")
  write := .bool

/-- Integers that satisfy a bound, under the name of their type. -/
def integer (name : String) (fits : Int → Bool) (ofInt : Int → α) (toInt : α → Int) : Codec α where
  read _
    | .num (.int n) =>
      if fits n then .ok (ofInt n) else .error (.wrongValue (.int n) name)
    | j => .error (.wrongType j name)
  write a := .int (toInt a)

def uint8 : Codec UInt8 :=
  integer "u8" (fun n => 0 ≤ n && n < 256) (fun n => n.toNat.toUInt8) (fun a => a.toNat)

def uint32 : Codec UInt32 :=
  integer "u32" (fun n => 0 ≤ n && n < 4294967296) (fun n => n.toNat.toUInt32) (fun a => a.toNat)

def int32 : Codec Int32 :=
  integer "i32" (fun n => -2147483648 ≤ n && n < 2147483648) Int32.ofInt Int32.toInt

def int64 : Codec Int64 :=
  integer "i64" (fun n => -9223372036854775808 ≤ n && n < 9223372036854775808)
    Int64.ofInt Int64.toInt

/-- Read items one after another; the first bad one decides. -/
def readItems (c : Codec α) (src : Source) : List Json → Except Fault (List α)
  | [] => .ok []
  | j :: rest => do
    let a ← c.read src j
    let as ← readItems c src rest
    return a :: as

def list (c : Codec α) : Codec (List α) where
  read src
    | .arr items => readItems c src items
    | j => .error (.wrongType j "a sequence")
  write as := .arr (as.map c.write)

/-- The same values under another type. -/
def map (c : Codec α) (make : α → β) (back : β → α) : Codec β where
  read src j := do return make (← c.read src j)
  write b := c.write (back b)

/-- The first alternative that fits; no alternative's own fault is reported. -/
def firstFit (type : String) (j : Json) : List (Json → Except Fault α) → Except Fault α
  | [] => .error (.noAlternative type)
  | read :: rest =>
    match read j with
    | .ok a => .ok a
    | .error _ => firstFit type j rest

/-- Either of two types, the left one tried first. -/
def either (type : String) (c : Codec α) (d : Codec β) : Codec (α ⊕ β) where
  read _ j := firstFit type j
    [fun j => Sum.inl <$> c.read .buffered j, fun j => Sum.inr <$> d.read .buffered j]
  write
    | .inl a => c.write a
    | .inr b => d.write b

/-- A type whose values are known by name. A name may also stand as the only key of an object whose
value is null. -/
def named (all : List α) (name : α → String) : Codec α where
  read _ j :=
    let find (s : String) : Except Fault α :=
      match all.find? fun a => name a = s with
      | some a => .ok a
      | none => .error (.unknownName s (all.map name))
    match j with
    | .str s => find s
    | .obj [(s, v)] => do
      let a ← find s
      if v = .null then return a else throw (.wrongType v "unit")
    | .obj ms => .error (.wrongValue (.obj ms) "map with a single key")
    | j => .error (.wrongType j "string or map")
  write a := .str (name a)

/-- A type whose values are known by small numbers. -/
def numbered (what : String) (all : List α) (code : α → UInt8) : Codec α where
  read src j := do
    let n ← uint8.read src j
    match all.find? fun a => code a = n with
    | some a => return a
    | none => throw (.unknownCode what n.toNat)
  write a := uint8.write (code a)

end Codec

end LanguageServer.Wire
