import LanguageServer.Toml.Value

set_option autoImplicit false

/-! # Building TOML tables

A table grows as a document is read, and what may still be added to it depends on how it came
about. A table that was only mentioned on the way to another one can be defined later, once, as long
as no dotted key has put a value into it. A table that a dotted key made, or put a value into, can be
added to by dotted keys and by headers of tables inside it. A value, with tables written in braces
and arrays written in brackets among them, is complete. -/

namespace LanguageServer.Toml

/-- How a table came about. -/
inductive Origin where
  /-- It was mentioned on the way to another table. -/
  | implied
  /-- It was made by a dotted key, or one has put a value into it. -/
  | dotted
  /-- It has a header of its own. -/
  | defined
deriving DecidableEq, Repr

/-- Something in a table that is being built. -/
inductive Node where
  | value (v : Toml)
  | table (origin : Origin) (entries : List (String × Node))
  /-- An array of tables, the last of which is being built. -/
  | tables (earlier : List Toml) (last : List (String × Node))

abbrev Entries := List (String × Node)

/-! ## Finished tables -/

mutual

/-- The value, once nothing more is added. -/
def Node.close : Node → Toml
  | .value v => v
  | .table _ entries => .table (closeAll entries)
  | .tables earlier last => .arr (earlier ++ [.table (closeAll last)])

/-- The entries, once nothing more is added. -/
def closeAll : List (String × Node) → List (String × Toml)
  | [] => []
  | (key, node) :: rest => (key, node.close) :: closeAll rest

end

/-! ## Adding to tables -/

namespace Entries

/-- Put something under a key, in place of what is there, if that is possible. -/
def update (entries : Entries) (key : String) (f : Option Node → Option Node) : Option Entries :=
  match entries.lookup key with
  | none => (f none).map fun node => entries ++ [(key, node)]
  | some old =>
    (f (some old)).map fun node =>
      entries.map fun entry => if entry.1 = key then (key, node) else entry

/-- Change the table that the keys of a header lead to. -/
def under (f : Entries → Option Entries) : (path : List String) → Entries → Option Entries
  | [], entries => f entries
  | key :: path, entries =>
    entries.update key fun
      | none => (under f path []).map (.table .implied)
      | some (.value _) => none
      | some (.table origin inner) => (under f path inner).map (.table origin)
      | some (.tables earlier last) => (under f path last).map (.tables earlier)

/-- Give a table a header. -/
def define (key : String) (entries : Entries) : Option Entries :=
  entries.update key fun
    | none => some (.table .defined [])
    | some (.table .implied inner) => some (.table .defined inner)
    | some _ => none

/-- Start another table of an array of tables. -/
def addElement (key : String) (entries : Entries) : Option Entries :=
  entries.update key fun
    | none => some (.tables [] [])
    | some (.tables earlier last) => some (.tables (earlier ++ [.table (closeAll last)]) [])
    | some _ => none

/-- Put a value under a dotted key. -/
def insert (key : String) (v : Toml) : (path : List String) → Entries → Option Entries
  | [], entries =>
    entries.update key fun
      | none => some (.value v)
      | some _ => none
  | first :: path, entries =>
    entries.update first fun
      | none => (insert key v path []).map (.table .dotted)
      | some (.table .dotted inner) => (insert key v path inner).map (.table .dotted)
      | some (.table .implied inner) =>
        (insert key v path inner).map (.table (if path.isEmpty then .dotted else .implied))
      | some (.tables earlier last) =>
        if path.isEmpty then none else (insert key v path last).map (.tables earlier)
      | some (.table .defined _) | some (.value _) => none

end Entries

end LanguageServer.Toml
