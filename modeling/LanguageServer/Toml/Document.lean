import LanguageServer.Toml.Quoted
import LanguageServer.Toml.Table

set_option autoImplicit false

/-! # TOML documents

A document is a list of statements, one a line: keys with values, and headers of the tables they go
into. `Toml.parse?` reads a document into a table. -/

namespace LanguageServer.Toml

/-! ## Layout -/

def skipBlanks (cs : List Char) : List Char := cs.dropWhile fun c => c = ' ' || c = '\t'

/-- What follows blanks, line breaks and comments. -/
def skipLayout : (inComment : Bool) → List Char → List Char
  | _, [] => []
  | true, c :: rest => skipLayout (c ≠ '\n') rest
  | false, c :: rest =>
    if c = '#' then skipLayout true rest
    else if isLayout c then skipLayout false rest
    else c :: rest

/-- What follows the end of a line, before which a comment may stand. -/
def endLine? (cs : List Char) : Option (List Char) :=
  let cs := skipBlanks cs
  let cs := match cs with
    | '#' :: rest => rest.dropWhile (· ≠ '\n')
    | cs => cs
  match cs with
  | [] => some []
  | '\n' :: rest | '\r' :: '\n' :: rest => some rest
  | _ => none

/-! ## Keys -/

def isBareKeyChar (c : Char) : Bool := c.isAlphanum || c = '_' || c = '-'

/-- One part of a key. -/
def keyPart? (cs : List Char) : Option (String × List Char) :=
  let bare := cs.takeWhile isBareKeyChar
  if bare.isEmpty then (line? cs).map fun (text, rest) => (String.ofList text, rest)
  else some (String.ofList bare, cs.dropWhile isBareKeyChar)

/-- How many parts a key may have. -/
def keyLimit : Nat := 80

/-- A key of at most `room` parts, with dots between them. Gives the last part apart from those
before it. -/
def keyWithin? : (room : Nat) → List Char → Option ((List String × String) × List Char)
  | 0, _ => none
  | room + 1, cs =>
    match keyPart? (skipBlanks cs) with
    | none => none
    | some (part, rest) =>
      match skipBlanks rest with
      | '.' :: rest =>
        (keyWithin? room rest).map fun ((path, last), rest) => ((part :: path, last), rest)
      | rest => some (([], part), rest)

/-- A key, and what follows it. -/
def key? (cs : List Char) : Option ((List String × String) × List Char) := keyWithin? keyLimit cs

/-! ## Values -/

/-- How deep arrays and tables may stand inside each other. -/
def depthLimit : Nat := 80

/-- The characters of a scalar without quotes. -/
def isScalarChar (c : Char) : Bool :=
  c.isAlphanum || c = '+' || c = '-' || c = '.' || c = '_' || c = ':'

/-- A scalar without quotes. A time may follow a date after a space. -/
def bareScalar? (cs : List Char) : Option (Toml × List Char) :=
  let first := cs.takeWhile isScalarChar
  let rest := cs.dropWhile isScalarChar
  let (text, rest) := match rest with
    | ' ' :: c :: more =>
      if c.isDigit && afterDate? first == some [] then
        (first ++ ' ' :: (c :: more).takeWhile isScalarChar, (c :: more).dropWhile isScalarChar)
      else (first, rest)
    | _ => (first, rest)
  (scalar? text).map fun v => (v, rest)

mutual

/-- A value, and what follows it. -/
def value? : (fuel depth : Nat) → List Char → Option (Toml × List Char)
  | 0, _, _ => none
  | fuel + 1, depth, cs =>
    match cs with
    | '[' :: rest =>
      if depth = 0 then none
      else (items? fuel (depth - 1) rest).map fun (items, rest) => (.arr items, rest)
    | '\x7b' :: rest =>
      if depth = 0 then none
      else (pairs? fuel (depth - 1) [] rest).map fun (entries, rest) =>
        (.table (closeAll entries), rest)
    | cs =>
      if cs.head? = some '"' || cs.head? = some '\'' then
        (string? cs).map fun (text, rest) => (.str (String.ofList text), rest)
      else bareScalar? cs

/-- The rest of an array, up to and including its closing bracket. -/
def items? : (fuel depth : Nat) → List Char → Option (List Toml × List Char)
  | 0, _, _ => none
  | fuel + 1, depth, cs =>
    match skipLayout false cs with
    | ']' :: rest => some ([], rest)
    | cs =>
      match value? fuel depth cs with
      | none => none
      | some (v, rest) =>
        match skipLayout false rest with
        | ']' :: rest => some ([v], rest)
        | ',' :: rest => (items? fuel depth rest).map fun (vs, rest) => (v :: vs, rest)
        | _ => none

/-- The rest of a table in braces, up to and including its closing brace. -/
def pairs? : (fuel depth : Nat) → Entries → List Char → Option (Entries × List Char)
  | 0, _, _, _ => none
  | fuel + 1, depth, entries, cs =>
    match skipLayout false cs with
    | '\x7d' :: rest => some (entries, rest)
    | cs =>
      match pair? fuel depth cs with
      | none => none
      | some ((path, key, v), rest) =>
        match entries.insert key v path, skipLayout false rest with
        | some entries, '\x7d' :: rest => some (entries, rest)
        | some entries, ',' :: rest => pairs? fuel depth entries rest
        | _, _ => none

/-- A key with its value. -/
def pair? : (fuel depth : Nat) → List Char → Option ((List String × String × Toml) × List Char)
  | 0, _, _ => none
  | fuel + 1, depth, cs =>
    match key? cs with
    | some ((path, key), '=' :: rest) =>
      (value? fuel depth (skipBlanks rest)).map fun (v, rest) => ((path, key, v), rest)
    | _ => none

end

/-! ## Statements -/

inductive Statement where
  /-- The value of a dotted key. -/
  | pair (path : List String) (key : String) (v : Toml)
  /-- The header of a table. -/
  | header (path : List String) (key : String)
  /-- The header of the next table of an array. -/
  | element (path : List String) (key : String)

/-- One statement, without the end of its line. Every step takes a character, so as many steps as
there are characters are enough. -/
def statement? (cs : List Char) : Option (Statement × List Char) :=
  match cs with
  | '[' :: '[' :: rest =>
    match key? rest with
    | some ((path, key), ']' :: ']' :: rest) => some (.element path key, rest)
    | _ => none
  | '[' :: rest =>
    match key? rest with
    | some ((path, key), ']' :: rest) => some (.header path key, rest)
    | _ => none
  | cs =>
    (pair? (4 * (cs.length + 1)) depthLimit cs).map fun ((path, key, v), rest) => (.pair path key v, rest)

/-- All statements of a document. -/
def statements? : (fuel : Nat) → List Char → Option (List Statement)
  | 0, _ => none
  | fuel + 1, cs =>
    match skipLayout false cs with
    | [] => some []
    | cs => do
      let (s, rest) ← statement? cs
      let rest ← endLine? rest
      return s :: (← statements? fuel rest)

/-! ## Documents -/

/-- A document that is being built: all of it, and the table that keys go into. -/
structure Builder where
  root : Entries
  current : List String

/-- Add a statement, if it fits what is there. -/
def Builder.add? (b : Builder) : Statement → Option Builder
  | .pair path key v =>
    (b.root.under (Entries.insert key v path) b.current).map fun root => { b with root := root }
  | .header path key =>
    (b.root.under (Entries.define key) path).map fun root => ⟨root, path ++ [key]⟩
  | .element path key =>
    (b.root.under (Entries.addElement key) path).map fun root => ⟨root, path ++ [key]⟩

/-- Whether characters can stand in a document: control characters can not, and a carriage return
only before a line feed. -/
def areAllowed : List Char → Bool
  | [] => true
  | '\r' :: '\n' :: rest => areAllowed rest
  | c :: rest => (c = '\t' || c = '\n' || (' ' ≤ c && c ≠ '\x7f')) && areAllowed rest

/-- The table that a document describes. A byte order mark may stand before it. -/
def parse? (text : String) : Option Toml :=
  let cs := match text.toList with
    | '\ufeff' :: rest => rest
    | cs => cs
  if areAllowed cs then do
    let statements ← statements? (cs.length + 1) cs
    let b ← statements.foldlM Builder.add? ⟨[], []⟩
    return .table (closeAll b.root)
  else none

end LanguageServer.Toml
