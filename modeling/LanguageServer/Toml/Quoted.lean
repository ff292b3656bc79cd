import LanguageServer.Toml.Scalar

set_option autoImplicit false

/-! # TOML strings

Strings stand between quotes: between double quotes a backslash starts an escape, between single
quotes nothing does. Either kind may run over several lines between three quotes; a line break right
after the opening quotes does not count. -/

namespace LanguageServer.Toml

/-- Where one is inside a string. -/
inductive Escape where
  /-- In plain text. -/
  | none
  /-- Behind a backslash. -/
  | start
  /-- Before the last so many digits of a code point. -/
  | code (digits : Nat) (value : Nat)
  /-- In the blanks between a backslash and the end of its line. -/
  | lineEnd
  /-- In the blanks and line breaks that a backslash at the end of a line takes away. -/
  | gap
deriving DecidableEq, Repr

/-- The character with a code point, if there is one. -/
def codePoint? (n : Nat) : Option Char :=
  if h : n.isValidChar then some (Char.ofNatAux n h) else none

/-- The character that an escape of one letter stands for. -/
def letterEscape? : Char → Option Char
  | 'b' => some '\x08'
  | 't' => some '\t'
  | 'n' => some '\n'
  | 'f' => some '\x0c'
  | 'r' => some '\r'
  | 'e' => some '\x1b'
  | '"' => some '"'
  | '\\' => some '\\'
  | _ => none

/-- How many digits follow an escape for a code point. -/
def codeDigits? : Char → Option Nat
  | 'x' => some 2
  | 'u' => some 4
  | 'U' => some 8
  | _ => none

def isLayout (c : Char) : Bool := c = ' ' || c = '\t' || c = '\n' || c = '\r'

/-- Behind a quote of a string between three quotes: if the string ends here, what it still holds
and what follows it. Up to two quotes may stand right before the closing ones. -/
def closing? (quote : Char) (rest : List Char) : Option (List Char × List Char) :=
  match (rest.takeWhile (· = quote)).length with
  | 0 | 1 => none
  | 2 => some ([], rest.drop 2)
  | 3 => some ([quote], rest.drop 3)
  | _ => some ([quote, quote], rest.drop 4)

/-- Put a character before the rest of a string. -/
def prepend (c : Char) : Option (List Char × List Char) → Option (List Char × List Char)
  | some (cs, rest) => some (c :: cs, rest)
  | none => none

/-- The rest of a string between double quotes, and what follows it. -/
def basic? (multiline : Bool) : Escape → List Char → Option (List Char × List Char)
  | _, [] => none
  | .none, c :: rest =>
    if c = '"' then
      if multiline then
        match closing? c rest with
        | some result => some result
        | none => prepend c (basic? multiline .none rest)
      else some ([], rest)
    else if c = '\\' then basic? multiline .start rest
    else if !multiline && (c = '\n' || c = '\r') then none
    else prepend c (basic? multiline .none rest)
  | .start, c :: rest =>
    match letterEscape? c, codeDigits? c with
    | some d, _ => prepend d (basic? multiline .none rest)
    | none, some count => basic? multiline (.code count 0) rest
    | none, none =>
      if !multiline then none
      else if c = '\n' then basic? multiline .gap rest
      else if isLayout c then basic? multiline .lineEnd rest
      else none
  | .code count value, c :: rest =>
    let value := value * 16 + digitValue c
    if !isHexDigit c then none
    else if 1 < count then basic? multiline (.code (count - 1) value) rest
    else
      match codePoint? value with
      | some d => prepend d (basic? multiline .none rest)
      | none => none
  | .lineEnd, c :: rest =>
    if c = '\n' then basic? multiline .gap rest
    else if isLayout c then basic? multiline .lineEnd rest
    else none
  | .gap, c :: rest =>
    if isLayout c then basic? multiline .gap rest
    else if c = '"' then
      match closing? c rest with
      | some result => some result
      | none => prepend c (basic? multiline .none rest)
    else if c = '\\' then basic? multiline .start rest
    else prepend c (basic? multiline .none rest)

/-- The rest of a string between single quotes, and what follows it. -/
def literal? (multiline : Bool) : List Char → Option (List Char × List Char)
  | [] => none
  | c :: rest =>
    if c = '\'' then
      if multiline then
        match closing? c rest with
        | some result => some result
        | none => prepend c (literal? multiline rest)
      else some ([], rest)
    else if !multiline && (c = '\n' || c = '\r') then none
    else prepend c (literal? multiline rest)

/-- What follows a line break, if there is one. -/
def dropLineBreak : List Char → List Char
  | '\n' :: rest => rest
  | '\r' :: '\n' :: rest => rest
  | cs => cs

/-- A string on one line, and what follows it. -/
def line? : List Char → Option (List Char × List Char)
  | '"' :: rest => basic? false .none rest
  | '\'' :: rest => literal? false rest
  | _ => none

/-- A string, and what follows it. -/
def string? : List Char → Option (List Char × List Char)
  | '"' :: '"' :: '"' :: rest => basic? true .none (dropLineBreak rest)
  | '\'' :: '\'' :: '\'' :: rest => literal? true (dropLineBreak rest)
  | cs => line? cs

end LanguageServer.Toml
