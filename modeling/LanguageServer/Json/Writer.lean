import LanguageServer.Json.Decimal

set_option autoImplicit false

/-! # Writing JSON

The compact form: no blanks, members in their order, and in strings only the characters that have
to be escaped. -/

namespace LanguageServer.Json

/-- A character inside a string: quotes, backslashes and control characters are escaped, all else
stands for itself. -/
def escapeChar (c : Char) : List Char :=
  match c with
  | '"' => ['\\', '"']
  | '\\' => ['\\', '\\']
  | '\x08' => ['\\', 'b']
  | '\x0c' => ['\\', 'f']
  | '\n' => ['\\', 'n']
  | '\r' => ['\\', 'r']
  | '\t' => ['\\', 't']
  | c =>
    if c.toNat < 0x20 then
      ['\\', 'u', '0', '0', Nat.digitChar (c.toNat / 16), Nat.digitChar (c.toNat % 16)]
    else [c]

/-- A string with its quotes. -/
def stringChars (s : String) : List Char :=
  '"' :: (s.toList.flatMap escapeChar ++ ['"'])

/-- An integer in decimal. -/
def intChars (n : Int) : List Char :=
  if n < 0 then '-' :: Nat.toDigits 10 n.natAbs else Nat.toDigits 10 n.natAbs

def numberChars : Number → List Char
  | .int n => intChars n
  | .double d => d.render

mutual

/-- The compact text of a value. -/
def chars : Json → List Char
  | .null => ['n', 'u', 'l', 'l']
  | .bool true => ['t', 'r', 'u', 'e']
  | .bool false => ['f', 'a', 'l', 's', 'e']
  | .num n => numberChars n
  | .str s => stringChars s
  | .arr [] => ['[', ']']
  | .arr (j :: rest) => '[' :: (j.chars ++ itemsTail rest)
  | .obj [] => ['\x7b', '\x7d']
  | .obj ((k, j) :: rest) => '\x7b' :: (stringChars k ++ ':' :: (j.chars ++ membersTail rest))

/-- What follows the first item of an array. -/
def itemsTail : List Json → List Char
  | [] => [']']
  | j :: rest => ',' :: (j.chars ++ itemsTail rest)

/-- What follows the first member of an object. -/
def membersTail : List (String × Json) → List Char
  | [] => ['\x7d']
  | (k, j) :: rest => ',' :: (stringChars k ++ ':' :: (j.chars ++ membersTail rest))

end

/-- The compact text of a value. -/
def render (j : Json) : String := String.ofList j.chars

end LanguageServer.Json
