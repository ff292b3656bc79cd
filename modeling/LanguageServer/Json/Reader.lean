import LanguageServer.Json.Decimal
import LanguageServer.Text.Utf8

set_option autoImplicit false

/-! # Reading JSON

A strict reader over bytes. Each function takes the bytes still to be read and returns what it
read with the bytes left over. A failure is one of two kinds: the input ended where more was
needed, or something stands where it may not.

Numbers without a point or an exponent stay exact while they fit 64 bits; every other number is a
double, made from the digits that fit a 64-bit significand and a power of ten. Strings are collected
as bytes and become text at their closing quote. -/

namespace LanguageServer

/-- Why a text is not JSON. -/
inductive TextFault where
  /-- The input ended where more was needed. -/
  | truncated
  /-- Something stands where it may not. -/
  | malformed
deriving DecidableEq, Repr, Inhabited

/-- The name of the kind of fault. -/
def TextFault.category : TextFault → String
  | .truncated => "eof"
  | .malformed => "syntax"

namespace Json.Reader

/-- What was read, and the bytes left over. -/
abbrev Result (α : Type) := Except TextFault (α × List UInt8)

def isBlank (b : UInt8) : Bool := b == 0x20 || b == 0x09 || b == 0x0A || b == 0x0D

def isDigit (b : UInt8) : Bool := 0x30 ≤ b && b ≤ 0x39

def digitValue (b : UInt8) : Nat := b.toNat - 0x30

def skipBlanks (input : List UInt8) : List UInt8 := input.dropWhile isBlank

/-- A word such as `null`, whose first letter has been read. -/
def word (value : Json) : (expected : List UInt8) → List UInt8 → Result Json
  | [], rest => .ok (value, rest)
  | _ :: _, [] => .error .truncated
  | e :: expected, b :: rest => if b = e then word value expected rest else .error .malformed

/-! ## Numbers -/

/-- The largest significand that is kept. -/
def maxSignificand : Nat := 18446744073709551615

/-- Read digits into a significand for as long as it fits; gives the significand, how many digits
went into it, and the rest. -/
def significandDigits (significand count : Nat) : List UInt8 → Nat × Nat × List UInt8
  | [] => (significand, count, [])
  | b :: rest =>
    if isDigit b && significand * 10 + digitValue b ≤ maxSignificand then
      significandDigits (significand * 10 + digitValue b) (count + 1) rest
    else (significand, count, b :: rest)

/-- A double from its parts; one that is too large is refused. -/
def double (negative : Bool) (significand : Nat) (exponent : Int) (rest : List UInt8) :
    Result Number :=
  match Double.ofParts negative significand.toUInt64 exponent with
  | some d => .ok (.double d, rest)
  | none => .error .malformed

/-- The decimal value of digits. -/
def digitsValue (digits : List UInt8) : Nat :=
  digits.foldl (fun n b => n * 10 + digitValue b) 0

/-- The digits of an exponent, after its mark and sign. -/
def exponentDigits (negative : Bool) (significand : Nat) (exponent : Int) (down : Bool)
    (input : List UInt8) : Result Number :=
  match input with
  | [] => .error .truncated
  | b :: _ =>
    if isDigit b then
      let power : Int := digitsValue (input.takeWhile isDigit)
      double negative significand (if down then exponent - power else exponent + power)
        (input.dropWhile isDigit)
    else .error .malformed

/-- An exponent, if there is one. -/
def exponentPart (negative : Bool) (significand : Nat) (exponent : Int) (input : List UInt8) :
    Result Number :=
  match input with
  | b :: rest =>
    if b == 0x65 || b == 0x45 then
      match rest with
      | 0x2B :: rest => exponentDigits negative significand exponent false rest
      | 0x2D :: rest => exponentDigits negative significand exponent true rest
      | rest => exponentDigits negative significand exponent false rest
    else double negative significand exponent input
  | [] => double negative significand exponent []

/-- The digits after a point. Those that no longer fit the significand are dropped. -/
def fractionPart (negative : Bool) (significand : Nat) (exponent : Int) (input : List UInt8) :
    Result Number :=
  match input with
  | [] => .error .truncated
  | b :: _ =>
    if isDigit b then
      let (significand, count, rest) := significandDigits significand 0 input
      exponentPart negative significand (exponent - count) (rest.dropWhile isDigit)
    else .error .malformed

/-- What follows the digits before the point, when the number is a double. -/
def doublePart (negative : Bool) (significand : Nat) (exponent : Int) (input : List UInt8) :
    Result Number :=
  match input with
  | 0x2E :: rest => fractionPart negative significand exponent rest
  | input => exponentPart negative significand exponent input

/-- What follows the digits before the point, when all of them fit. Negative zero and negative
integers beyond 64 bits are doubles. -/
def integerPart (negative : Bool) (significand : Nat) (input : List UInt8) : Result Number :=
  let exact : Result Number :=
    if negative then
      if 0 < significand ∧ significand ≤ 9223372036854775808 then .ok (.int (-significand), input)
      else double true significand 0 input
    else .ok (.int significand, input)
  match input with
  | [] => exact
  | b :: _ =>
    if b == 0x2E || b == 0x65 || b == 0x45 then doublePart negative significand 0 input else exact

/-- A number after its sign. -/
def number (negative : Bool) (input : List UInt8) : Result Number :=
  match input with
  | [] => .error .truncated
  | 0x30 :: rest =>
    match rest with
    | [] => integerPart negative 0 []
    | b :: _ => if isDigit b then .error .malformed else integerPart negative 0 rest
  | b :: rest =>
    if isDigit b then
      let (significand, _, rest) := significandDigits (digitValue b) 0 rest
      match rest.takeWhile isDigit with
      | [] => integerPart negative significand rest
      | more => doublePart negative significand more.length (rest.dropWhile isDigit)
    else .error .malformed

/-! ## Strings -/

/-- Where the reader stands inside a string. -/
inductive StringPlace where
  /-- Between two characters. -/
  | plain
  /-- After a backslash. -/
  | escape
  /-- Inside `\u` with these digits read, last first; `lead` is the first half of a pair. -/
  | hex (lead : Option Nat) (digits : List UInt8)
  /-- After the first half of a pair: a backslash has to follow. -/
  | pairSlash (lead : Nat)
  /-- After the first half of a pair and a backslash: a `u` has to follow. -/
  | pairLetter (lead : Nat)

/-- The value of a hexadecimal digit. -/
def hexDigit? (b : UInt8) : Option Nat :=
  if 0x30 ≤ b && b ≤ 0x39 then some (b.toNat - 0x30)
  else if 0x61 ≤ b && b ≤ 0x66 then some (b.toNat - 0x57)
  else if 0x41 ≤ b && b ≤ 0x46 then some (b.toNat - 0x37)
  else none

/-- The value of four hexadecimal digits. -/
def hexValue? (digits : List UInt8) : Option Nat :=
  digits.foldl (fun acc b => do return (← acc) * 16 + (← hexDigit? b)) (some 0)

/-- The character a one-letter escape stands for. -/
def escapeByte? (b : UInt8) : Option UInt8 :=
  match b with
  | 0x22 => some 0x22
  | 0x5C => some 0x5C
  | 0x2F => some 0x2F
  | 0x62 => some 0x08
  | 0x66 => some 0x0C
  | 0x6E => some 0x0A
  | 0x72 => some 0x0D
  | 0x74 => some 0x09
  | _ => none

/-- What four hexadecimal digits complete: a character, or the first half of a pair. -/
def hexEscape (lead : Option Nat) (digits : List UInt8) : Except TextFault (Nat ⊕ Char) :=
  match hexValue? digits, lead with
  | none, _ => .error .malformed
  | some n, none =>
    if 0xDC00 ≤ n ∧ n ≤ 0xDFFF then .error .malformed
    else if 0xD800 ≤ n ∧ n ≤ 0xDBFF then .ok (.inl n)
    else .ok (.inr (Char.ofNat n))
  | some n, some l =>
    if 0xDC00 ≤ n ∧ n ≤ 0xDFFF then
      .ok (.inr (Char.ofNat (0x10000 + (l - 0xD800) * 0x400 + (n - 0xDC00))))
    else .error .malformed

/-- Put the UTF-8 bytes of a character before bytes kept last first. -/
def pushChar (c : Char) (acc : List UInt8) : List UInt8 :=
  (String.utf8EncodeChar c).reverse ++ acc

/-- The rest of a string, its opening quote read; `acc` holds its bytes so far, last first. -/
def string : StringPlace → (acc : List UInt8) → List UInt8 → Result String
  | _, _, [] => .error .truncated
  | .plain, acc, b :: rest =>
    if b = 0x22 then
      match Text.Utf8.decode? acc.reverse with
      | some s => .ok (s, rest)
      | none => .error .malformed
    else if b = 0x5C then string .escape acc rest
    else if b < 0x20 then .error .malformed
    else string .plain (b :: acc) rest
  | .escape, acc, b :: rest =>
    if b = 0x75 then string (.hex none []) acc rest
    else match escapeByte? b with
      | some e => string .plain (e :: acc) rest
      | none => .error .malformed
  | .hex lead digits, acc, b :: rest =>
    if digits.length = 3 then
      match hexEscape lead (b :: digits).reverse with
      | .error e => .error e
      | .ok (.inl n) => string (.pairSlash n) acc rest
      | .ok (.inr c) => string .plain (pushChar c acc) rest
    else string (.hex lead (b :: digits)) acc rest
  | .pairSlash lead, acc, b :: rest =>
    if b = 0x5C then string (.pairLetter lead) acc rest else .error .malformed
  | .pairLetter lead, acc, b :: rest =>
    if b = 0x75 then string (.hex (some lead) []) acc rest else .error .malformed

/-! ## Values -/

mutual

/-- A value, nested at most `room` levels deep. -/
def value : (fuel room : Nat) → List UInt8 → Result Json
  | 0, _, _ => .error .truncated
  | fuel + 1, room, input =>
    match skipBlanks input with
    | [] => .error .truncated
    | b :: rest =>
      if b = 0x6E then word .null [0x75, 0x6C, 0x6C] rest
      else if b = 0x74 then word (.bool true) [0x72, 0x75, 0x65] rest
      else if b = 0x66 then word (.bool false) [0x61, 0x6C, 0x73, 0x65] rest
      else if b = 0x22 then
        match string .plain [] rest with
        | .ok (s, rest) => .ok (.str s, rest)
        | .error e => .error e
      else if b = 0x2D then
        match number true rest with
        | .ok (n, rest) => .ok (.num n, rest)
        | .error e => .error e
      else if isDigit b then
        match number false (b :: rest) with
        | .ok (n, rest) => .ok (.num n, rest)
        | .error e => .error e
      else if b = 0x5B then
        match room with
        | 0 => .error .malformed
        | room + 1 =>
          match skipBlanks rest with
          | [] => .error .truncated
          | 0x5D :: rest => .ok (.arr [], rest)
          | rest => items fuel room [] rest
      else if b = 0x7B then
        match room with
        | 0 => .error .malformed
        | room + 1 =>
          match skipBlanks rest with
          | [] => .error .truncated
          | 0x7D :: rest => .ok (.obj [], rest)
          | rest => members fuel room [] rest
      else .error .malformed

/-- The items of an array from here on; `acc` holds those before, last first. -/
def items : (fuel room : Nat) → (acc : List Json) → List UInt8 → Result Json
  | 0, _, _, _ => .error .truncated
  | fuel + 1, room, acc, input =>
    match value fuel room input with
    | .error e => .error e
    | .ok (j, rest) =>
      match skipBlanks rest with
      | [] => .error .truncated
      | 0x5D :: rest => .ok (.arr (j :: acc).reverse, rest)
      | 0x2C :: rest => items fuel room (j :: acc) rest
      | _ => .error .malformed

/-- The members of an object from here on, added to those before. -/
def members : (fuel room : Nat) → (acc : List (String × Json)) → List UInt8 → Result Json
  | 0, _, _, _ => .error .truncated
  | fuel + 1, room, acc, input =>
    match skipBlanks input with
    | [] => .error .truncated
    | 0x22 :: rest =>
      match string .plain [] rest with
      | .error e => .error e
      | .ok (k, rest) =>
        match skipBlanks rest with
        | [] => .error .truncated
        | 0x3A :: rest =>
          match value fuel room rest with
          | .error e => .error e
          | .ok (j, rest) =>
            match skipBlanks rest with
            | [] => .error .truncated
            | 0x7D :: rest => .ok (.obj (Json.insert k j acc), rest)
            | 0x2C :: rest => members fuel room (Json.insert k j acc) rest
            | _ => .error .malformed
        | _ => .error .malformed
    | _ => .error .malformed

end

end Json.Reader

/-- How deeply arrays and objects may be nested in a text. -/
def Json.maxDepth : Nat := 127

/-- Read the value that bytes begin with, and what follows it. Every byte starts at most one value
and one item or member, so the fuel never runs out. -/
def Json.parseFirst (bytes : List UInt8) : Except TextFault (Json × List UInt8) :=
  Json.Reader.value (2 * bytes.length + 2) Json.maxDepth bytes

/-- Whether only blanks are left. -/
def Json.isFinished (rest : List UInt8) : Bool := (Json.Reader.skipBlanks rest).isEmpty

/-- Read one value from bytes; only blanks may follow it. -/
def Json.parse (bytes : List UInt8) : Except TextFault Json :=
  match Json.parseFirst bytes with
  | .error e => .error e
  | .ok (j, rest) => if Json.isFinished rest then .ok j else .error .malformed

end LanguageServer
