import LanguageServer.Toml.Value

set_option autoImplicit false

/-! # TOML scalars

Numbers, truth values, dates and times, each from the characters it is written with. -/

namespace LanguageServer.Toml

/-! ## Digits -/

/-- Digits among which single underscores may stand, without the underscores; `after` says that a
digit stands before. -/
def ungroup (isDigit : Char → Bool) : (after : Bool) → List Char → Option (List Char)
  | after, [] => if after then some [] else none
  | after, c :: rest =>
    if isDigit c then (ungroup isDigit true rest).map (c :: ·)
    else if c = '_' && after then ungroup isDigit false rest
    else none

/-- The value of a digit in bases up to sixteen. -/
def digitValue (c : Char) : Nat :=
  if c.isDigit then c.toNat - '0'.toNat
  else if 'a' ≤ c && c ≤ 'f' then c.toNat - 'a'.toNat + 10
  else c.toNat - 'A'.toNat + 10

def ofDigits (base : Nat) (digits : List Char) : Nat :=
  digits.foldl (fun n c => n * base + digitValue c) 0

def isHexDigit (c : Char) : Bool :=
  c.isDigit || ('a' ≤ c && c ≤ 'f') || ('A' ≤ c && c ≤ 'F')

def isOctalDigit (c : Char) : Bool := '0' ≤ c && c ≤ '7'

def isBinaryDigit (c : Char) : Bool := c = '0' || c = '1'

/-! ## Numbers -/

/-- A sign, if there is one, and what follows it. -/
def splitSign : List Char → Bool × List Char
  | '-' :: rest => (true, rest)
  | '+' :: rest => (false, rest)
  | cs => (false, cs)

/-- Decimal digits without a zero in front. -/
def wholeDigits? (cs : List Char) : Option (List Char) :=
  match ungroup Char.isDigit false cs with
  | some ['0'] => some ['0']
  | some ('0' :: _) | none => none
  | some digits => some digits

/-- A number of at most 128 bits. -/
def unsigned? (n : Nat) : Option Int :=
  if n < 0x100000000000000000000000000000000 then some n else none

/-- A number of at most 128 bits, one of them for its sign, with the sign turned. -/
def negated? (n : Nat) : Option Int :=
  if n ≤ 0x80000000000000000000000000000000 then some (-(n : Int)) else none

/-- An integer of at most 128 bits. -/
def integer? (cs : List Char) : Option Int :=
  match cs with
  | '0' :: 'x' :: rest => (ungroup isHexDigit false rest).bind fun ds => unsigned? (ofDigits 16 ds)
  | '0' :: 'o' :: rest => (ungroup isOctalDigit false rest).bind fun ds => unsigned? (ofDigits 8 ds)
  | '0' :: 'b' :: rest =>
    (ungroup isBinaryDigit false rest).bind fun ds => unsigned? (ofDigits 2 ds)
  | cs =>
    let (negative, cs) := splitSign cs
    (wholeDigits? cs).bind fun ds =>
      if negative then negated? (ofDigits 10 ds) else unsigned? (ofDigits 10 ds)

/-- Whether `digits` times ten to the power of `exponent` is within the range of a double. -/
def isFinite (digits : List Char) (exponent : Int) : Bool :=
  let digits := digits.dropWhile (· == '0')
  let size : Int := digits.length + exponent
  if digits.isEmpty || size < 300 then true
  else if size > 400 then false
  else
    let n := ofDigits 10 digits
    let bound := 0x3fffffffffffff * Nat.pow 2 970
    if 0 ≤ exponent then n * Nat.pow 10 exponent.toNat < bound
    else n < bound * Nat.pow 10 (-exponent).toNat

/-- An exponent: a sign, if there is one, and digits. -/
def exponent? (cs : List Char) : Option Int :=
  let (negative, cs) := splitSign cs
  (ungroup Char.isDigit false cs).map fun ds =>
    if negative then -(ofDigits 10 ds : Int) else ofDigits 10 ds

/-- Whether characters are a float: whole digits with a fraction, an exponent or both, infinity, or
not a number. -/
def isFloat (cs : List Char) : Bool :=
  let (_, cs) := splitSign cs
  if cs = "inf".toList || cs = "nan".toList then true
  else
    let isMark (c : Char) : Bool := c = 'e' || c = 'E'
    let mantissa := cs.takeWhile fun c => !isMark c
    let power := cs.dropWhile fun c => !isMark c
    let whole := mantissa.takeWhile (· ≠ '.')
    let fraction := mantissa.dropWhile (· ≠ '.')
    let fractionDigits : Option (List Char) := match fraction with
      | [] => some []
      | _ :: ds => ungroup Char.isDigit false ds
    let exponent : Option Int := match power with
      | [] => some 0
      | _ :: ds => exponent? ds
    match wholeDigits? whole, fractionDigits, exponent with
    | some ws, some fs, some e =>
      !(fraction.isEmpty && power.isEmpty) && isFinite (ws ++ fs) (e - fs.length)
    | _, _, _ => false

/-! ## Dates and times -/

/-- A number of exactly so many digits, and what follows it. -/
def fixedDigits? (count : Nat) (cs : List Char) : Option (Nat × List Char) :=
  let digits := cs.take count
  if digits.length = count && digits.all Char.isDigit then
    some (ofDigits 10 digits, cs.drop count)
  else none

/-- What follows a given character. -/
def after? (c : Char) : List Char → Option (List Char)
  | d :: rest => if d = c then some rest else none
  | [] => none

def daysInMonth (year month : Nat) : Nat :=
  if month = 2 then
    if year % 4 = 0 && (year % 100 ≠ 0 || year % 400 = 0) then 29 else 28
  else if month = 4 || month = 6 || month = 9 || month = 11 then 30
  else 31

/-- What follows a date. -/
def afterDate? (cs : List Char) : Option (List Char) := do
  let (year, cs) ← fixedDigits? 4 cs
  let cs ← after? '-' cs
  let (month, cs) ← fixedDigits? 2 cs
  let cs ← after? '-' cs
  let (day, cs) ← fixedDigits? 2 cs
  if 1 ≤ month && month ≤ 12 && 1 ≤ day && day ≤ daysInMonth year month then some cs else none

/-- What follows hours and minutes. -/
def afterMinutes? (cs : List Char) : Option (List Char) := do
  let (hour, cs) ← fixedDigits? 2 cs
  let cs ← after? ':' cs
  let (minute, cs) ← fixedDigits? 2 cs
  if hour ≤ 23 && minute ≤ 59 then some cs else none

/-- What follows a fraction of a second, which may be left out. -/
def afterFraction? : List Char → Option (List Char)
  | '.' :: cs =>
    if (cs.takeWhile Char.isDigit).isEmpty then none else some (cs.dropWhile Char.isDigit)
  | cs => some cs

/-- What follows a time; seconds and fractions of them may be left out. -/
def afterTime? (cs : List Char) : Option (List Char) :=
  match afterMinutes? cs with
  | some (':' :: cs) =>
    match fixedDigits? 2 cs with
    | some (second, cs) => if second ≤ 60 then afterFraction? cs else none
    | none => none
  | rest => rest

/-- Whether characters are the distance to universal time, or nothing. -/
def isOffset : List Char → Bool
  | [] | ['Z'] | ['z'] => true
  | c :: cs => (c = '+' || c = '-') && afterMinutes? cs == some []

/-- Whether characters are a date, a time, or both. -/
def isMoment (cs : List Char) : Bool :=
  match afterDate? cs with
  | some [] => true
  | some (c :: rest) =>
    (c = 'T' || c = 't' || c = ' ') && ((afterTime? rest).map isOffset).getD false
  | none => afterTime? cs == some []

/-! ## Scalars -/

/-- The value that characters, without quotes around them, stand for. -/
def scalar? (cs : List Char) : Option Toml :=
  if cs = "true".toList then some (.bool true)
  else if cs = "false".toList then some (.bool false)
  else
    match integer? cs with
    | some n => some (.int n)
    | none =>
      if isFloat cs then some (.float (String.ofList cs))
      else if isMoment cs then some (.moment (String.ofList cs))
      else none

end LanguageServer.Toml
