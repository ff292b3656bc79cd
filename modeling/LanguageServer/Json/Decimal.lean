import LanguageServer.Json.Value

set_option autoImplicit false

/-! # Doubles and their decimal texts

Two independent halves. `Double.shortest` finds the fewest decimal digits that still denote a
double: it splits the bits into `m · 2 ^ q`, takes the interval of reals that round to that value,
and tries one digit, two digits, and so on, in exact integer arithmetic. `Double.ofParts` goes the
other way, from a significand and a power of ten to a double.

How a digit string is laid out on the page (where the point goes, when an exponent is used) is a
separate decision, kept in `DecimalLayout`. -/

namespace LanguageServer

/-- A decimal number: its digits, most significant first, and the power of ten of the first one. -/
structure Digits where
  digits : List Char
  scale : Int
deriving DecidableEq, Repr

/-! ## The fewest digits -/

/-- How many decimal digits a number has. -/
def decimalWidth (n : Nat) : Nat := (Nat.toDigits 10 n).length

/-- The power of ten of the first digit of `num / den`, for positive operands. -/
def leadingPower (num den : Nat) : Int :=
  if den ≤ num then
    (decimalWidth (num / den) : Int) - 1
  else
    -(decimalWidth ((den - 1) / num) : Int)

/-- The reals that round to one double, all over a common denominator: the value itself, the two
ends, and whether the ends belong to it. -/
structure RoundingInterval where
  low : Nat
  value : Nat
  high : Nat
  denominator : Nat
  closed : Bool

namespace RoundingInterval

/-- Whether `d · 10 ^ e` lies in the interval. -/
def contains (r : RoundingInterval) (d : Nat) (e : Int) : Bool :=
  let point := d * Nat.pow 10 e.toNat * r.denominator
  let unit := Nat.pow 10 (-e).toNat
  if r.closed then r.low * unit ≤ point && point ≤ r.high * unit
  else r.low * unit < point && point < r.high * unit

/-- The point of the grid `10 ^ e` to print, if one lies in the interval: the nearer of the
value's two neighbours, the even one when they are equally near. -/
def pick (r : RoundingInterval) (e : Int) : Option Nat :=
  let top := r.value * Nat.pow 10 (-e).toNat
  let bottom := r.denominator * Nat.pow 10 e.toNat
  let below := top / bottom
  let remainder := top % bottom
  match r.contains below e, r.contains (below + 1) e with
  | false, false => none
  | true, false => some below
  | false, true => some (below + 1)
  | true, true =>
    if 2 * remainder < bottom then some below
    else if 2 * remainder > bottom then some (below + 1)
    else if below % 2 = 0 then some below else some (below + 1)

/-- Try ever finer grids, at most `tries` of them. -/
def search (r : RoundingInterval) : (tries : Nat) → (e : Int) → Nat × Int
  | 0, e => (r.value * Nat.pow 10 (-e).toNat / (r.denominator * Nat.pow 10 e.toNat), e)
  | tries + 1, e =>
    match r.pick e with
    | some d => (d, e)
    | none => r.search tries (e - 1)

end RoundingInterval

namespace Double

def isNegative (d : Double) : Bool := d.bits >>> 63 == 1

/-- The double as `m · 2 ^ q`, sign apart. -/
def significand (d : Double) : Nat × Int :=
  let fraction := (d.bits &&& 0xFFFFFFFFFFFFF).toNat
  let exponent := ((d.bits >>> 52) &&& 0x7FF).toNat
  if exponent = 0 then (fraction, -1074) else (fraction + 4503599627370496, (exponent : Int) - 1075)

/-- The reals that round to the double, for `m > 0`. Just below a power of two the neighbours
stand twice as close. -/
def interval (d : Double) : RoundingInterval :=
  let (m, q) := d.significand
  let narrow := m = 4503599627370496 ∧ q > -1074
  let up := Nat.pow 2 (q - 2).toNat
  { low := (4 * m - if narrow then 1 else 2) * up
    value := 4 * m * up
    high := (4 * m + 2) * up
    denominator := Nat.pow 2 (2 - q).toNat
    closed := m % 2 = 0 }

/-- The digits of a positive number without its trailing zeros. -/
def trimZeros (digits : List Char) : List Char :=
  (digits.reverse.dropWhile (· == '0')).reverse

/-- The fewest digits that denote the double, sign apart; zero is the single digit 0. -/
def shortest (d : Double) : Digits :=
  if d.significand.1 = 0 then ⟨['0'], 0⟩
  else
    let r := d.interval
    let (n, e) := r.search 17 (leadingPower r.value r.denominator)
    let digits := Nat.toDigits 10 n
    ⟨trimZeros digits, e + (digits.length : Int) - 1⟩

end Double

/-! ## Laying digits out -/

/-- Where positional notation ends: numbers from `10 ^ least` up to, not including,
`10 ^ limit` are written without an exponent. -/
structure DecimalLayout where
  least : Int
  limit : Int

namespace DecimalLayout

/-- Positional notation, with a fractional part always shown. -/
def positional (d : Digits) : List Char :=
  if d.scale < 0 then
    ['0', '.'] ++ List.replicate (-d.scale - 1).toNat '0' ++ d.digits
  else
    let whole := d.scale.toNat + 1
    let padded := d.digits ++ List.replicate (whole - d.digits.length) '0'
    let fraction := padded.drop whole
    padded.take whole ++ ['.'] ++ if fraction.isEmpty then ['0'] else fraction

/-- One digit, the others after a point if there are any, and a signed exponent. -/
def scientific (d : Digits) : List Char :=
  let mantissa := match d.digits with
    | [] => []
    | [c] => [c]
    | c :: rest => c :: '.' :: rest
  let sign := if d.scale < 0 then '-' else '+'
  mantissa ++ ['e', sign] ++ Nat.toDigits 10 d.scale.natAbs

/-- The text of a number with these digits. -/
def render (layout : DecimalLayout) (d : Digits) : List Char :=
  if layout.least ≤ d.scale ∧ d.scale < layout.limit then positional d else scientific d

end DecimalLayout

/-- JSON numbers are positional from `0.00001` up to sixteen digits before the point. -/
def Json.decimalLayout : DecimalLayout := ⟨-5, 16⟩

/-- The text of a double. -/
def Double.render (d : Double) : List Char :=
  let digits := Json.decimalLayout.render d.shortest
  if d.isNegative then '-' :: digits else digits

/-! ## From decimal to double -/

namespace Double

/-- The double nearest to a power of ten. -/
def powerOfTen (k : Nat) : Float := Float.ofScientific 1 false k

/-- Divide by `10 ^ k`, in steps of at most `10 ^ 308`, which is the largest power a double
holds. -/
def scaleDown (f : Float) (k : Nat) : Float :=
  if k ≤ 308 then f / powerOfTen k
  else if f == 0 then f
  else scaleDown (f / powerOfTen 308) (k - 308)
termination_by k

/-- The double `significand · 10 ^ exponent` with its sign, rounding once when the significand
becomes a double and once at each scaling; nothing if it is too large for a double. -/
def ofParts (negative : Bool) (significand : UInt64) (exponent : Int) : Option Double :=
  let f := significand.toFloat
  let signed (x : Float) : Double := ofFloat (if negative then -x else x)
  if exponent < 0 then
    some (signed (scaleDown f exponent.natAbs))
  else if exponent ≤ 308 then
    let x := f * powerOfTen exponent.natAbs
    if x.isInf then none else some (signed x)
  else if f == 0 then some (signed f)
  else none

end Double

end LanguageServer
