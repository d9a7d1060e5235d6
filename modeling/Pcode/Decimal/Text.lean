import Pcode.Decimal.Binary

set_option autoImplicit false

/-! # Decimal texts of numbers

Three ways to write a number with a binary point: with a fixed number of places (`fixed`),
rounded to a number of digits (`significant`), and with the fewest digits that read back as the
same number (`shortest`). All of them look at the exact value. -/

namespace Pcode.Decimal

/-! ## Digits -/

/-- The number of decimal digits. -/
def digitCount (n : Nat) : Nat := (Nat.toDigits 10 n).length

/-- The place of the first digit of a quotient above zero: the largest `k` with `10 ^ k` not
above it. -/
def firstPlace (r : Ratio) : Int :=
  let shift : Int := digitCount r.den - digitCount r.num
  if r.den * Nat.pow 10 (-shift).toNat ≤ r.num * Nat.pow 10 shift.toNat then -shift else -shift - 1

/-- Decimal digits: the number `digits · 10 ^ place`. -/
structure Digits where
  digits : Nat
  place : Int
deriving Repr, DecidableEq

/-- Drop zeros at the end of some digits. -/
def dropZeros (fuel : Nat) (d : Digits) : Digits :=
  match fuel with
  | 0 => d
  | fuel + 1 =>
      if d.digits != 0 && d.digits % 10 == 0 then dropZeros fuel ⟨d.digits / 10, d.place + 1⟩
      else d

/-- The same number without zeros at the end. -/
def Digits.canonical (d : Digits) : Digits := dropZeros (digitCount d.digits) d

/-! ## Fixed places -/

/-- The text of `n / 10 ^ places`. -/
def placesText (n places : Nat) : String :=
  let cs := (toString n).toList
  let cs := List.replicate (places + 1 - cs.length) '0' ++ cs
  let whole := cs.take (cs.length - places)
  if places == 0 then String.ofList whole
  else String.ofList (whole ++ '.' :: cs.drop (cs.length - places))

def signText (negative : Bool) : String := if negative then "-" else ""

/-- A number with the given number of places; a tie goes to the even digit. -/
def fixed (places : Nat) (x : Float) : String :=
  match Shape.of x with
  | .notNumber => "nan"
  | .infinite negative => signText negative ++ "inf"
  | .finite negative mantissa exponent =>
      let r := scaled mantissa exponent (-(places : Int))
      signText negative ++ placesText (roundDiv r.num r.den) places

/-! ## Digits that read back -/

/-- The numbers that round to a given one: the ends of the interval, as `low · 2 ^ exponent` and
`high · 2 ^ exponent`, and whether the ends belong to it. -/
structure Interval where
  low : Nat
  high : Nat
  exponent : Int
  closed : Bool

/-- The numbers that round to `mantissa · 2 ^ exponent`. Below a power of two they lie twice as
dense. -/
def Interval.of (mantissa : Nat) (exponent : Int) : Interval :=
  let dense := mantissa == 1 <<< 52 && decide (-1074 < exponent)
  { low := 4 * mantissa - (if dense then 1 else 2)
    high := 4 * mantissa + 2
    exponent := exponent - 2
    closed := mantissa % 2 == 0 }

/-- Whether `n · 10 ^ place` lies in an interval. -/
def Interval.contains (i : Interval) (n : Nat) (place : Int) : Bool :=
  let value := n * Nat.pow 10 place.toNat * 1 <<< (-i.exponent).toNat
  let unit := 1 <<< i.exponent.toNat * Nat.pow 10 (-place).toNat
  if i.closed then decide (i.low * unit ≤ value) && decide (value ≤ i.high * unit)
  else decide (i.low * unit < value) && decide (value < i.high * unit)

/-- The digits at a place that read back as `mantissa · 2 ^ exponent`, if there are any: the
nearer ones of the two neighbours, and of two equally near ones the even ones. -/
def neighbour? (mantissa : Nat) (exponent place : Int) : Option Digits :=
  let r := scaled mantissa exponent place
  let i := Interval.of mantissa exponent
  let below := r.num / r.den
  let near := roundDiv r.num r.den
  let far := if near == below then below + 1 else below
  if i.contains near place then some ⟨near, place⟩
  else if i.contains far place then some ⟨far, place⟩
  else none

/-- The fewest digits that read back, with `count` digits or more. -/
def fewest (mantissa : Nat) (exponent first : Int) (count : Nat) : Nat → Digits
  | 0 =>
      let place := first + 1 - count
      let r := scaled mantissa exponent place
      ⟨roundDiv r.num r.den, place⟩
  | fuel + 1 =>
      match neighbour? mantissa exponent (first + 1 - count) with
      | some d => d
      | none => fewest mantissa exponent first (count + 1) fuel

/-- The fewest digits of `mantissa · 2 ^ exponent` that read back; seventeen are enough. -/
def shortestDigits (mantissa : Nat) (exponent : Int) : Digits :=
  (fewest mantissa exponent (firstPlace (scaled mantissa exponent 0)) 1 16).canonical

/-! ## Layout -/

/-- The text of an exponent: a sign and two digits at least. -/
def exponentText (e : Int) : String :=
  let n := toString e.natAbs
  "e" ++ (if e < 0 then "-" else "+") ++ (if n.length < 2 then "0" ++ n else n)

/-- The text of some digits. The point stands among the digits if the first of them is at most
sixteen places before it or four places after it; otherwise the digits have an exponent. -/
def Digits.text (d : Digits) : String :=
  let cs := (toString d.digits).toList
  let point : Int := cs.length + d.place
  if point < -3 || 16 < point then
    let rest := match cs.tail with
      | [] => []
      | tail => '.' :: tail
    String.ofList (cs.take 1 ++ rest) ++ exponentText (point - 1)
  else if d.place < 0 then placesText d.digits d.place.natAbs
  else String.ofList (cs ++ List.replicate d.place.toNat '0') ++ ".0"

/-- A number with the fewest digits that read back. -/
def shortest (x : Float) : String :=
  match Shape.of x with
  | .notNumber => "nan"
  | .infinite negative => signText negative ++ "inf"
  | .finite negative 0 _ => signText negative ++ "0.0"
  | .finite negative mantissa exponent =>
      signText negative ++ (shortestDigits mantissa exponent).text

/-! ## Rounding -/

/-- The number nearest to some digits. -/
def Digits.toFloat (negative : Bool) (d : Digits) : Float :=
  let x := if d.place < 0 then Float.ofScientific d.digits true d.place.natAbs
    else Float.ofScientific d.digits false d.place.natAbs
  if negative then -x else x

/-- A number rounded to the given number of places; a tie goes to the even digit. -/
def roundTo (places : Nat) (x : Float) : Float :=
  match Shape.of x with
  | .finite negative mantissa exponent =>
      let r := scaled mantissa exponent (-(places : Int))
      Digits.toFloat negative ⟨roundDiv r.num r.den, -(places : Int)⟩
  | _ => x

/-- A number rounded to the given number of digits, without a sign of zero. -/
def significant (count : Nat) (x : Float) : Float :=
  match Shape.of x with
  | .finite _ 0 _ => 0
  | .finite negative mantissa exponent =>
      let place := firstPlace (scaled mantissa exponent 0) + 1 - count
      let r := scaled mantissa exponent place
      Digits.toFloat negative ⟨roundDiv r.num r.den, place⟩
  | _ => x

end Pcode.Decimal
