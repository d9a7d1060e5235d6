import Pcode.Decimal.Text
import Pcode.Text.Blank
import Pcode.Text.Digit

set_option autoImplicit false

/-! # Reading decimal numbers

A number has a sign, digits with or without a point, and an exponent; single underscores may
stand between digits. Blanks around it do not count. Infinity and the value that is no number
have names. -/

namespace Pcode.Decimal

open Pcode.Text

/-- The digits at the start of a text, with single underscores between them, and the rest. -/
def takeDigits : List Char → List Nat × List Char
  | [] => ([], [])
  | [c] => if isDecimal c then ([decimalValue c], []) else ([], [c])
  | c :: c' :: s =>
      if !isDecimal c then ([], c :: c' :: s)
      else if c' == '_' && (s.head?.map isDecimal).getD false then
        let (ds, rest) := takeDigits s
        (decimalValue c :: ds, rest)
      else
        let (ds, rest) := takeDigits (c' :: s)
        (decimalValue c :: ds, rest)

/-- The number that digits write. -/
def ofDigits (ds : List Nat) : Nat := ds.foldl (fun n d => 10 * n + d) 0

/-- The number nearest to `digits · 10 ^ place`. Numbers beyond the range are infinite or zero. -/
def nearest (digits : Nat) (place : Int) : Float :=
  let first := digitCount digits + place
  if digits == 0 || first < -400 then 0
  else if 400 < first then 1 / 0
  else Digits.toFloat false ⟨digits, place⟩

/-- The exponent at the start of a text; `none` if it has no digits. -/
def takeExponent (s : List Char) : Option (Int × List Char) :=
  let (negative, s) := match s with
    | '-' :: s => (true, s)
    | '+' :: s => (false, s)
    | s => (false, s)
  match takeDigits s with
  | ([], _) => none
  | (ds, rest) =>
      let n : Int := ofDigits ds
      some (if negative then -n else n, rest)

/-- A number without a sign that takes up all of a text. -/
def readMagnitude? (s : List Char) : Option Float :=
  let lower := s.map Char.toLower
  if lower == "inf".toList || lower == "infinity".toList then some (1 / 0)
  else if lower == "nan".toList then some (0 / 0)
  else
    let (whole, rest) := takeDigits s
    let (fraction, rest) := match rest with
      | '.' :: rest => takeDigits rest
      | rest => ([], rest)
    if whole.isEmpty && fraction.isEmpty then none
    else
      let number (e : Int) : Float := nearest (ofDigits (whole ++ fraction)) (e - fraction.length)
      match rest with
      | [] => some (number 0)
      | c :: rest =>
          if c == 'e' || c == 'E' then
            match takeExponent rest with
            | some (e, []) => some (number e)
            | _ => none
          else none

/-- The number in a text. -/
def read? (s : List Char) : Option Float :=
  match trim s with
  | '-' :: s => (readMagnitude? s).map fun x => -x
  | '+' :: s => readMagnitude? s
  | s => readMagnitude? s

end Pcode.Decimal
