set_option autoImplicit false

/-! # Binary numbers, exactly

A number with a binary point is a whole number times a power of two. `Shape.of` says which, and
everything about decimal digits is then computed with whole numbers. -/

namespace Pcode.Decimal

/-- A number with a binary point: `mantissa · 2 ^ exponent` with a sign, or none. -/
inductive Shape where
  | finite (negative : Bool) (mantissa : Nat) (exponent : Int)
  | infinite (negative : Bool)
  | notNumber
deriving Repr, DecidableEq

/-- The shape of a number of 64 bits. -/
def Shape.of (x : Float) : Shape :=
  let bits := x.toBits.toNat
  let negative := decide (1 <<< 63 ≤ bits)
  let scale : Nat := bits / 1 <<< 52 % 2048
  let fraction : Nat := bits % 1 <<< 52
  if scale == 2047 then if fraction == 0 then .infinite negative else .notNumber
  else if scale == 0 then .finite negative fraction (-1074)
  else .finite negative (fraction + 1 <<< 52) ((scale : Int) - 1075)

/-- A quotient of whole numbers. -/
structure Ratio where
  num : Nat
  den : Nat
deriving Repr, DecidableEq

/-- The quotient `mantissa · 2 ^ exponent / 10 ^ place`. -/
def scaled (mantissa : Nat) (exponent place : Int) : Ratio where
  num := mantissa * 1 <<< exponent.toNat * Nat.pow 10 (-place).toNat
  den := 1 <<< (-exponent).toNat * Nat.pow 10 place.toNat

/-- The whole number nearest to a quotient; of two equally near ones, the even one. -/
def roundDiv (num den : Nat) : Nat :=
  let whole := num / den
  let rest := num % den
  if den < 2 * rest || (2 * rest == den && whole % 2 == 1) then whole + 1 else whole

end Pcode.Decimal
