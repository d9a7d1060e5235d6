set_option autoImplicit false

/-! # Hexadecimal text of bytes -/

namespace Pcode.Hex

/-- The digit of a number below sixteen, in lower case. -/
def digit (n : Nat) : Char := Char.ofNat (if n < 10 then 48 + n else 87 + n)

/-- The value of a digit, in either case. -/
def digitValue? (c : Char) : Option Nat :=
  let n := c.toNat
  if 48 ≤ n && n ≤ 57 then some (n - 48)
  else if 97 ≤ n && n ≤ 102 then some (n - 87)
  else if 65 ≤ n && n ≤ 70 then some (n - 55)
  else none

/-- Two digits for each byte. -/
def encode (bs : List UInt8) : List Char :=
  bs.flatMap fun b => [digit (b.toNat / 16), digit (b.toNat % 16)]

/-- The bytes of a text of pairs of digits. -/
def decode? : List Char → Option (List UInt8)
  | [] => some []
  | [_] => none
  | c :: d :: s =>
      match digitValue? c, digitValue? d, decode? s with
      | some h, some l, some bs => some (UInt8.ofNat (16 * h + l) :: bs)
      | _, _, _ => none

end Pcode.Hex
