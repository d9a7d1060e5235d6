set_option autoImplicit false

/-! # The Adler-32 checksum -/

namespace Pcode.Adler

/-- The two running sums of the checksum, modulo the largest prime below 2¹⁶. -/
def sums (bs : List UInt8) : Nat × Nat :=
  bs.foldl (fun (a, b) x =>
    let a := (a + x.toNat) % 65521
    (a, (b + a) % 65521)) (1, 0)

/-- The checksum of some bytes. -/
def checksum (bs : List UInt8) : Nat :=
  let (a, b) := sums bs
  b * 65536 + a

end Pcode.Adler
