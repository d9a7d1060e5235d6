import Pcode.Byte.Adler
import Pcode.Byte.BigEndian

set_option autoImplicit false

/-! # Streams without compression

A stream of the zlib format whose blocks hold their data as it is. -/

namespace Pcode.Zlib

/-- The most bytes a block can hold as they are. -/
def maxStored : Nat := 65535

/-- A block that holds some bytes as they are: whether it is the last one, the number of bytes
and its complement, the lowest byte first, and the bytes. -/
def storedBlock (last : Bool) (bs : List UInt8) : List UInt8 :=
  (if last then 1 else 0) :: ((BigEndian.toBytes 2 bs.length).reverse ++
    (BigEndian.toBytes 2 (maxStored - bs.length)).reverse ++ bs)

/-- Blocks that hold some bytes as they are. -/
def storedBlocks (bs : List UInt8) : List UInt8 :=
  if bs.length ≤ maxStored then storedBlock true bs
  else storedBlock false (bs.take maxStored) ++ storedBlocks (bs.drop maxStored)
termination_by bs.length
decreasing_by simp only [List.length_drop, maxStored] at *; omega

/-- A stream that holds some bytes as they are. -/
def store (bs : List UInt8) : List UInt8 :=
  0x78 :: 0x01 :: (storedBlocks bs ++ BigEndian.toBytes 4 (Adler.checksum bs))

end Pcode.Zlib
