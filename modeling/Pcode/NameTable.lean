import Pcode.Byte.Utf8

set_option autoImplicit false

/-! # The table of names

The names of a program stand before its code, in seven groups. Only the number of names of
each group is known; a name ends at a zero byte. -/

namespace Pcode.NameTable

/-- The number of groups. -/
def groupCount : Nat := 7

/-- The bytes of a table: the names one after the other, each with a zero byte at its end. -/
def encode (names : List (List Char)) : List UInt8 :=
  names.flatMap fun name => Utf8.encode name ++ [0]

/-- The bytes up to the first zero byte, and those after it. -/
def takeName? : List UInt8 → Option (List UInt8 × List UInt8)
  | [] => none
  | b :: rest => if b = 0 then some ([], rest) else (takeName? rest).map fun q => (b :: q.1, q.2)

/-- The first `count` names, and what follows them. -/
def takeNames? : Nat → List UInt8 → Option (List (List Char) × List UInt8)
  | 0, bs => some ([], bs)
  | count + 1, bs =>
      match takeName? bs with
      | none => none
      | some (name, rest) =>
          (takeNames? count rest).map fun q => (Utf8.decodeLossy name :: q.1, q.2)

/-- Why a table cannot be read. -/
inductive Error where
  /-- the sizes of fewer than seven groups are known -/
  | missingSize
  /-- the bytes end before the last name does -/
  | unterminated
deriving Repr, DecidableEq

/-- Read `more` groups of the given sizes; a size below zero is that of an empty group. -/
def readGroups : Nat → List Int → List UInt8 → Except Error (List (List Char) × List UInt8)
  | 0, _, bs => .ok ([], bs)
  | _ + 1, [], _ => .error .missingSize
  | more + 1, size :: sizes, bs =>
      match takeNames? size.toNat bs with
      | none => .error .unterminated
      | some (names, rest) => (readGroups more sizes rest).map fun q => (names ++ q.1, q.2)

/-- The names of a table, and the code after it. -/
def read (sizes : List Int) (bs : List UInt8) : Except Error (List (List Char) × List UInt8) :=
  readGroups groupCount sizes bs

end Pcode.NameTable
