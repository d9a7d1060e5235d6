import Pcode.Byte.BigEndian
import Pcode.Bytecode
import Pcode.NameTable
import Pcode.Scramble
import Pcode.Zlib.Inflate

set_option autoImplicit false

/-! # Containers

A container is a file with a header of 32 bytes and a payload:

    offset   0  6 bytes   version of the format
             6  6 bytes   revision, `v00.00`
            12  4 bytes   key of the scrambling
            16  8 bytes   not used
            24  4 bytes   size of the payload
            28  4 bytes   least size of the decompressed payload
            32            payload

Numbers are written with the most significant byte first. The payload is compressed, then
scrambled. Decompressed, it holds the sizes of seven groups of names, the table of the names,
and the code. -/

namespace Pcode

/-- The parts of a container that are used. -/
structure Container where
  revision : List UInt8
  key : Nat
  payloadSize : Nat
  plainSize : Nat
  payload : List UInt8
deriving Repr, DecidableEq

namespace Container

/-- The revision that can be read, `v00.00`. -/
def knownRevision : List UInt8 := [0x76, 0x30, 0x30, 0x2E, 0x30, 0x30]

/-- The version that is written, `v01.00`. -/
def version : List UInt8 := [0x76, 0x30, 0x31, 0x2E, 0x30, 0x30]

def headerSize : Nat := 32

/-- The bytes of a container. -/
def toBytes (c : Container) : List UInt8 :=
  version ++ c.revision ++ BigEndian.toBytes 4 c.key ++ List.replicate 8 0 ++
    BigEndian.toBytes 4 c.payloadSize ++ BigEndian.toBytes 4 c.plainSize ++ c.payload

/-- The `count` bytes from `offset` on. -/
def field (bs : List UInt8) (offset count : Nat) : List UInt8 := (bs.drop offset).take count

/-- Read a container; `none` if there is no complete header. -/
def ofBytes? (bs : List UInt8) : Option Container :=
  if bs.length < headerSize then none
  else some {
    revision := field bs 6 6
    key := BigEndian.ofBytes (field bs 12 4)
    payloadSize := BigEndian.ofBytes (field bs 24 4)
    plainSize := BigEndian.ofBytes (field bs 28 4)
    payload := bs.drop headerSize }

/-- Whether the header fits the payload. -/
def isValid (c : Container) : Bool :=
  0 < c.payloadSize && 0 < c.plainSize && c.revision == knownRevision &&
    c.payload.length == c.payloadSize

end Container

/-- The decompressed payload of a container: the sizes of the groups of names, and the table
of names with the code after it. -/
structure Program where
  sizes : List Nat
  body : List UInt8
deriving Repr, DecidableEq

namespace Program

/-- The size of the part that holds the sizes of the groups. -/
def sizesLength : Nat := 4 * NameTable.groupCount

/-- The sizes at the start of some bytes; bytes that are missing make a number shorter. -/
def sizesOf (bs : List UInt8) : List Nat :=
  (List.range NameTable.groupCount).map fun i => BigEndian.ofBytes (Container.field bs (4 * i) 4)

/-- The program in decompressed bytes. -/
def ofBytes (bs : List UInt8) : Program := ⟨sizesOf bs, bs.drop sizesLength⟩

/-- The bytes of a program with the given groups of names and items of code. -/
def encode (groups : List (List (List Char))) (items : List Bytecode.Item) :
    List UInt8 :=
  groups.flatMap (fun g => BigEndian.toBytes 4 g.length) ++ NameTable.encode groups.flatten ++
    Bytecode.encode items

/-- Why a program has no source. -/
inductive Error where
  | names (e : NameTable.Error)
  | code (e : Bytecode.Error)
deriving Repr, DecidableEq

def Error.message : Error → String
  | .names .missingSize => "list index out of range"
  | .names .unterminated => "cannot unpack non-iterable NoneType object"
  | .code .cutOff => "index out of range"
  | .code .beforeFirst => "list index out of range"
  | .code .beyondLast => "can only join an iterable"

/-- The source that a table of names and the code after it stand for. -/
def sourceOf (sizes : List Int) (body : List UInt8) : Except Error (List Char) :=
  match NameTable.read sizes body with
  | .error e => .error (.names e)
  | .ok (names, code) =>
      match Bytecode.decode names code with
      | .error e => .error (.code e)
      | .ok parts => .ok parts.flatten

/-- The source of a program. -/
def source (p : Program) : Except Error (List Char) :=
  sourceOf (p.sizes.map Int.ofNat) p.body

end Program

/-- The program in a container, by the given decompression; `none` if the payload does not
decompress or has fewer bytes than the header says. -/
def Container.program? (inflate : List UInt8 → Option (List UInt8)) (c : Container) :
    Option Program :=
  match inflate (Scramble.descramble c.key c.payload) with
  | none => none
  | some plain => if plain.length < c.plainSize then none else some (Program.ofBytes plain)

end Pcode
