import Pcode.Byte.Hex
import Pcode.Byte.Sha256
import Pcode.Byte.Utf8
import Pcode.Decimal.Text

set_option autoImplicit false

/-! # Fingerprints of results

Two results are told apart by the digest of a text that says what they hold. The text does not
tell a list from a tuple, nor a text from its bytes; it does not depend on the order of sets and
dictionaries, and it has only six digits of a number with a point. -/

namespace Pcode.Survey

/-- The ways to hold bytes. -/
inductive ByteKind where
  | bytes
  | array
  | view
deriving Repr, DecidableEq

/-- A result of a bench. -/
inductive Result where
  | none
  | bool (b : Bool)
  | int (n : Int)
  | float (x : Float)
  | text (s : String)
  | bytes (kind : ByteKind) (data : List UInt8)
  | list (items : List Result)
  | tuple (items : List Result)
  | set (frozen : Bool) (items : List Result)
  | dict (entries : List (Result × Result))
deriving Repr, Inhabited

namespace Result

/-- The name of the type of a result. -/
def typeName : Result → String
  | none => "NoneType"
  | bool _ => "bool"
  | int _ => "int"
  | float _ => "float"
  | text _ => "str"
  | bytes .bytes _ => "bytes"
  | bytes .array _ => "bytearray"
  | bytes .view _ => "memoryview"
  | list _ => "list"
  | tuple _ => "tuple"
  | set frozen _ => if frozen then "frozenset" else "set"
  | dict _ => "dict"

end Result

/-- The bytes of a text. -/
def utf8 (s : String) : List UInt8 := Utf8.encode s.toList

/-- The digest of some bytes, in hexadecimal digits. -/
def digestText (bs : List UInt8) : String := String.ofList (Hex.encode (Sha256.digest bs))

/-- A letter and the number of parts. -/
def headOf (letter : String) (count : Nat) : List UInt8 := utf8 (letter ++ toString count)

mutual

/-- What a result holds, as bytes. -/
def Result.walk : Result → List UInt8
  | .none => utf8 "None"
  | .bool b => utf8 (if b then "True" else "False")
  | .int n => utf8 (toString n)
  | .float x => utf8 (Decimal.shortest (Decimal.significant 6 x))
  | .text s => utf8 ("s" ++ s)
  | .bytes _ data => utf8 "s" ++ data
  | .list items => headOf "L" items.length ++ (walkItems items).flatten
  | .tuple items => headOf "L" items.length ++ (walkItems items).flatten
  | .set _ items =>
      let parts := (walkItems items).eraseDups
      headOf "S" parts.length ++ (parts.map digestText).mergeSort.flatMap utf8
  | .dict entries =>
      headOf "D" entries.length ++
        (((walkEntries entries).map fun (key, value) => (digestText key, key ++ value)).mergeSort
          fun a b => decide (a.1 ≤ b.1)).flatMap (·.2)

/-- What some results hold. -/
def walkItems : List Result → List (List UInt8)
  | [] => []
  | r :: rs => r.walk :: walkItems rs

/-- What the keys and values of some entries hold. -/
def walkEntries : List (Result × Result) → List (List UInt8 × List UInt8)
  | [] => []
  | (key, value) :: entries => (key.walk, value.walk) :: walkEntries entries

end

/-- The fingerprint of a result. -/
def Result.fingerprint (r : Result) : String := digestText r.walk

end Pcode.Survey
