import Pcode.Data.Value
import Pcode.Decimal.Text

set_option autoImplicit false

/-! # Writing structured data

The text of a value has one blank after each comma and each colon, and no character beyond
ASCII: others are written by their UTF-16 units. -/

namespace Pcode.Data

/-- A hexadecimal digit. -/
def hexDigit (n : Nat) : Char :=
  if n < 10 then Char.ofNat (48 + n) else Char.ofNat (87 + n)

/-- The escape of a UTF-16 unit. -/
def unitEscape (n : Nat) : List Char :=
  ['\\', 'u', hexDigit (n / 4096 % 16), hexDigit (n / 256 % 16), hexDigit (n / 16 % 16),
    hexDigit (n % 16)]

/-- A character inside a quoted text. -/
def escape (c : Char) : List Char :=
  if c == '"' then ['\\', '"']
  else if c == '\\' then ['\\', '\\']
  else if c == '\n' then ['\\', 'n']
  else if c == '\r' then ['\\', 'r']
  else if c == '\t' then ['\\', 't']
  else if c.toNat == 8 then ['\\', 'b']
  else if c.toNat == 12 then ['\\', 'f']
  else if 32 ≤ c.toNat && c.toNat < 127 then [c]
  else if c.toNat < 65536 then unitEscape c.toNat
  else
    let n := c.toNat - 65536
    unitEscape (0xD800 + n / 1024) ++ unitEscape (0xDC00 + n % 1024)

/-- A text in double quotes. -/
def quoteText (s : String) : String :=
  "\"" ++ String.ofList (s.toList.flatMap escape) ++ "\""

/-- The text of a number with a point. -/
def floatText (x : Float) : String :=
  match Decimal.Shape.of x with
  | .notNumber => "NaN"
  | .infinite negative => if negative then "-Infinity" else "Infinity"
  | .finite .. => Decimal.shortest x

mutual

/-- The text of a value. -/
def Value.write : Value → String
  | .null => "null"
  | .bool b => if b then "true" else "false"
  | .int n => toString n
  | .float x => floatText x
  | .text s => quoteText s
  | .list items => "[" ++ ", ".intercalate (writeItems items) ++ "]"
  | .record fields => "\x7b" ++ ", ".intercalate (writeFields fields) ++ "\x7d"

/-- The texts of the items of a list. -/
def writeItems : List Value → List String
  | [] => []
  | v :: vs => v.write :: writeItems vs

/-- The texts of the fields of a record. -/
def writeFields : List (String × Value) → List String
  | [] => []
  | (key, v) :: fields => (quoteText key ++ ": " ++ v.write) :: writeFields fields

end

end Pcode.Data
