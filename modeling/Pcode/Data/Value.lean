set_option autoImplicit false

/-! # Structured data

Values as they stand in data files: records keep the order of their fields, and whole numbers
are told from numbers with a point. -/

namespace Pcode.Data

inductive Value where
  | null
  | bool (b : Bool)
  | int (n : Int)
  | float (x : Float)
  | text (s : String)
  | list (items : List Value)
  | record (fields : List (String × Value))
deriving Repr, Inhabited

namespace Value

/-- The name of the type of a value, as messages show it. -/
def typeName : Value → String
  | null => "NoneType"
  | bool _ => "bool"
  | int _ => "int"
  | float _ => "float"
  | text _ => "str"
  | list _ => "list"
  | record _ => "dict"

/-- Whether a value counts as nothing: null, false, zero, or empty. -/
def isNothing : Value → Bool
  | null => true
  | bool b => !b
  | int n => n == 0
  | float x => x == 0
  | text s => s == ""
  | list items => items.isEmpty
  | record fields => fields.isEmpty

/-- The fields of a record; none for any other value. -/
def fields : Value → List (String × Value)
  | record fields => fields
  | _ => []

/-- The items of a list; none for any other value. -/
def items : Value → List Value
  | list items => items
  | _ => []

/-- A field of a record. -/
def get? (v : Value) (key : String) : Option Value := v.fields.lookup key

/-- A field of a record, or null. -/
def get (v : Value) (key : String) : Value := (v.get? key).getD null

/-- A record with a field set: in its place if it is there, else at the end. -/
def set (v : Value) (key : String) (value : Value) : Value :=
  if (v.get? key).isSome then
    record (v.fields.map fun (k, old) => if k == key then (k, value) else (k, old))
  else record (v.fields ++ [(key, value)])

end Value

end Pcode.Data
