import Pcode.Data.Value
import Pcode.Decimal.Read

set_option autoImplicit false

/-! # Reading structured data

A text holds one value, with blanks around it. A fault is reported with its place: the number of
characters before it, and the line and column. -/

namespace Pcode.Data

/-! ## Faults -/

inductive Cause where
  | value
  | fieldName
  | colon
  | comma
  | unterminated
  | controlCharacter
  | escape
  | unitEscape
  | extraData
  | byteOrderMark
deriving Repr, DecidableEq

def Cause.message : Cause → String
  | value => "Expecting value"
  | fieldName => "Expecting property name enclosed in double quotes"
  | colon => "Expecting ':' delimiter"
  | comma => "Expecting ',' delimiter"
  | unterminated => "Unterminated string starting at"
  | controlCharacter => "Invalid control character at"
  | escape => "Invalid \\escape"
  | unitEscape => "Invalid \\uXXXX escape"
  | extraData => "Extra data"
  | byteOrderMark => "Unexpected UTF-8 BOM (decode using utf-8-sig)"

/-- A fault: its cause, and the text from its place on. -/
structure Fault where
  cause : Cause
  rest : List Char
deriving Repr, DecidableEq

/-- The message for a fault in a text. -/
def Fault.message (f : Fault) (text : List Char) : String :=
  let position := text.length - f.rest.length
  let before := text.take position
  let line := before.count '\n' + 1
  let column := (before.reverse.takeWhile (· != '\n')).length + 1
  let cause := f.cause.message
  s!"{cause}: line {line} column {column} (char {position})"

/-! ## Parts of values -/

def isDataBlank (c : Char) : Bool := c == ' ' || c == '\t' || c == '\n' || c == '\r'

def skipDataBlanks (s : List Char) : List Char := s.dropWhile isDataBlank

def hexValue? (c : Char) : Option Nat :=
  let n := c.toNat
  if 48 ≤ n && n ≤ 57 then some (n - 48)
  else if 97 ≤ n && n ≤ 102 then some (n - 87)
  else if 65 ≤ n && n ≤ 70 then some (n - 55)
  else none

/-- The UTF-16 unit at the start of a text, in four hexadecimal digits; something has to follow
it. -/
def takeUnit? : List Char → Option (Nat × List Char)
  | a :: b :: c :: d :: e :: rest => do
      let a ← hexValue? a
      let b ← hexValue? b
      let c ← hexValue? c
      let d ← hexValue? d
      return (((a * 16 + b) * 16 + c) * 16 + d, e :: rest)
  | _ => none

/-- The character of a unit, and what follows it: with a second unit after it, two units can be
one character. -/
def unitChar (unit : Nat) (rest : List Char) : Char × List Char :=
  if 0xD800 ≤ unit && unit < 0xDC00 then
    match rest with
    | '\\' :: 'u' :: more =>
        match takeUnit? more with
        | some (low, more) =>
            if 0xDC00 ≤ low && low < 0xE000 then
              (Char.ofNat (0x10000 + (unit - 0xD800) * 1024 + (low - 0xDC00)), more)
            else (Char.ofNat 0xFFFD, rest)
        | none => (Char.ofNat 0xFFFD, rest)
    | _ => (Char.ofNat 0xFFFD, rest)
  else if 0xDC00 ≤ unit && unit < 0xE000 then (Char.ofNat 0xFFFD, rest)
  else (Char.ofNat unit, rest)

/-- The character that a letter after a backslash stands for. -/
def simpleEscape? (c : Char) : Option Char :=
  [('"', '"'), ('\\', '\\'), ('/', '/'), ('b', Char.ofNat 8), ('f', Char.ofNat 12),
    ('n', '\n'), ('r', '\r'), ('t', '\t')].lookup c

/-- The rest of a quoted text whose opening quote begins `opening`; `done` holds the characters
so far, the last one first. -/
def takeQuoted (opening : List Char) : Nat → List Char → List Char →
    Except Fault (String × List Char)
  | 0, _, _ => .error ⟨.unterminated, opening⟩
  | fuel + 1, done, s =>
      match s with
      | [] => .error ⟨.unterminated, opening⟩
      | '"' :: rest => .ok (String.ofList done.reverse, rest)
      | ['\\'] => .error ⟨.unterminated, opening⟩
      | '\\' :: 'u' :: rest =>
          match takeUnit? rest with
          | none => .error ⟨.unitEscape, s⟩
          | some (unit, rest) =>
              let (c, rest) := unitChar unit rest
              takeQuoted opening fuel (c :: done) rest
      | '\\' :: c :: rest =>
          match simpleEscape? c with
          | some c => takeQuoted opening fuel (c :: done) rest
          | none => .error ⟨.escape, s⟩
      | c :: rest =>
          if c.toNat < 32 then .error ⟨.controlCharacter, s⟩
          else takeQuoted opening fuel (c :: done) rest

/-- A quoted text, from its opening quote on. -/
def takeText (s : List Char) : Except Fault (String × List Char) :=
  takeQuoted s (s.length + 1) [] s.tail

/-- Decimal digits of ASCII at the start of a text. -/
def takeAsciiDigits (s : List Char) : List Char × List Char :=
  (s.takeWhile Char.isDigit, s.dropWhile Char.isDigit)

/-- The digits before the point: a zero alone, or digits that do not begin with one. -/
def takeWhole : List Char → List Char × List Char
  | '0' :: s => (['0'], s)
  | s => takeAsciiDigits s

/-- The point and the digits after it, if there are any. -/
def takeFraction (s : List Char) : List Char × List Char :=
  match s with
  | '.' :: rest =>
      match takeAsciiDigits rest with
      | ([], _) => ([], s)
      | (ds, rest) => ('.' :: ds, rest)
  | s => ([], s)

/-- The exponent, if there is one. -/
def takePower (s : List Char) : List Char × List Char :=
  match s with
  | e :: rest =>
      if e == 'e' || e == 'E' then
        let (sign, rest) := match rest with
          | '-' :: rest => (['-'], rest)
          | '+' :: rest => (['+'], rest)
          | rest => ([], rest)
        match takeAsciiDigits rest with
        | ([], _) => ([], s)
        | (ds, rest) => (e :: sign ++ ds, rest)
      else ([], s)
  | [] => ([], s)

/-- A number at the start of a text. -/
def takeNumber? (s : List Char) : Option (Value × List Char) :=
  let (sign, digits) := match s with
    | '-' :: rest => (['-'], rest)
    | s => ([], s)
  match takeWhole digits with
  | ([], _) => none
  | (whole, rest) =>
      let (fraction, rest) := takeFraction rest
      let (power, rest) := takePower rest
      if fraction.isEmpty && power.isEmpty then
        let n : Int := Decimal.ofDigits (whole.map fun c => c.toNat - 48)
        some (.int (if sign.isEmpty then n else -n), rest)
      else (Decimal.read? (sign ++ whole ++ fraction ++ power)).map fun x => (.float x, rest)

/-- Words that stand for a value. -/
def words : List (String × Value) := [
  ("null", .null), ("true", .bool true), ("false", .bool false), ("NaN", .float (0 / 0)),
  ("Infinity", .float (1 / 0)), ("-Infinity", .float (-1 / 0))]

/-- A word at the start of a text. -/
def takeWord? (s : List Char) : Option (Value × List Char) :=
  words.findSome? fun (word, v) =>
    if word.toList.isPrefixOf s then some (v, s.drop word.length) else none

/-- Fields with those removed that come again; a field stands where its name came first and has
the value that came last. -/
def lastFields (fields : List (String × Value)) : List (String × Value) :=
  fields.foldl (fun done (key, v) => (Value.set (.record done) key v).fields) []

/-! ## Values -/

mutual

/-- A value at the start of a text. -/
def takeValue : Nat → List Char → Except Fault (Value × List Char)
  | 0, s => .error ⟨.value, s⟩
  | fuel + 1, s =>
      match s with
      | '"' :: _ => (takeText s).map fun (t, rest) => (.text t, rest)
      | '\x7b' :: rest =>
          match skipDataBlanks rest with
          | '\x7d' :: rest => .ok (.record [], rest)
          | rest =>
              (takeFields fuel rest).map fun (fields, rest) => (.record (lastFields fields), rest)
      | '[' :: rest =>
          match skipDataBlanks rest with
          | ']' :: rest => .ok (.list [], rest)
          | rest => (takeItems fuel rest).map fun (items, rest) => (.list items, rest)
      | s =>
          match takeWord? s with
          | some found => .ok found
          | none =>
              match takeNumber? s with
              | some found => .ok found
              | none => .error ⟨.value, s⟩

/-- The items of a list, to its end. -/
def takeItems : Nat → List Char → Except Fault (List Value × List Char)
  | 0, s => .error ⟨.value, s⟩
  | fuel + 1, s =>
      match takeValue fuel s with
      | .error f => .error f
      | .ok (v, rest) =>
          match skipDataBlanks rest with
          | ']' :: rest => .ok ([v], rest)
          | ',' :: rest =>
              (takeItems fuel (skipDataBlanks rest)).map fun (vs, rest) => (v :: vs, rest)
          | rest => .error ⟨.comma, rest⟩

/-- The fields of a record, to its end. -/
def takeFields : Nat → List Char → Except Fault (List (String × Value) × List Char)
  | 0, s => .error ⟨.value, s⟩
  | fuel + 1, s =>
      match s with
      | '"' :: _ =>
          match takeText s with
          | .error f => .error f
          | .ok (key, rest) =>
              match skipDataBlanks rest with
              | ':' :: rest =>
                  match takeValue fuel (skipDataBlanks rest) with
                  | .error f => .error f
                  | .ok (v, rest) =>
                      match skipDataBlanks rest with
                      | '\x7d' :: rest => .ok ([(key, v)], rest)
                      | ',' :: rest =>
                          (takeFields fuel (skipDataBlanks rest)).map fun (fields, rest) =>
                            ((key, v) :: fields, rest)
                      | rest => .error ⟨.comma, rest⟩
              | rest => .error ⟨.colon, rest⟩
      | s => .error ⟨.fieldName, s⟩

end

/-- The value in a text. Every second step takes a character at least, so the length of the text
bounds the depth. -/
def read (s : List Char) : Except Fault Value :=
  if s.head? == some (Char.ofNat 0xFEFF) then .error ⟨.byteOrderMark, s⟩
  else
    match takeValue (2 * s.length + 2) (skipDataBlanks s) with
    | .error f => .error f
    | .ok (v, rest) =>
        match skipDataBlanks rest with
        | [] => .ok v
        | rest => .error ⟨.extraData, rest⟩

end Pcode.Data
