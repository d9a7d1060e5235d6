import Pcode.Indent.State
import Pcode.Text.Digit
import Pcode.Text.Quoted

set_option autoImplicit false

/-! # Settings

Settings are given as `name=value`. A value with a digit in it must be a whole number; the words
`none`, `true` and `false` stand for no value and for the truth values, which also count as
one and zero; anything else is text. -/

namespace Pcode.Indent

open Pcode.Text

/-- The value of a setting. -/
inductive Setting where
  | number (n : Int)
  | flag (b : Bool)
  | missing
  | text (s : String)
deriving Repr, DecidableEq

namespace Setting

/-- The number a setting stands for, or what it is instead. -/
def toInt : Setting → Except NonNumber Int
  | number n => .ok n
  | flag b => .ok (if b then 1 else 0)
  | missing => .error .missing
  | text _ => .error .text

/-- Whether a setting counts as true: numbers other than zero, and text that is not empty. -/
def isTrue : Setting → Bool
  | number n => n != 0
  | flag b => b
  | missing => false
  | text s => s != ""

end Setting

/-! ## Whole numbers -/

/-- Blanks that may surround a number. -/
def isNumberBlank (c : Char) : Bool :=
  (9 ≤ c.toNat && c.toNat ≤ 13) || c == ' ' || (128 ≤ c.toNat && isBlank c)

/-- The value of digits with single underscores between them, after `value`; `digit` says that
the character before was a digit. -/
def digitsValue? (value : Nat) (digit : Bool) : List Char → Option Nat
  | [] => if digit then some value else none
  | c :: s =>
      if isDecimal c then digitsValue? (value * 10 + decimalValue c) true s
      else if c == '_' && digit then digitsValue? value false s
      else none

/-- Read a whole number: blanks around it, a sign, digits of any script. -/
def readInt? (s : List Char) : Option Int :=
  let core := ((s.dropWhile isNumberBlank).reverse.dropWhile isNumberBlank).reverse
  match core with
  | '-' :: r => (digitsValue? 0 false r).map fun n => -(n : Int)
  | '+' :: r => (digitsValue? 0 false r).map fun n => (n : Int)
  | r => (digitsValue? 0 false r).map fun n => (n : Int)

/-- The most digits a number may have. -/
def maxDigits : Nat := 4300

/-! ## Arguments -/

/-- Why an argument is not a setting. -/
inductive ArgumentError where
  | noEquals
  | manyEquals
  | notANumber (value : String)
  | tooManyDigits (count : Nat)
deriving Repr, DecidableEq

def ArgumentError.message : ArgumentError → String
  | .noEquals => "not enough values to unpack (expected 2, got 1)"
  | .manyEquals => "too many values to unpack (expected 2)"
  | .notANumber value => "invalid literal for int() with base 10: " ++ quoted value
  | .tooManyDigits count =>
      "Exceeds the limit (4300 digits) for integer string conversion: value has " ++
        toString count ++ " digits; use sys.set_int_max_str_digits() to increase the limit"

/-- The value that a text stands for. -/
def Setting.ofText (s : List Char) : Except ArgumentError Setting :=
  if s.any isDigit then
    match readInt? s with
    | none => .error (.notANumber (String.ofList s))
    | some n =>
        let count := s.countP isDecimal
        if maxDigits < count then .error (.tooManyDigits count) else .ok (.number n)
  else
    match (String.ofList s).toLower with
    | "none" => .ok .missing
    | "true" => .ok (.flag true)
    | "false" => .ok (.flag false)
    | _ => .ok (.text (String.ofList s))

/-- A text without its pairs of dashes, found from left to right. -/
def dropDashes : List Char → List Char
  | '-' :: '-' :: s => dropDashes s
  | c :: s => c :: dropDashes s
  | [] => []

/-- The name and value of a setting. -/
def settingOf (arg : String) : Except ArgumentError (String × Setting) :=
  let cs := arg.toList
  match cs.dropWhile (· != '=') with
  | [] => .error .noEquals
  | _ :: value =>
      if value.contains '=' then .error .manyEquals
      else
        (Setting.ofText value).map fun v =>
          (String.ofList (dropDashes (trim (cs.takeWhile (· != '=')))), v)

/-- The settings that some arguments give; a later one replaces an earlier one. -/
def settingsOf : List String → Except ArgumentError (List (String × Setting))
  | [] => .ok []
  | arg :: args =>
      match settingOf arg with
      | .error e => .error e
      | .ok s => (settingsOf args).map (s :: ·)

/-- The value of a setting, or its default. -/
def settingIn (settings : List (String × Setting)) (name : String) (default : Setting) : Setting :=
  (settings.reverse.lookup name).getD default

end Pcode.Indent
