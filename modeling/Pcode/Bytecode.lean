set_option autoImplicit false

/-! # Byte code

The code of a container is a sequence of items. A byte below 128 stands for a token of
the language, written as in a fixed table. A byte from 128 on begins a reference of two bytes
to a name; a blank is put after a name if another name or a keyword follows, so that the two
stay apart.

References to the first 32640 names are written by `encode`. A first byte of 128 also writes
numbers below zero, which count from the end of the names. -/

namespace Pcode.Bytecode

/-- The text of each token. -/
def tokenTable : Array String := #[
  "", "function ", "function ", "if ", "switch", "try", "while", "for ", "end", "else ",
  "elseif ", "break", "return ", "parfor", "", "global ", "persistent ", "", "", "", "catch ",
  "continue ", "case ", "otherwise", "", "classdef ", "", "", "properties ", "", "methods ",
  "events ", "enumeration ", "spmd ", "parsection ", "section ", "", "", "", "", "id ", "end",
  "int ", "float ", "string ", "dual ", "bang ", "?", "", "", "; ", ",", "(", ")", "[", "]",
  "\x7b", "\x7d", "feend ", "", "' ", ".'", "~", "@", "$", "`", "\"", "", "", "", "+", "-", "*",
  "/", "\\", "^", ":", "", "", "", ".", ".*", "./", ".\\", ".^", "&", "|", "&&", "||", "<", ">",
  "<=", ">=", "==", "~=", "=", "cne ", "arrow ", "", "", "\n", "\n ", "\n ", "...\n    ", "",
  "comment ", "blkstart ", "blkcom ", "blkend ", "cpad ", "pragma ", "...", "..", "deep_nest ",
  "deep_stmt ", "", "white ", "", "negerr ", "semerr ", "eolerr ", "unterm ", "badchar ",
  "deep_paren ", "fp_err ", "res_err ", "deep_com ", "begin_type ", "end_type ",
  "string_literal ", "unterm_string_literal ", "arguments_block ", "last_token ", ""]

/-- Tokens that begin with a word, or count as if they did. -/
def keywordTokens : List Nat := [
  1, 2, 3, 4, 5, 6, 7, 8, 9, 10, 11, 12, 13, 15, 16, 20, 21, 22, 23, 24, 25, 28, 30, 31, 32, 33,
  34, 35, 39, 40, 41, 42, 43, 44, 57, 103, 104]

/-- One item of the code. -/
inductive Item where
  /-- a token of the language -/
  | token (number : UInt8)
  /-- a reference to a name -/
  | name (number : Nat)
deriving Repr, DecidableEq

/-- The two bytes of a reference. The first byte of the first 128 is the mark alone; from there on
it also counts the steps of 256. -/
def encodeName (number : Nat) : List UInt8 :=
  if number < 128 then [128, UInt8.ofNat (number + 128)]
  else [UInt8.ofNat (128 + ((number - 128) / 256 + 1) % 128), UInt8.ofNat (number - 128)]

/-- The bytes of an item. -/
def Item.encode : Item → List UInt8
  | .token number => [number]
  | .name number => encodeName number

/-- The bytes of a sequence of items. -/
def encode (items : List Item) : List UInt8 := items.flatMap Item.encode

/-- The number that the two bytes of a reference write. -/
def nameNumber (high low : UInt8) : Int :=
  128 + 256 * ((high.toNat % 128 : Nat) - 1) + (low.toNat : Nat)

/-- Whether a byte begins a reference. -/
def isReference (b : UInt8) : Bool := 128 ≤ b.toNat

/-- Whether a name needs a blank before what follows it. -/
def needsBlank : List UInt8 → Bool
  | [] => false
  | b :: _ => isReference b || keywordTokens.contains b.toNat

/-- Why code cannot be decoded. -/
inductive Error where
  /-- the code ends inside a reference -/
  | cutOff
  /-- a number below zero reaches back beyond the first name -/
  | beforeFirst
  /-- a number is beyond the last name -/
  | beyondLast
deriving Repr, DecidableEq

/-- The name with the given number; numbers below zero count from the end. -/
def lookup (names : List (List Char)) (number : Int) : Except Error (List Char) :=
  if names.length ≤ number then .error .beyondLast
  else
    let i := if number < 0 then number + names.length else number
    if i < 0 then .error .beforeFirst
    else
      match names[i.toNat]? with
      | some name => .ok name
      | none => .error .beyondLast

/-- The pieces of text that some code stands for. -/
def decode (names : List (List Char)) : List UInt8 → Except Error (List (List Char))
  | [] => .ok []
  | b :: rest =>
      if isReference b then
        match rest with
        | [] => .error .cutOff
        | low :: rest =>
            match lookup names (nameNumber b low) with
            | .error e => .error e
            | .ok name =>
                (decode names rest).map fun parts =>
                  name :: (if needsBlank rest then [' '] :: parts else parts)
      else
        let text := (tokenTable.getD b.toNat "").toList
        (decode names rest).map fun parts => if text.isEmpty then parts else text :: parts

end Pcode.Bytecode
