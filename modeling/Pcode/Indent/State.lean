import Pcode.Indent.Statement
import Pcode.Spacing.Tree

set_option autoImplicit false

/-! # The state of the indentation

What the layout of a line depends on besides the line: the level, the open blocks, whether a
bracket is open, and whether the line stands in a comment or continues another one. -/

namespace Pcode.Indent

open Pcode.Text

/-- The open blocks, the innermost first, each with the number of levels it indents: control
blocks and functions are kept apart. -/
structure Blocks where
  control : List Int := []
  functions : List Int := []
deriving Repr, DecidableEq

/-- Where a line stands with respect to block comments. -/
inductive BlockComment where
  /-- outside every block comment -/
  | outside
  /-- on the line that closes one -/
  | closing
  /-- inside one -/
  | inside
deriving Repr, DecidableEq

/-- The state between two lines. -/
structure State where
  /-- the current level of indentation -/
  level : Int := 0
  /-- levels added inside an open matrix, `0` if none is open -/
  matrix : Int := 0
  /-- levels added inside an open cell array, `0` if none is open -/
  cell : Int := 0
  blockComment : BlockComment := .outside
  /-- `2` on a comment line, `1` on the line after it, else `0` -/
  commentRun : Nat := 0
  /-- the line ends in three dots -/
  longLine : Bool := false
  /-- the line continues the one before it -/
  continued : Bool := false
  /-- a comment has been met in the line -/
  sawComment : Bool := false
  blocks : Blocks := {}
  /-- how many closing words had no block to close -/
  excessEnds : Nat := 0
deriving Repr, DecidableEq

/-- What kind of setting stands where a number is needed. -/
inductive NonNumber where
  | text
  | missing
deriving Repr, DecidableEq

/-- How many levels the body of a function is indented. -/
inductive FunctionIndent where
  /-- the same number for every function -/
  | fixed (levels : Int)
  /-- one level for a function inside another, none for the others -/
  | nestedOnly
  /-- not a number, which is noticed at the first function -/
  | invalid (kind : NonNumber)
deriving Repr, DecidableEq

/-- The mode `-1` indents nested functions only; any other number is itself. -/
def FunctionIndent.ofInt (n : Int) : FunctionIndent :=
  if n = -1 then .nestedOnly else .fixed n

/-- The choices of a layout. -/
structure Style where
  /-- blanks per level -/
  width : Int := 4
  /-- whether an empty line is put before and after blocks -/
  separate : Bool := true
  functions : FunctionIndent := .fixed 1
deriving Repr, DecidableEq

/-- Why a line cannot be laid out. -/
inductive Error where
  /-- the level of the first line is asked for with no blanks per level -/
  | levelOfZeroWidth
  /-- the column of an open bracket is asked for with no blanks per level -/
  | columnOfZeroWidth
  /-- an opening bracket is counted but is not on the first line of the text -/
  | noColumn
  /-- the body of a function is to be indented by something that is not a number -/
  | functionIndent (kind : NonNumber)
deriving Repr, DecidableEq

/-- How a kind of setting is named in messages. -/
def NonNumber.name : NonNumber → String
  | .text => "str"
  | .missing => "NoneType"

def Error.message : Error → String
  | .levelOfZeroWidth => "integer division or modulo by zero"
  | .columnOfZeroWidth => "float floor division by zero"
  | .noColumn => "'NoneType' object has no attribute 'group'"
  | .functionIndent kind =>
      "unsupported operand type(s) for +: 'int' and '" ++ kind.name ++ "'"

/-- The warning for a closing word without a block. -/
def excessEndWarning : String := "There are more end-statements than blocks!\n"

/-- The warnings for some closing words without a block. -/
def warnings (n : Nat) : String := String.join (List.replicate n excessEndWarning)

namespace State

/-- The blanks that begin a line, `add` levels deeper than the current one. Their number has no
bound; a text in memory has fewer than `2 ^ 63` characters, so for a width beyond that only a level
of zero or less can be written. -/
def indent (width : Int) (st : State) (add : Int) : List Char :=
  List.replicate ((st.level + (if st.continued then 1 else 0) + add) * width).toNat ' '

/-- Note a comment met while `t` was cut. -/
def noteTree (st : State) (t : Pcode.Spacing.Tree) : State :=
  if t.hasComment then { st with sawComment := true } else st

/-- The text with its spacing in order and no blanks around it, and the state after a
comment met in it has been noted. -/
def space (st : State) (s : List Char) : State × List Char :=
  let t := Pcode.Spacing.spacing.tree s
  (st.noteTree t, trim t.text)

/-- The code of a text, and the state after a comment met in it has been noted. -/
def code (st : State) (s : List Char) : State × List Char :=
  let t := Pcode.Spacing.quoting.tree s
  (st.noteTree t, t.leaves)

end State

end Pcode.Indent
