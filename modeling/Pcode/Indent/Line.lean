import Pcode.Indent.State

set_option autoImplicit false

/-! # The layout of a line

`State.layLine` gives a line its indentation and spacing and says by how many levels the
lines after it are shifted. Comments, commands and lines inside brackets are recognised
before statements, so keywords in them open no blocks. -/

namespace Pcode.Indent

open Pcode.Text

/-- A line laid out: its text, and the change of level after it. -/
structure Line where
  offset : Int
  text : List Char
deriving Repr, DecidableEq

/-! ## Brackets -/

/-- How many more opening than closing brackets a text has. -/
def balance (opening closing : Char) (s : List Char) : Int :=
  (s.count opening : Int) - (s.count closing : Int)

/-- The text before the last occurrence of a character. -/
def beforeLast? (x : Char) : List Char → Option (List Char)
  | [] => none
  | c :: s =>
      match beforeLast? x s with
      | some t => some (c :: t)
      | none => if c = x then some [] else none

/-- The column of the last opening bracket, counted from the first character that is not
blank; `none` if that character's line has no such bracket or is not the last one. -/
def column? (opening : Char) (code : List Char) : Option Nat :=
  let s := skipBlanks code
  if isOneLine s then (beforeLast? opening (firstLine s)).map List.length else none

/-- The levels that reach a column: the nearest whole number, but at least one. A half is
rounded down. The quotient is exact. In double precision the levels are the same for every width
that a double can hold, which is any below about `2 ^ 1024`; beyond it the quotient overflows. -/
def levelsTo (width : Int) (column : Nat) : Int :=
  max 1 (Int.fdiv (2 * (column : Int) - width) (2 * width))

/-- The change of one bracket's nesting in a line, and the levels its next lines are
indented by: unchanged if the brackets are balanced. -/
def trackBracket (opening closing : Char) (width : Int) (levels : Int) (code : List Char) :
    Except Error (Int × Int) :=
  let change := balance opening closing code
  if 0 < change then
    match column? opening code with
    | none => .error .noColumn
    | some column =>
        if width = 0 then .error .columnOfZeroWidth
        else .ok (change, levelsTo width column)
  else if change < 0 then .ok (change, 0)
  else .ok (change, levels)

namespace State

/-- Follow the square brackets of a line. -/
def trackMatrix (width : Int) (st : State) (line : List Char) : State × Except Error Int :=
  let (st, code) := st.code line
  match trackBracket '[' ']' width st.matrix code with
  | .ok (change, levels) => ({ st with matrix := levels }, .ok change)
  | .error e => (st, .error e)

/-- Follow the curly brackets of a line. -/
def trackCell (width : Int) (st : State) (line : List Char) : State × Except Error Int :=
  let (st, code) := st.code line
  match trackBracket '{' '}' width st.cell code with
  | .ok (change, levels) => ({ st with cell := levels }, .ok change)
  | .error e => (st, .error e)

/-! ## Comments and continuation -/

/-- Follow comment lines and block comments. -/
def trackComments (st : State) (line : List Char) : State :=
  { st with
    commentRun := if isCommentLine line then 2 else st.commentRun - 1
    blockComment :=
      if opensComment line then .inside
      else if closesComment line then .closing
      else
        match st.blockComment with
        | .inside => .inside
        | _ => .outside }

/-- Whether the line is or follows a comment line, or stands in a block comment. -/
def nearComment (st : State) : Bool :=
  st.commentRun != 0 || st.blockComment != .outside

/-- Follow continued lines: a line continues the one before it unless it begins with a
closing bracket or stands near a comment. -/
def trackContinuation (st : State) (line : List Char) : State :=
  let (st, code) := { st with sawComment := false }.code line
  { st with
    continued := if startsClosing code || st.nearComment then false else st.longLine
    longLine := isContinued code && !st.nearComment }

/-! ## Blocks -/

/-- Close the innermost control block or, without one, the innermost function; the result is
the number of levels it indented. -/
def closeBlock (st : State) : State × Int :=
  match st.blocks.control with
  | step :: rest => ({ st with blocks := { st.blocks with control := rest } }, step)
  | [] =>
      match st.blocks.functions with
      | step :: rest => ({ st with blocks := { st.blocks with functions := rest } }, step)
      | [] => ({ st with excessEnds := st.excessEnds + 1 }, 0)

/-- Open a control block. -/
def openControl (st : State) (step : Int) : State :=
  { st with blocks := { st.blocks with control := step :: st.blocks.control } }

/-- Open a function. -/
def openFunction (st : State) : State :=
  { st with blocks := { st.blocks with functions := 1 :: st.blocks.functions } }

/-! ## Lines -/

/-- The line with its spacing in order, `add` levels deeper than the current one. -/
def spaced (width : Int) (st : State) (add : Int) (line : List Char) : State × Line :=
  let (st', text) := st.space line
  (st', ⟨0, st.indent width add ++ text⟩)

/-- A keyword, a blank and the expression after it. -/
def keywordLine (width : Int) (st : State) (offset add : Int) (keyword tail : List Char) :
    State × Line :=
  let (st', text) := st.space tail
  (st', ⟨offset, st.indent width add ++ keyword ++ ' ' :: text⟩)

/-- The change of level after the head of a function that has just been opened. -/
def functionOffset (style : Style) (st : State) : Except Error Int :=
  match style.functions with
  | .fixed levels => .ok levels
  | .nestedOnly => .ok (if 1 < st.blocks.functions.length then 1 else 0)
  | .invalid kind => .error (.functionIndent kind)

/-- Lay out a line of code that stands in no bracket. -/
def layStatement (style : Style) (st : State) (line : List Char) : State × Except Error Line :=
  match Statement.ofLine line with
  | .short keyword body close tail =>
      let (st₁, bodyText) := st.space body
      let (st₂, tailText) := st₁.space tail
      (st₂, .ok ⟨0, st.indent style.width 0 ++ keyword ++ ' ' :: bodyText ++ ' ' :: close ++
        ' ' :: tailText⟩)
  | .functionStart keyword tail =>
      let st := st.openFunction
      match st.functionOffset style with
      | .ok offset =>
          let (st, l) := st.keywordLine style.width offset 0 keyword tail
          (st, .ok l)
      | .error e => (st, .error e)
  | .blockStart keyword tail =>
      let (st, l) := (st.openControl 1).keywordLine style.width 1 0 keyword tail
      (st, .ok l)
  | .switchStart keyword tail =>
      let (st, l) := (st.openControl 2).keywordLine style.width 2 0 keyword tail
      (st, .ok l)
  | .continuation keyword tail =>
      let (st, l) := st.keywordLine style.width 0 (-1) keyword tail
      (st, .ok l)
  | .blockEnd close tail =>
      let (st, step) := st.closeBlock
      let (st, l) := st.keywordLine style.width (-step) (-step) close tail
      (st, .ok l)
  | .plain =>
      let (st, l) := st.spaced style.width 0 line
      (st, .ok l)

/-- Lay out a line of code: inside brackets it is indented by their column, else as the
statement it is. -/
def layCode (style : Style) (st : State) (line : List Char) : State × Except Error Line :=
  let inMatrix := st.matrix
  match st.trackMatrix style.width line with
  | (st, .error e) => (st, .error e)
  | (st, .ok change) =>
    if change != 0 || inMatrix != 0 then
      let (st, l) := st.spaced style.width inMatrix line
      (st, .ok l)
    else
      let inCell := st.cell
      match st.trackCell style.width line with
      | (st, .error e) => (st, .error e)
      | (st, .ok change) =>
        if change != 0 || inCell != 0 then
          let (st, l) := st.spaced style.width inCell line
          (st, .ok l)
        else st.layStatement style line

/-- Lay out a line. -/
def layLine (style : Style) (st : State) (line : List Char) : State × Except Error Line :=
  let st := (st.trackComments line).trackContinuation line
  if st.blockComment != .outside then (st, .ok ⟨0, trimEnd line⟩)
  else if st.commentRun == 2 || isCommandLine line then
    (st, .ok ⟨0, st.indent style.width 0 ++ trim line⟩)
  else st.layCode style line

/-- The state after a line laid out with the given change of level; the level never falls
below zero. -/
def shift (st : State) (offset : Int) : State :=
  { st with level := max 0 (st.level + offset) }

end State

end Pcode.Indent
