import Pcode.Indent.Line

set_option autoImplicit false

/-! # The layout of a document

A document is laid out line by line. Blank lines are dropped at the start and at the end, and
runs of them become one; a style that separates blocks puts an empty line before each opening
line and after each closing one.

`layText` takes a source text and gives the text laid out. `layFile` takes the lines of a
file, each with its `\n`, and gives the lines to print. -/

namespace Pcode.Indent

open Pcode.Text

/-- A part of a list from `lo` up to `hi`, counted from zero; a negative bound counts from
the end, a missing one is the end, and bounds outside the list are its ends. -/
def slice {α : Type} (lo : Int) (hi : Option Int) (xs : List α) : List α :=
  let place (i : Int) : Nat :=
    if i < 0 then (i + xs.length).toNat else min i.toNat xs.length
  let first := place lo
  let last := match hi with
    | some i => place i
    | none => xs.length
  (xs.drop first).take (last - first)

/-- The lines from `start` to `stop`, counted from one. -/
def selection {α : Type} (start : Int) (stop : Option Int) (xs : List α) : List α :=
  slice (start - 1) stop xs

namespace State

/-- Lay out lines; `blank` says that an empty line has just been written, or nothing yet. -/
def layLines (style : Style) (st : State) (blank : Bool) :
    List (List Char) → State × Except Error (List (List Char))
  | [] => (st, .ok [])
  | line :: rest =>
      if line.all isBlank then
        let (st', result) := st.layLines style true rest
        (st', result.map fun out => if blank then out else [] :: out)
      else
        match st.layLine style line with
        | (st, .error e) => (st, .error e)
        | (st, .ok l) =>
            let st := st.shift l.offset
            let gapBefore := style.separate && 0 < l.offset && !blank && st.commentRun == 0
            let gapAfter := style.separate && l.offset < 0
            let (st', result) := st.layLines style gapAfter rest
            (st', result.map fun out =>
              (if gapBefore then [[]] else []) ++ trimEnd l.text ::
                ((if gapAfter then [[]] else []) ++ out))

/-- Start a document: the blanks before its first line give the level. -/
def enter (style : Style) (st : State) (first : List Char) : Except Error State :=
  if style.width = 0 then .error .levelOfZeroWidth
  else .ok { st with level := Int.fdiv (first.takeWhile isBlank).length style.width }

/-- Lay out a document given by its first line and the others, and drop the empty lines at
its end. -/
def layDocument (style : Style) (st : State) (first : List Char) (rest : List (List Char)) :
    State × Except Error (List (List Char)) :=
  match st.enter style first with
  | .error e => (st, .error e)
  | .ok st =>
      let (st, result) := st.layLines style true (firstLine (skipBlanks first) :: rest)
      (st, result.map fun out => (out.reverse.dropWhile List.isEmpty).reverse)

/-- Lay out the lines from `start` to `stop` of a source text. -/
def layText (style : Style) (st : State) (source : List Char) (start : Int) (stop : Option Int) :
    State × Except Error (List Char) :=
  match selection start stop (splitLines source) with
  | [] => (st, .ok [])
  | first :: rest =>
      let (st, result) := st.layDocument style first rest
      (st, result.map fun out => ['\n'].intercalate out)

/-- Lay out the lines from `start` to `stop` of a file, each with its `\n`. A file without
such lines has one empty line. -/
def layFile (style : Style) (st : State) (lines : List (List Char)) (start : Int)
    (stop : Option Int) : State × Except Error (List (List Char)) :=
  let (st, result) :=
    match selection start stop lines with
    | [] => st.layDocument style [] []
    | first :: rest => st.layDocument style first rest
  (st, result.map fun out => if out.isEmpty then [[]] else out)

end State

end Pcode.Indent
