set_option autoImplicit false

/-! # Lines of a text

Two notions of line are in use. A *source text* is divided at every line boundary of the
Unicode standard (`splitLines`), and the boundaries are dropped. A *text file* is divided at
`\n` only, after `\r\n` and `\r` have been read as `\n` (`universal`), and each line keeps its
`\n` (`fileLines`). -/

namespace Pcode.Text

/-- The text before the first `\n`. -/
def firstLine (s : List Char) : List Char := s.takeWhile (· != '\n')

/-- Whether a text is one line, with or without its final `\n`. -/
def isOneLine (s : List Char) : Bool :=
  match s.dropWhile (· != '\n') with
  | [] | ['\n'] => true
  | _ => false

theorem firstLine_sublist (s : List Char) : (firstLine s).Sublist s :=
  List.takeWhile_sublist _

/-- Characters that end a line of a source text. -/
def isLineBreak (c : Char) : Bool :=
  let n := c.toNat
  (10 ≤ n && n ≤ 13) || (28 ≤ n && n ≤ 30) || n == 0x85 || n == 0x2028 || n == 0x2029

/-- The lines of a source text; `line` holds the characters of the current line, the last
one first. `\r\n` is one boundary, and a boundary at the end starts no further line. -/
def splitLinesFrom (line : List Char) : List Char → List (List Char)
  | [] => if line.isEmpty then [] else [line.reverse]
  | '\r' :: '\n' :: s => line.reverse :: splitLinesFrom [] s
  | c :: s =>
      if isLineBreak c then line.reverse :: splitLinesFrom [] s
      else splitLinesFrom (c :: line) s

/-- The lines of a source text, without their boundaries. -/
def splitLines (s : List Char) : List (List Char) := splitLinesFrom [] s

/-- A text with every `\r\n` and `\r` replaced by `\n`. -/
def universal : List Char → List Char
  | [] => []
  | '\r' :: '\n' :: s => '\n' :: universal s
  | c :: s => (if c == '\r' then '\n' else c) :: universal s

/-- The lines of a text that ends lines with `\n`, each with its `\n`; `line` holds the
characters of the current line, the last one first. -/
def fileLinesFrom (line : List Char) : List Char → List (List Char)
  | [] => if line.isEmpty then [] else [line.reverse]
  | c :: s =>
      if c == '\n' then (c :: line).reverse :: fileLinesFrom [] s
      else fileLinesFrom (c :: line) s

/-- The lines of a text that ends lines with `\n`, each with its `\n`. -/
def fileLines (s : List Char) : List (List Char) := fileLinesFrom [] s

end Pcode.Text
