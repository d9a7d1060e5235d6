import Pcode.Spacing.Probe

set_option autoImplicit false

/-! # Statements

What a line is for the indentation: a line that opens, continues or closes a block, a block
that stands on one line, or plain code. A keyword counts only as the first word of a line,
and only if something other than a word character follows it. -/

namespace Pcode.Indent

open Pcode.Text
open Pcode.Spacing (lastSplit isBreak)

/-- What follows the word `w` at the start of a text. -/
def after? : List Char → List Char → Option (List Char)
  | [], s => some s
  | c :: w, d :: s => if c = d then after? w s else none
  | _ :: _, [] => none

/-- The first of the words that stands at the start of a text with an admissible tail. -/
def word? {β : Type} (words : List String) (tail? : List Char → Option β) (s : List Char) :
    Option (List Char × β) :=
  words.findSome? fun w =>
    (after? w.toList s).bind fun r => (tail? r).map fun t => (w.toList, t)

/-! ## Keywords -/

def functionWords : List String := ["function", "classdef"]

def blockWords : List String :=
  ["if", "while", "for", "parfor", "try", "methods", "properties", "events", "arguments",
    "enumeration"]

def switchWords : List String := ["switch"]

def continuationWords : List String := ["elseif", "else", "case", "otherwise", "catch"]

def endWords : List String :=
  ["end", "endfunction", "endif", "endwhile", "endfor", "endswitch"]

/-- Words that open a block which may be closed on the same line. -/
def shortBlockWords : List String := ["if", "while", "for", "try"]

/-- Words that may close a block on the line that opens it. -/
def shortEndWords : List String := ["end", "endif", "endwhile", "endfor"]

/-- Commands whose arguments are words, not expressions. -/
def commandWords : List String := ["import", "clear", "clearvars"]

/-! ## Tails -/

/-- The rest of a line after a keyword that takes an expression: nothing, or text that does
not continue the keyword. A blank before the text is kept where the text needs it to be told
from the keyword. -/
def expressionTail? (s : List Char) : Option (List Char) :=
  match s.dropWhile isBlank with
  | [] => some []
  | c :: t =>
      if !isWord c && !t.all isBlank then
        some (c :: (t.takeWhile isBlank ++ firstLine (t.dropWhile isBlank)))
      else
        match (s.takeWhile isBlank).getLast? with
        | some b => some (b :: c :: firstLine t)
        | none => none

/-- The rest of a line after the word that closes a block: blanks, then perhaps text. -/
def closingTail? (s : List Char) : Option (List Char) :=
  match s.dropWhile isBlank with
  | [] => some s
  | c :: t =>
      if (s.takeWhile isBlank).isEmpty then none
      else some (s.takeWhile isBlank ++ firstLine (c :: t))

/-- A closing word with the semicolon that may follow it, and the rest of the line. -/
def closing? (words : List String) (s : List Char) : Option (List Char × List Char) :=
  words.findSome? fun w =>
    (after? w.toList s).bind fun r =>
      match r with
      | ';' :: t => (closingTail? t).map fun u => (w.toList ++ [';'], u)
      | _ => (closingTail? r).map fun u => (w.toList, u)

/-! ## Classification -/

/-- What a line is. The text of a keyword is kept as it stands. -/
inductive Statement where
  | short (keyword body close tail : List Char)
  | functionStart (keyword tail : List Char)
  | blockStart (keyword tail : List Char)
  | switchStart (keyword tail : List Char)
  | continuation (keyword tail : List Char)
  | blockEnd (close tail : List Char)
  | plain
deriving Repr, DecidableEq

/-- A block opened and closed on one line: after the keyword a character that is no word
character, text, and after the last such character a closing word. -/
def shortBody? (s : List Char) : Option (List Char × List Char × List Char) :=
  match s with
  | [] => none
  | b :: t =>
      if isWord b then none
      else
        match t.dropWhile isBlank with
        | [] => none
        | c :: u =>
            (lastSplit isBreak (closing? shortEndWords) u).map fun q =>
              (b :: (t.takeWhile isBlank ++ c :: q.1), q.2.1, q.2.2)

/-- The statement on a line. -/
def Statement.ofLine (line : List Char) : Statement :=
  let s := skipBlanks line
  match word? shortBlockWords shortBody? s with
  | some (w, body, close, tail) => .short w body close tail
  | none =>
  match word? functionWords expressionTail? s with
  | some (w, tail) => .functionStart w tail
  | none =>
  match word? blockWords expressionTail? s with
  | some (w, tail) => .blockStart w tail
  | none =>
  match word? switchWords expressionTail? s with
  | some (w, tail) => .switchStart w tail
  | none =>
  match word? continuationWords expressionTail? s with
  | some (w, tail) => .continuation w tail
  | none =>
  match closing? endWords s with
  | some (close, tail) => .blockEnd close tail
  | none => .plain

/-! ## Lines that are left as they are -/

/-- A line that holds only a comment. -/
def isCommentLine (line : List Char) : Bool :=
  match skipBlanks line with
  | '%' :: s => isOneLine s
  | _ => false

/-- A line that opens a block comment: `%{` alone. -/
def opensComment (line : List Char) : Bool :=
  match skipBlanks line with
  | '%' :: '{' :: s => s.all isBlank
  | _ => false

/-- A line that closes a block comment: `%}` alone. -/
def closesComment (line : List Char) : Bool :=
  match skipBlanks line with
  | '%' :: '}' :: s => s.all isBlank
  | _ => false

/-- A line with a command whose arguments are words. -/
def isCommandLine (line : List Char) : Bool :=
  (word? commandWords (fun r => if isOneLine r then some () else none) (skipBlanks line)).isSome

/-! ## Continuation -/

/-- Whether three dots in a row occur. -/
def hasDots : List Char → Bool
  | '.' :: '.' :: '.' :: _ => true
  | _ :: s => hasDots s
  | [] => false

/-- Whether the code of a line is continued on the next one. -/
def isContinued (code : List Char) : Bool :=
  hasDots (firstLine code) && isOneLine code

/-- Whether the code of a line begins with a closing bracket. -/
def startsClosing (code : List Char) : Bool :=
  match skipBlanks code with
  | c :: s => Pcode.Spacing.isClosing c && isOneLine s
  | [] => false

end Pcode.Indent
