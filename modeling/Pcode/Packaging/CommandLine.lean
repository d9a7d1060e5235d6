set_option autoImplicit false

/-! # Command lines

A list of words is written as one line that is read back word by word: a word with a blank, or
without any character, is put in double quotes. A double quote in a word gets a backslash, and
backslashes before a double quote are doubled, also before the closing one. -/

namespace Pcode.Packaging

/-- A number of backslashes. -/
def backslashes (n : Nat) : List Char := List.replicate n '\\'

/-- The characters of a word, after `pending` backslashes that are not written yet; `quoted`
says whether a double quote follows the word. -/
def escapeWord (quoted : Bool) (pending : Nat) : List Char → List Char
  | [] => backslashes (if quoted then 2 * pending else pending)
  | '\\' :: s => escapeWord quoted (pending + 1) s
  | '"' :: s => backslashes (2 * pending) ++ '\\' :: '"' :: escapeWord quoted 0 s
  | c :: s => backslashes pending ++ c :: escapeWord quoted 0 s

/-- A word as it stands in a command line. -/
def quoteWord (word : String) : String :=
  let cs := word.toList
  if cs.isEmpty || cs.contains ' ' || cs.contains '\t' then
    String.ofList ('"' :: escapeWord true 0 cs ++ ['"'])
  else String.ofList (escapeWord false 0 cs)

/-- The line of a list of words. -/
def commandLine (words : List String) : String := " ".intercalate (words.map quoteWord)

end Pcode.Packaging
