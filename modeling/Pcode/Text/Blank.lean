set_option autoImplicit false

/-! # Blank characters

White space in the sense of the Unicode standard, the four information separators
`U+001C … U+001F` included. Blanks are what the formatter may add, drop or move; every other
character is kept. -/

namespace Pcode.Text

/-- The white space characters. -/
def isBlank (c : Char) : Bool :=
  let n := c.toNat
  (9 ≤ n && n ≤ 13) || (28 ≤ n && n ≤ 32) || n == 0x85 || n == 0xA0 || n == 0x1680 ||
    (0x2000 ≤ n && n ≤ 0x200A) || n == 0x2028 || n == 0x2029 || n == 0x202F || n == 0x205F ||
    n == 0x3000

/-- What is left of a text after its leading blanks. -/
def skipBlanks (s : List Char) : List Char := s.dropWhile isBlank

/-- A text without its trailing blanks. -/
def trimEnd (s : List Char) : List Char := (skipBlanks s.reverse).reverse

/-- A text without its leading and trailing blanks. -/
def trim (s : List Char) : List Char := trimEnd (skipBlanks s)

/-- The number of characters that are not blank. -/
def inkCount (s : List Char) : Nat := s.countP (fun c => !isBlank c)

@[simp] theorem inkCount_nil : inkCount [] = 0 := rfl

@[simp] theorem inkCount_append (s t : List Char) : inkCount (s ++ t) = inkCount s + inkCount t :=
  List.countP_append

@[simp] theorem inkCount_space_cons (s : List Char) : inkCount (' ' :: s) = inkCount s := rfl

theorem inkCount_cons_of_ink {c : Char} (h : isBlank c = false) (s : List Char) :
    inkCount (c :: s) = inkCount s + 1 := by
  simp [inkCount, h]

theorem inkCount_le_of_sublist {s t : List Char} (h : s.Sublist t) : inkCount s ≤ inkCount t :=
  h.countP_le

theorem skipBlanks_sublist (s : List Char) : (skipBlanks s).Sublist s :=
  List.dropWhile_sublist isBlank

/-- Dropping leading blanks loses no other character. -/
@[simp] theorem inkCount_skipBlanks (s : List Char) : inkCount (skipBlanks s) = inkCount s := by
  induction s with
  | nil => rfl
  | cons a t ih =>
      by_cases ha : isBlank a = true
      · simp only [skipBlanks, inkCount, List.dropWhile_cons, ha] at ih ⊢
        simpa [ha] using ih
      · simp [skipBlanks, ha]

/-- The first character after the leading blanks is not blank. -/
theorem isBlank_of_skipBlanks_eq_cons {s r : List Char} {c : Char} (h : skipBlanks s = c :: r) :
    isBlank c = false := by
  induction s with
  | nil => simp [skipBlanks] at h
  | cons a t ih =>
      by_cases ha : isBlank a = true
      · exact ih (by simpa [skipBlanks, ha] using h)
      · have hac : a = c := by
          have := h
          simp only [skipBlanks, List.dropWhile_cons, ha] at this
          simp at this
          exact this.1
        rw [← hac]
        simpa using ha

end Pcode.Text
