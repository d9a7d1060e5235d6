import Pcode.Proofs.Text.Respaced

set_option autoImplicit false

/-! # Lines and what is written on them

`codeLines` is what a list of lines says: the lines that are not blank, in order, each without
its blanks. Two lists of lines with the same `codeLines` differ in blanks and blank lines only.

Main statements: lines of a source text have no line break in them
(`breakFree_of_mem_splitLines`), and lines without line breaks, joined and divided again, are
the same but for empty lines (`inkedLines_splitLines_intercalate`). -/

namespace Pcode.Text

/-! ## Line breaks -/

/-- No character ends a line of a source text. -/
def BreakFree (s : List Char) : Prop := ∀ c ∈ s, isLineBreak c = false

/-- A character that ends a line is blank. -/
theorem isLineBreak_of_not_isBlank {c : Char} (h : isBlank c = false) : isLineBreak c = false := by
  cases hc : isLineBreak c with
  | false => rfl
  | true =>
      have hblank : isBlank c = true := by
        simp only [isLineBreak, isBlank, Bool.or_eq_true, Bool.and_eq_true, decide_eq_true_eq,
          beq_iff_eq] at hc ⊢
        omega
      rw [h] at hblank
      cases hblank

namespace BreakFree

variable {s t : List Char}

theorem newline_not_mem (h : BreakFree s) : '\n' ∉ s := fun hmem =>
  absurd (h '\n' hmem) (by decide)

theorem respaced (h : BreakFree s) (hst : Respaced s t) : BreakFree t := by
  intro c hc
  rcases hst.mem c hc with hmem | hspace
  · exact h c hmem
  · rw [hspace]
    decide

end BreakFree

theorem splitLinesFrom_cons {c : Char} (hc : isLineBreak c = false) (line s : List Char) :
    splitLinesFrom line (c :: s) = splitLinesFrom (c :: line) s := by
  have hcr : c ≠ '\r' := fun h => absurd hc (by rw [h]; decide)
  rw [splitLinesFrom]
  · rw [hc]
    rfl
  · exact fun _ h => absurd h hcr

theorem splitLinesFrom_newline (line s : List Char) :
    splitLinesFrom line ('\n' :: s) = line.reverse :: splitLinesFrom [] s := by
  have hbreak : isLineBreak '\n' = true := by decide
  rw [splitLinesFrom]
  · rw [if_pos hbreak]
  · exact fun _ h => absurd h (by decide)

theorem splitLinesFrom_append {t : List Char} (ht : BreakFree t) (line s : List Char) :
    splitLinesFrom line (t ++ s) = splitLinesFrom (t.reverse ++ line) s := by
  induction t generalizing line with
  | nil => rfl
  | cons c t ih =>
      have hc := ht c (by simp)
      have hrest : BreakFree t := fun d hd => ht d (by simp [hd])
      rw [List.cons_append, splitLinesFrom_cons hc, ih hrest, List.reverse_cons,
        List.append_assoc]
      rfl

theorem breakFree_of_mem_splitLinesFrom {line s l : List Char} (hline : BreakFree line)
    (hl : l ∈ splitLinesFrom line s) : BreakFree l := by
  have hnil : BreakFree [] := fun _ h => absurd h List.not_mem_nil
  have hrev : BreakFree line.reverse := fun c hc => hline c (List.mem_reverse.1 hc)
  fun_induction splitLinesFrom line s with
  | case1 line _ => cases hl
  | case2 line _ =>
      rw [List.mem_singleton] at hl
      exact hl ▸ hrev
  | case3 line s ih =>
      rcases List.mem_cons.1 hl with rfl | hl
      · exact hrev
      · exact ih hnil hl hnil
  | case4 line c s _ _ ih =>
      rcases List.mem_cons.1 hl with rfl | hl
      · exact hrev
      · exact ih hnil hl hnil
  | case5 line c s _ hc ih =>
      have hcons : BreakFree (c :: line) := by
        intro d hd
        rcases List.mem_cons.1 hd with rfl | hd
        · simpa using hc
        · exact hline d hd
      exact ih hcons hl fun d hd => hcons d (List.mem_reverse.1 hd)

theorem breakFree_of_mem_splitLines {s l : List Char} (hl : l ∈ splitLines s) : BreakFree l :=
  breakFree_of_mem_splitLinesFrom (fun _ h => absurd h List.not_mem_nil) hl

/-! ## What lines say -/

/-- The lines that are not blank, each without its blanks. -/
def codeLines (lines : List (List Char)) : List (List Char) :=
  (lines.filter fun l => !l.all isBlank).map ink

@[simp] theorem codeLines_nil : codeLines [] = [] := rfl

@[simp] theorem codeLines_append (ls ms : List (List Char)) :
    codeLines (ls ++ ms) = codeLines ls ++ codeLines ms := by
  simp [codeLines]

theorem codeLines_cons (l : List Char) (ls : List (List Char)) :
    codeLines (l :: ls) = codeLines [l] ++ codeLines ls :=
  codeLines_append [l] ls

theorem codeLines_singleton (l : List Char) :
    codeLines [l] = if ink l = [] then [] else [ink l] := by
  by_cases h : l.all isBlank = true
  · rw [if_pos ((ink_eq_nil_iff l).2 h)]
    simp [codeLines, h]
  · rw [if_neg (fun hnil => h ((ink_eq_nil_iff l).1 hnil))]
    simp [codeLines, h]

/-- A respacing of a line says the same. -/
theorem Respaced.codeLines_eq {s t : List Char} (h : Respaced s t) :
    codeLines [t] = codeLines [s] := by
  rw [codeLines_singleton, codeLines_singleton, h.ink_eq]

/-! ## Lines that are not blank -/

/-- The lines that are not blank. -/
def inkedLines (lines : List (List Char)) : List (List Char) :=
  lines.filter fun l => !l.all isBlank

@[simp] theorem inkedLines_nil : inkedLines [] = [] := rfl

@[simp] theorem inkedLines_append (ls ms : List (List Char)) :
    inkedLines (ls ++ ms) = inkedLines ls ++ inkedLines ms :=
  List.filter_append ls ms

theorem inkedLines_cons (l : List Char) (ls : List (List Char)) :
    inkedLines (l :: ls) = inkedLines [l] ++ inkedLines ls :=
  inkedLines_append [l] ls

theorem inkedLines_singleton {l : List Char} (h : l.all isBlank = false) :
    inkedLines [l] = [l] := by
  simp [inkedLines, h]

theorem map_ink_inkedLines (ls : List (List Char)) : (inkedLines ls).map ink = codeLines ls := rfl

theorem inkedLines_eq_nil_of_forall_empty {ls : List (List Char)} (h : ∀ l ∈ ls, l.isEmpty = true) :
    inkedLines ls = [] := by
  rw [inkedLines, List.filter_eq_nil_iff]
  intro l hl
  rw [List.isEmpty_iff.1 (h l hl)]
  decide

/-- Empty lines at the end are blank. -/
theorem inkedLines_dropLastEmpty (ls : List (List Char)) :
    inkedLines (ls.reverse.dropWhile List.isEmpty).reverse = inkedLines ls := by
  have hempty : ∀ l ∈ (ls.reverse.takeWhile List.isEmpty).reverse, l.isEmpty = true :=
    fun l hl => List.mem_takeWhile_imp (List.mem_reverse.1 hl)
  calc inkedLines (ls.reverse.dropWhile List.isEmpty).reverse
      = inkedLines ((ls.reverse.dropWhile List.isEmpty).reverse ++
          (ls.reverse.takeWhile List.isEmpty).reverse) := by
        rw [inkedLines_append, inkedLines_eq_nil_of_forall_empty hempty, List.append_nil]
    _ = inkedLines ls := by
        rw [← List.reverse_append, List.takeWhile_append_dropWhile, List.reverse_reverse]

theorem codeLines_dropLastEmpty (ls : List (List Char)) :
    codeLines (ls.reverse.dropWhile List.isEmpty).reverse = codeLines ls := by
  rw [← map_ink_inkedLines, inkedLines_dropLastEmpty, map_ink_inkedLines]

/-! ## Joining and dividing -/

/-- **Lines without line breaks, joined and divided again**, are the same but for empty lines. -/
theorem inkedLines_splitLines_intercalate {ls : List (List Char)} (h : ∀ l ∈ ls, BreakFree l) :
    inkedLines (splitLines (['\n'].intercalate ls)) = inkedLines ls := by
  induction ls with
  | nil => rfl
  | cons l ls ih =>
      have hl := h l (by simp)
      cases ls with
      | nil =>
          rw [List.intercalate_singleton, splitLines, ← List.append_nil l,
            splitLinesFrom_append hl, splitLinesFrom, List.append_nil, List.append_nil]
          split
          · next hempty =>
              have hnil : l = [] := by simpa using hempty
              rw [hnil]
              rfl
          · rw [List.reverse_reverse]
      | cons m ls =>
          have hrest := ih fun n hn => h n (by simp [hn])
          rw [List.intercalate_cons_cons, List.append_assoc, splitLines, splitLinesFrom_append hl,
            List.singleton_append, splitLinesFrom_newline, List.append_nil, List.reverse_reverse,
            inkedLines_cons, inkedLines_cons l (m :: ls), ← hrest]
          rfl

theorem codeLines_splitLines_intercalate {ls : List (List Char)} (h : ∀ l ∈ ls, BreakFree l) :
    codeLines (splitLines (['\n'].intercalate ls)) = codeLines ls := by
  rw [← map_ink_inkedLines, inkedLines_splitLines_intercalate h, map_ink_inkedLines]

end Pcode.Text
