import Pcode.Indent.Line
import Pcode.Proofs.Indent.Statement

set_option autoImplicit false

/-! # Laying out a line

With a proper style (blanks per level, and a number for the bodies of functions) a line
without a line end can always be laid out, from whatever state: the column of an open bracket
is looked for only where the bracket is (`trackBracket_ok`).

Main statement: the line laid out is the line but for blanks (`State.layLine_ok`). -/

namespace Pcode.Indent

open Pcode.Text
open Pcode.Spacing (Cutter quoting spacing)

/-- A style that gives every line a layout. -/
structure Style.Proper (style : Style) : Prop where
  width_ne : style.width ≠ 0
  functions_ne : ∀ kind, style.functions ≠ .invalid kind

theorem Style.proper_ofInt {width : Int} (hwidth : width ≠ 0) (separate : Bool) (mode : Int) :
    Style.Proper ⟨width, separate, .ofInt mode⟩ := by
  refine ⟨hwidth, fun kind => ?_⟩
  show FunctionIndent.ofInt mode ≠ _
  rw [FunctionIndent.ofInt]
  split
  · simp
  · simp

/-! ## Brackets -/

theorem beforeLast?_of_mem {x : Char} {s : List Char} (h : x ∈ s) :
    ∃ t, beforeLast? x s = some t := by
  induction s with
  | nil => cases h
  | cons c s ih =>
      rw [beforeLast?]
      cases hs : beforeLast? x s with
      | some t => exact ⟨c :: t, rfl⟩
      | none =>
          rcases List.mem_cons.1 h with hc | hmem
          · exact ⟨[], if_pos hc.symm⟩
          · obtain ⟨t, ht⟩ := ih hmem
            rw [hs] at ht
            cases ht

theorem column?_of_mem {x : Char} {code : List Char} (hx : x ∈ code) (hink : isBlank x = false)
    (hcode : '\n' ∉ code) : ∃ column, column? x code = some column := by
  have hskip : '\n' ∉ skipBlanks code := (Respaced.skipBlanks code).newline_not_mem hcode
  have hmem : x ∈ skipBlanks code := by
    have hfilter : x ∈ ink code := by simp [ink, hx, hink]
    rw [← ink_skipBlanks] at hfilter
    exact (List.mem_filter.1 hfilter).1
  obtain ⟨t, ht⟩ := beforeLast?_of_mem hmem
  refine ⟨t.length, ?_⟩
  rw [column?]
  simp only [isOneLine_of_not_mem hskip, firstLine_of_not_mem hskip, ht, if_true, Option.map_some]

theorem levelsTo_pos (width : Int) (column : Nat) : 0 < levelsTo width column := by
  unfold levelsTo
  omega

/-- More opening than closing brackets are found only where there is an opening one. -/
theorem mem_of_balance_pos {opening closing : Char} {code : List Char}
    (h : 0 < balance opening closing code) : opening ∈ code := by
  rw [balance] at h
  exact List.count_pos_iff.1 (by omega)

theorem trackBracket_ok {opening : Char} (closing : Char) {width : Int} (levels : Int)
    {code : List Char} (hink : isBlank opening = false) (hwidth : width ≠ 0)
    (hcode : '\n' ∉ code) : ∃ r, trackBracket opening closing width levels code = .ok r := by
  simp only [trackBracket]
  split
  · next hpos =>
      obtain ⟨column, hcolumn⟩ := column?_of_mem (mem_of_balance_pos hpos) hink hcode
      simp only [hcolumn]
      exact ⟨_, rfl⟩
  · split
    · exact ⟨_, rfl⟩
    · exact ⟨_, rfl⟩

namespace State

theorem newline_not_mem_code {line : List Char} (hline : '\n' ∉ line) (st : State) :
    '\n' ∉ (st.code line).2 := by
  intro hmem
  rcases Cutter.mem_leaves Spacing.quoting_respaces hline hmem with h | h
  · exact hline h
  · exact absurd h (by decide)

theorem trackMatrix_ok {width : Int} (hwidth : width ≠ 0) (st : State) {line : List Char}
    (hline : '\n' ∉ line) : ∃ st' change, st.trackMatrix width line = (st', .ok change) := by
  obtain ⟨⟨change, levels⟩, hr⟩ := trackBracket_ok ']' (st.code line).1.matrix
    (show isBlank '[' = false by decide) hwidth (newline_not_mem_code hline st)
  refine ⟨{ (st.code line).1 with matrix := levels }, change, ?_⟩
  simp only [trackMatrix, hr]

theorem trackCell_ok {width : Int} (hwidth : width ≠ 0) (st : State) {line : List Char}
    (hline : '\n' ∉ line) : ∃ st' change, st.trackCell width line = (st', .ok change) := by
  obtain ⟨⟨change, levels⟩, hr⟩ := trackBracket_ok '}' (st.code line).1.cell
    (show isBlank '{' = false by decide) hwidth (newline_not_mem_code hline st)
  refine ⟨{ (st.code line).1 with cell := levels }, change, ?_⟩
  simp only [trackCell, hr]

/-! ## Texts of lines -/

theorem respaced_space (st : State) {s : List Char} (hs : '\n' ∉ s) :
    Respaced s (st.space s).2 :=
  (Spacing.respaced_format hs).trans (Respaced.trim _)

theorem respaced_indent (width : Int) (st : State) (add : Int) {s t : List Char}
    (h : Respaced s t) : Respaced s (st.indent width add ++ t) :=
  h.pad_left _

theorem respaced_spaced (width : Int) (st : State) (add : Int) {line : List Char}
    (hline : '\n' ∉ line) : Respaced line (st.spaced width add line).2.text :=
  respaced_indent width st add (respaced_space st hline)

/-- A line taken apart into a keyword and its tail is put together again. -/
theorem respaced_keywordLine {line keyword tail : List Char} (hline : '\n' ∉ line)
    (hparts : Respaced line (keyword ++ tail)) (width : Int) (st : State) (offset add : Int) :
    Respaced line (st.keywordLine width offset add keyword tail).2.text := by
  have htail : '\n' ∉ tail := fun hmem =>
    hparts.newline_not_mem hline (List.mem_append_right keyword hmem)
  show Respaced line (st.indent width add ++ keyword ++ ' ' :: (st.space tail).2)
  rw [List.append_assoc]
  exact hparts.trans (respaced_indent width st add
    ((Respaced.refl keyword).append (respaced_space st htail).pad_cons))

/-! ## Lines -/

/-- The outcome of a line that keeps what the line says. -/
def Keeps (line : List Char) (outcome : State × Except Error Line) : Prop :=
  ∃ l, outcome.2 = .ok l ∧ Respaced line l.text

/-- Whatever the statement is, its parts are put together again. -/
theorem layStatement_ok {style : Style} (hstyle : style.Proper) (st : State) {line : List Char}
    (hline : '\n' ∉ line) : Keeps line (st.layStatement style line) := by
  have hparts := Statement.respaced_parts hline
  rw [layStatement]
  cases hstmt : Statement.ofLine line with
  | short keyword body close tail =>
      rw [hstmt] at hparts
      have hno := hparts.newline_not_mem hline
      have hbody : '\n' ∉ body := fun hmem => hno (by simp [Statement.parts, hmem])
      have htail : '\n' ∉ tail := fun hmem => hno (by simp [Statement.parts, hmem])
      refine ⟨_, rfl, hparts.trans ?_⟩
      simp only [Statement.parts, List.append_assoc, List.cons_append]
      refine respaced_indent style.width st 0 ((Respaced.refl keyword).append ?_)
      refine ((respaced_space st hbody).append ?_).pad_cons
      exact ((Respaced.refl close).append (respaced_space _ htail).pad_cons).pad_cons
  | functionStart keyword tail =>
      rw [hstmt] at hparts
      -- that the style is proper counts here only: a function has a level then
      obtain ⟨offset, hoffset⟩ : ∃ offset, st.openFunction.functionOffset style = .ok offset := by
        rw [functionOffset]
        cases hf : style.functions with
        | fixed levels => exact ⟨_, rfl⟩
        | nestedOnly => exact ⟨_, rfl⟩
        | invalid kind => exact absurd hf (hstyle.functions_ne kind)
      simp only [hoffset]
      exact ⟨_, rfl, respaced_keywordLine hline hparts _ _ _ _⟩
  | blockStart keyword tail =>
      rw [hstmt] at hparts
      exact ⟨_, rfl, respaced_keywordLine hline hparts _ _ _ _⟩
  | switchStart keyword tail =>
      rw [hstmt] at hparts
      exact ⟨_, rfl, respaced_keywordLine hline hparts _ _ _ _⟩
  | continuation keyword tail =>
      rw [hstmt] at hparts
      exact ⟨_, rfl, respaced_keywordLine hline hparts _ _ _ _⟩
  | blockEnd close tail =>
      rw [hstmt] at hparts
      exact ⟨_, rfl, respaced_keywordLine hline hparts _ _ _ _⟩
  | plain => exact ⟨_, rfl, respaced_spaced style.width st 0 hline⟩

theorem layCode_ok {style : Style} (hstyle : style.Proper) (st : State) {line : List Char}
    (hline : '\n' ∉ line) : Keeps line (st.layCode style line) := by
  -- brackets are followed first: neither kind can fail on a line without a line end
  obtain ⟨st₁, change₁, hmatrix⟩ := trackMatrix_ok hstyle.width_ne st hline
  simp only [layCode, hmatrix]
  split
  · exact ⟨_, rfl, respaced_spaced style.width st₁ st.matrix hline⟩
  · obtain ⟨st₂, change₂, hcell⟩ := trackCell_ok hstyle.width_ne st₁ hline
    simp only [hcell]
    split
    · exact ⟨_, rfl, respaced_spaced style.width st₂ st₁.cell hline⟩
    · exact layStatement_ok hstyle st₂ hline

/-- **A line without a line end has a layout**, and it is the line but for blanks. -/
theorem layLine_ok {style : Style} (hstyle : style.Proper) (st : State) {line : List Char}
    (hline : '\n' ∉ line) : Keeps line (st.layLine style line) := by
  simp only [layLine]
  split
  · exact ⟨_, rfl, Respaced.trimEnd line⟩
  · split
    · exact ⟨_, rfl, respaced_indent _ _ _ (Respaced.trim line)⟩
    · exact layCode_ok hstyle _ hline

end State

end Pcode.Indent
