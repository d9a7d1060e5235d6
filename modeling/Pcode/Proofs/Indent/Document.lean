import Pcode.Indent.Document
import Pcode.Proofs.Indent.Line
import Pcode.Proofs.Text.Lines

set_option autoImplicit false

/-! # The layout of a document keeps its code

Laying out lines drops, adds and moves blank lines and respaces the others, one by one, so
that what the lines say stays (`State.layLines_ok`).

Main statement: the layout of a source text exists and has the same code lines as the part of
the text that was selected (`layText_keeps_codeLines`). -/

namespace Pcode.Indent

open Pcode.Text

theorem mem_of_mem_selection {α : Type} {start : Int} {stop : Option Int} {xs : List α} {x : α}
    (h : x ∈ selection start stop xs) : x ∈ xs := by
  unfold selection slice at h
  exact List.mem_of_mem_drop (List.mem_of_mem_take h)

theorem breakFree_of_mem_selection {source l : List Char} {start : Int} {stop : Option Int}
    (h : l ∈ selection start stop (splitLines source)) : BreakFree l :=
  breakFree_of_mem_splitLines (mem_of_mem_selection h)

theorem firstLine_skipBlanks {line : List Char} (h : BreakFree line) :
    firstLine (skipBlanks line) = skipBlanks line :=
  firstLine_of_not_mem (h.respaced (Respaced.skipBlanks line)).newline_not_mem

/-- The lines of a document are laid out without the blanks of the first one. -/
theorem breakFree_document {first : List Char} {rest : List (List Char)}
    (h : ∀ l ∈ first :: rest, BreakFree l) : ∀ l ∈ skipBlanks first :: rest, BreakFree l := by
  intro l hl
  rcases List.mem_cons.1 hl with rfl | hl
  · exact (h first (by simp)).respaced (Respaced.skipBlanks first)
  · exact h l (by simp [hl])

namespace State

/-! ## One step -/

/-- Whether an empty line is put before a line laid out; `st` is the state after it. -/
def gapBefore (style : Style) (st : State) (blank : Bool) (l : Line) : Bool :=
  style.separate && 0 < l.offset && !blank && st.commentRun == 0

/-- Whether an empty line is put after a line laid out. -/
def gapAfter (style : Style) (l : Line) : Bool := style.separate && l.offset < 0

/-- One empty line or none. -/
def gap (b : Bool) : List (List Char) := if b then [[]] else []

/-- A line between its gaps, and what comes after it; `st` is the state after the line. -/
def framed (style : Style) (st : State) (blank : Bool) (l : Line) (out : List (List Char)) :
    List (List Char) :=
  gap (gapBefore style st blank l) ++ trimEnd l.text :: (gap (gapAfter style l) ++ out)

theorem layLines_cons_of_blank {style : Style} {st : State} {line : List Char}
    (hline : line.all isBlank = true) (blank : Bool) (rest : List (List Char)) :
    st.layLines style blank (line :: rest) =
      ((st.layLines style true rest).1,
        (st.layLines style true rest).2.map (gap (!blank) ++ ·)) := by
  rw [layLines, if_pos hline]
  cases blank
  · rfl
  · rfl

theorem layLines_cons_of_layLine {style : Style} {st st' : State} {line : List Char} {l : Line}
    (hline : line.all isBlank = false) (hlay : st.layLine style line = (st', .ok l))
    (blank : Bool) (rest : List (List Char)) :
    st.layLines style blank (line :: rest) =
      (((st'.shift l.offset).layLines style (gapAfter style l) rest).1,
        ((st'.shift l.offset).layLines style (gapAfter style l) rest).2.map
          (framed style (st'.shift l.offset) blank l)) := by
  rw [layLines, if_neg (by simp [hline])]
  simp only [hlay]
  rfl

/-! ## What a run of steps keeps -/

/-- What the lines said, laid out, in lines without line breaks. -/
def KeepsLines (lines : List (List Char)) (outcome : State × Except Error (List (List Char))) :
    Prop :=
  ∃ out, outcome.2 = .ok out ∧ codeLines out = codeLines lines ∧ ∀ l ∈ out, BreakFree l

@[simp] theorem codeLines_gap (b : Bool) : codeLines (gap b) = [] := by
  cases b
  · rfl
  · rfl

theorem breakFree_of_mem_gap {b : Bool} {l : List Char} (h : l ∈ gap b) : BreakFree l := by
  cases b with
  | false => exact absurd h List.not_mem_nil
  | true =>
      rw [List.mem_singleton.1 h]
      exact fun _ hc => absurd hc List.not_mem_nil

/-- **Laying out lines keeps what they say**, from any state: a step respaces one line, and the
gaps it may put around it say nothing. -/
theorem layLines_ok {style : Style} (hstyle : style.Proper) (st : State) (blank : Bool)
    {lines : List (List Char)} (hlines : ∀ l ∈ lines, BreakFree l) :
    KeepsLines lines (st.layLines style blank lines) := by
  induction lines generalizing st blank with
  | nil => exact ⟨[], rfl, rfl, fun _ h => absurd h List.not_mem_nil⟩
  | cons line rest ih =>
      have hline := hlines line (by simp)
      have hrest : ∀ l ∈ rest, BreakFree l := fun l hl => hlines l (by simp [hl])
      -- a blank line says nothing, so it may go or come; any other one is respaced
      by_cases hblank : line.all isBlank = true
      · obtain ⟨out, hout, hcode, hfree⟩ := ih st true hrest
        have hsays : codeLines [line] = [] := by
          rw [codeLines_singleton, if_pos ((ink_eq_nil_iff line).2 hblank)]
        rw [layLines_cons_of_blank hblank]
        refine ⟨gap (!blank) ++ out, by rw [hout]; rfl, ?_, fun l hl => ?_⟩
        · rw [codeLines_append, codeLines_gap, codeLines_cons line, hsays, hcode]
        · rcases List.mem_append.1 hl with hl | hl
          · exact breakFree_of_mem_gap hl
          · exact hfree l hl
      · obtain ⟨l, hl, hspaced⟩ := layLine_ok hstyle st hline.newline_not_mem
        have hlay : st.layLine style line = ((st.layLine style line).1, .ok l) :=
          Prod.ext rfl hl
        have htrim : Respaced line (trimEnd l.text) := hspaced.trans (Respaced.trimEnd _)
        rw [layLines_cons_of_layLine (by simpa using hblank) hlay]
        obtain ⟨out, hout, hcode, hfree⟩ := ih _ (gapAfter style l) hrest
        refine ⟨_, by rw [hout]; rfl, ?_, fun m hm => ?_⟩
        · rw [framed, codeLines_append, codeLines_gap, codeLines_cons, codeLines_append,
            codeLines_gap, htrim.codeLines_eq, hcode, codeLines_cons line rest]
          rfl
        · rcases List.mem_append.1 hm with hm | hm
          · exact breakFree_of_mem_gap hm
          rcases List.mem_cons.1 hm with rfl | hm
          · exact hline.respaced htrim
          rcases List.mem_append.1 hm with hm | hm
          · exact breakFree_of_mem_gap hm
          · exact hfree m hm

/-- The state in which the lines of a document are laid out: the blanks before the first line give
the level. -/
def entered (style : Style) (st : State) (first : List Char) : State :=
  { st with level := Int.fdiv (first.takeWhile isBlank).length style.width }

/-- A document is laid out by a run over its lines, the first without the blanks that give the
level. -/
theorem layDocument_of_layLines {style : Style} (hstyle : style.Proper) {st st' : State}
    {first : List Char} {rest out : List (List Char)} (hfirst : BreakFree first)
    (h : (st.entered style first).layLines style true (skipBlanks first :: rest) =
      (st', .ok out)) :
    st.layDocument style first rest = (st', .ok (out.reverse.dropWhile List.isEmpty).reverse) := by
  have henter : st.enter style first = .ok (st.entered style first) := if_neg hstyle.width_ne
  simp only [layDocument, henter, firstLine_skipBlanks hfirst, h]
  rfl

theorem layDocument_ok {style : Style} (hstyle : style.Proper) (st : State) {first : List Char}
    {rest : List (List Char)} (hlines : ∀ l ∈ first :: rest, BreakFree l) :
    KeepsLines (first :: rest) (st.layDocument style first rest) := by
  obtain ⟨out, hout, hcode, hfree⟩ :=
    layLines_ok hstyle (st.entered style first) true (breakFree_document hlines)
  have hrun : (st.entered style first).layLines style true (skipBlanks first :: rest) =
      (_, .ok out) := Prod.ext rfl hout
  rw [layDocument_of_layLines hstyle (hlines first (by simp)) hrun]
  refine ⟨(out.reverse.dropWhile List.isEmpty).reverse, rfl, ?_, fun l hl => ?_⟩
  · rw [codeLines_dropLastEmpty, hcode, codeLines_cons, codeLines_cons first,
      (Respaced.skipBlanks first).codeLines_eq]
  · apply hfree
    exact List.mem_reverse.1 ((List.dropWhile_sublist _).mem (List.mem_reverse.1 hl))

/-- The text laid out is lines without line breaks, joined, that say what the selected lines
say. -/
theorem layText_ok {style : Style} (hstyle : style.Proper) (st : State) (source : List Char)
    (start : Int) (stop : Option Int) :
    ∃ out, (st.layText style source start stop).2 = .ok (['\n'].intercalate out) ∧
      codeLines out = codeLines (selection start stop (splitLines source)) ∧
      ∀ l ∈ out, BreakFree l := by
  have hfree : ∀ l ∈ selection start stop (splitLines source), BreakFree l := fun _ =>
    breakFree_of_mem_selection
  rw [layText]
  cases hselect : selection start stop (splitLines source) with
  | nil => exact ⟨[], rfl, rfl, fun _ h => absurd h List.not_mem_nil⟩
  | cons first rest =>
      rw [hselect] at hfree
      obtain ⟨out, hout, hcode, hbreaks⟩ := layDocument_ok hstyle st hfree
      refine ⟨out, ?_, hcode, hbreaks⟩
      simp only [hout]
      rfl

end State

/-- **The layout of a source text keeps its code.** For blanks per level other than none, any
number for the bodies of functions, and any state to start with, the layout exists; its lines
that are not blank are those of the selected part of the source, in order, but for blanks. -/
theorem layText_keeps_codeLines (width : Int) (hwidth : width ≠ 0) (separate : Bool) (mode : Int)
    (st : State) (source : List Char) (start : Int) (stop : Option Int) :
    ∃ text, (st.layText ⟨width, separate, .ofInt mode⟩ source start stop).2 = .ok text ∧
      codeLines (splitLines text) = codeLines (selection start stop (splitLines source)) := by
  obtain ⟨out, hout, hcode, hbreaks⟩ :=
    State.layText_ok (Style.proper_ofInt hwidth separate mode) st source start stop
  exact ⟨_, hout, by rw [codeLines_splitLines_intercalate hbreaks, hcode]⟩

/-- A block that starts on the second line, with a matrix over two lines and an open block left
over from before. -/
theorem layText_keeps_codeLines_sample :
    (4 : Int) ≠ 0 ∧
      ∃ text, (({ blocks := { control := [2] } } : State).layText ⟨4, true, .ofInt 1⟩
          "x\nif  y(1)==2\n\n z=[1,2\n3 ];\nend".toList 2 none).2 = .ok text ∧
        codeLines (splitLines text) =
          ["ify(1)==2".toList, "z=[1,2".toList, "3];".toList, "end".toList] := by
  have hselect : codeLines (selection 2 none (splitLines
      "x\nif  y(1)==2\n\n z=[1,2\n3 ];\nend".toList)) =
      ["ify(1)==2".toList, "z=[1,2".toList, "3];".toList, "end".toList] := by decide +kernel
  refine ⟨by decide, ?_⟩
  rw [← hselect]
  exact layText_keeps_codeLines 4 (by decide) true 1 _ _ 2 none

end Pcode.Indent
