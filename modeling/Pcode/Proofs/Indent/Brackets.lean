import Pcode.Proofs.Indent.Line
import Pcode.Proofs.Spacing.Quoted

set_option autoImplicit false

/-! # Brackets in lines with literals and comments

The brackets of a line are counted in its code, of which literals and comment are no part. For a
line made of segments, literals and a comment the code is the segments but for blanks
(`Spacing.QuotedLine.Proper.respaced_codeOf`), and blanks change no count (`balance_respaced`).
The column of the last open bracket is asked for only where there is one (`column?_of_mem`), so it
is always found.

Main statement: the change of nesting in such a line is that of its segments, for square and for
curly brackets, and the levels follow it (`State.track_segments`). -/

namespace Pcode.Indent

open Pcode.Text
open Pcode.Spacing (Literal Segment Remark QuotedLine)

theorem balance_respaced {opening closing : Char} {s t : List Char} (h : Respaced s t)
    (hopening : isBlank opening = false) (hclosing : isBlank closing = false) :
    balance opening closing t = balance opening closing s := by
  rw [balance, balance, h.count_eq hopening, h.count_eq hclosing]

/-- The levels of the lines after a change of nesting: at least one where a bracket is left open,
none where one is closed, and as before where nothing changes. -/
structure Tracks (change levels levels' : Int) : Prop where
  opened : 0 < change → 1 ≤ levels'
  closed : change < 0 → levels' = 0
  kept : change = 0 → levels' = levels

section Bracket

variable {opening closing : Char} (hopening : isBlank opening = false)
  (hclosing : isBlank closing = false) {width : Int} (hwidth : width ≠ 0)

include hopening hwidth

theorem trackBracket_tracks (levels : Int) {code : List Char} (hcode : '\n' ∉ code) :
    ∃ levels', trackBracket opening closing width levels code =
        .ok (balance opening closing code, levels') ∧
      Tracks (balance opening closing code) levels levels' := by
  rcases lt_trichotomy (balance opening closing code) 0 with hneg | hzero | hpos
  · refine ⟨0, ?_, fun h => by omega, fun _ => rfl, fun h => by omega⟩
    simp only [trackBracket, if_neg (Int.lt_asymm hneg), if_pos hneg]
  · refine ⟨levels, ?_, fun h => by omega, fun h => by omega, fun _ => rfl⟩
    simp only [trackBracket, hzero, lt_irrefl, if_false]
  · -- the only case that looks for a column, and here there is a bracket to find
    obtain ⟨column, hcolumn⟩ := column?_of_mem (mem_of_balance_pos hpos) hopening hcode
    refine ⟨levelsTo width column, ?_, fun _ => levelsTo_pos width column, fun h => by omega,
      fun h => by omega⟩
    simp only [trackBracket, if_pos hpos, hcolumn, if_neg hwidth]

include hclosing

/-- Only the segments of a line count. -/
theorem trackBracket_segments {line : QuotedLine} (hline : line.Proper) (levels : Int) :
    ∃ levels', trackBracket opening closing width levels (Spacing.codeOf line.text) =
        .ok (balance opening closing line.code, levels') ∧
      Tracks (balance opening closing line.code) levels levels' := by
  have hcode := hline.respaced_codeOf
  rw [← balance_respaced hcode hopening hclosing]
  exact trackBracket_tracks hopening hwidth levels
    (hcode.newline_not_mem (line.not_mem_code (by simp)))

end Bracket

namespace State

theorem noteTree_eq (st : State) (t : Spacing.Tree) :
    ∃ saw, st.noteTree t = { st with sawComment := saw } := by
  rw [noteTree]
  split
  · exact ⟨true, rfl⟩
  · exact ⟨st.sawComment, rfl⟩

/-- **Brackets in literals and comments do not count.** In every state, a line gives the nesting of
its segments, and nothing else of the state changes but the note of a comment. -/
theorem track_segments {line : QuotedLine} (hline : line.Proper) {width : Int} (hwidth : width ≠ 0)
    (st : State) :
    (∃ levels saw, st.trackMatrix width line.text =
        ({ st with matrix := levels, sawComment := saw }, .ok (balance '[' ']' line.code)) ∧
      Tracks (balance '[' ']' line.code) st.matrix levels) ∧
    ∃ levels saw, st.trackCell width line.text =
        ({ st with cell := levels, sawComment := saw }, .ok (balance '{' '}' line.code)) ∧
      Tracks (balance '{' '}' line.code) st.cell levels := by
  obtain ⟨saw, hsaw⟩ := st.noteTree_eq (Spacing.quoting.tree line.text)
  have hstate : st.code line.text = ({ st with sawComment := saw }, Spacing.codeOf line.text) :=
    Prod.ext hsaw rfl
  constructor
  · obtain ⟨levels, htrack, htracks⟩ := trackBracket_segments (show isBlank '[' = false by decide)
      (show isBlank ']' = false by decide) hwidth hline st.matrix
    refine ⟨levels, saw, ?_, htracks⟩
    simp only [trackMatrix, hstate, htrack]
  · obtain ⟨levels, htrack, htracks⟩ := trackBracket_segments (show isBlank '{' = false by decide)
      (show isBlank '}' = false by decide) hwidth hline st.cell
    refine ⟨levels, saw, ?_, htracks⟩
    simp only [trackCell, hstate, htrack]

/-- A line with brackets and a comment sign in its literals, and brackets in its comment. -/
def bracketLine : QuotedLine where
  first := ⟨"c = \x7b[1 ".toList, by simp⟩
  pieces := [
    (⟨false, "\x7d % [[".toList, by simp, by simp⟩, ⟨", ".toList, by simp⟩),
    (⟨true, [], by simp, by simp⟩, ⟨"\t".toList, by simp⟩),
    (⟨true, "]]".toList, by simp, by simp⟩, ⟨"];".toList, by simp⟩),
    (⟨false, "\x7b".toList, by simp, by simp⟩, ⟨"  ".toList, by simp⟩)]
  remark := some ⟨" a ] and a \x7d".toList, by simp⟩

theorem track_segments_row :
    bracketLine.Proper ∧ (4 : Int) ≠ 0 ∧
    bracketLine.text = "c = \x7b[1 '\x7d % [[', \"\"\t\"]]\"];'\x7b'  % a ] and a \x7d".toList ∧
    (∃ saw, ({ matrix := 3 } : State).trackMatrix 4 bracketLine.text =
      ({ matrix := 3, sawComment := saw }, .ok 0)) ∧
    ∃ levels saw, ({ matrix := 3 } : State).trackCell 4 bracketLine.text =
      ({ matrix := 3, cell := levels, sawComment := saw }, .ok 1) ∧ 1 ≤ levels := by
  have hproper : bracketLine.Proper := by decide +kernel
  have hmatrix : balance '[' ']' bracketLine.code = 0 := by decide +kernel
  have hcell : balance '{' '}' bracketLine.code = 1 := by decide +kernel
  obtain ⟨⟨levels, saw, htrack, htracks⟩, levels', saw', htrack', htracks'⟩ :=
    track_segments hproper (show (4 : Int) ≠ 0 by decide) { matrix := 3 }
  refine ⟨hproper, by decide, by decide +kernel, ⟨saw, ?_⟩, levels', saw', ?_, ?_⟩
  · rw [htrack, hmatrix, htracks.kept hmatrix]
  · rw [htrack', hcell]
  · exact htracks'.opened (by rw [hcell]; decide)

end State

end Pcode.Indent
