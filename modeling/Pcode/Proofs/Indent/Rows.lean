import Pcode.Proofs.Indent.Bare
import Pcode.Proofs.Indent.Brackets

set_option autoImplicit false

/-! # Brackets over several lines

A line that stands in a square or curly bracket, or leaves one open or closed, is a *row*: it is
spaced and moved in by the levels of the bracket, and no statement is looked for in it
(`State.layCode_row`). Which bracket it stands in is settled by the brackets that are open and by
those of its code (`Nest.within`), and so is which are open after it (`Nest.turned`,
`State.nest_withLevels`). By how much the next rows are moved in depends on the column of the last
bracket (`turn`), and so on the spacing of the line, but not on the blanks around it
(`turn_trim`). -/

namespace Pcode.Indent

open Pcode.Text
open Pcode.Spacing (format codeOf)

/-- The brackets that are followed over several lines. -/
inductive Bracket where
  | square
  | curly
deriving DecidableEq

namespace Bracket

def opening : Bracket → Char
  | square => '['
  | curly => '{'

def closing : Bracket → Char
  | square => ']'
  | curly => '}'

/-- The change of the bracket's nesting in a line. -/
def change (b : Bracket) (code : List Char) : Int := balance b.opening b.closing code

theorem isBlank_opening (b : Bracket) : isBlank b.opening = false := by cases b <;> decide

theorem isBlank_closing (b : Bracket) : isBlank b.closing = false := by cases b <;> decide

end Bracket

theorem balance_of_ink_eq {opening closing : Char} {s t : List Char} (h : ink t = ink s)
    (hopening : isBlank opening = false) (hclosing : isBlank closing = false) :
    balance opening closing t = balance opening closing s := by
  have hink : ∀ {c : Char}, isBlank c = false → ∀ u : List Char, (ink u).count c = u.count c :=
    fun hc u => List.count_filter (by simp [hc])
  rw [balance, balance, ← hink hopening t, ← hink hclosing t, h, hink hopening, hink hclosing]

theorem Bracket.change_of_ink_eq (b : Bracket) {s t : List Char} (h : ink t = ink s) :
    b.change t = b.change s :=
  balance_of_ink_eq h b.isBlank_opening b.isBlank_closing

/-! ## Levels -/

/-- The levels inside a bracket after a line, if the line leaves it open or closed. -/
def turn (b : Bracket) (width : Int) (code : List Char) : Option Int :=
  if 0 < b.change code then some (levelsTo width ((column? b.opening code).getD 0))
  else if b.change code < 0 then some 0
  else none

theorem trackBracket_eq (b : Bracket) {width : Int} (hwidth : width ≠ 0) (levels : Int)
    {code : List Char} (hcode : '\n' ∉ code) :
    trackBracket b.opening b.closing width levels code =
      .ok (b.change code, (turn b width code).getD levels) := by
  have hchange : balance b.opening b.closing code = b.change code := rfl
  rcases lt_trichotomy (b.change code) 0 with hneg | hzero | hpos
  · simp only [trackBracket, turn, hchange, if_neg (Int.lt_asymm hneg), if_pos hneg,
      Option.getD_some]
  · simp only [trackBracket, turn, hchange, hzero, lt_irrefl, if_false, Option.getD_none]
  · obtain ⟨column, hcolumn⟩ := column?_of_mem (mem_of_balance_pos hpos) b.isBlank_opening hcode
    simp only [trackBracket, turn, hchange, if_pos hpos, hcolumn, if_neg hwidth, Option.getD_some]

theorem turn_eq_none {b : Bracket} {code : List Char} (h : b.change code = 0) (width : Int) :
    turn b width code = none := by
  rw [turn, h, if_neg (lt_irrefl 0), if_neg (lt_irrefl 0)]

theorem beforeLast?_append {x : Char} {b : List Char} (hb : x ∉ b) (s : List Char) :
    beforeLast? x (s ++ b) = beforeLast? x s := by
  induction s with
  | nil =>
      induction b with
      | nil => rfl
      | cons c b ih =>
          have hc : c ≠ x := fun heq => hb (heq ▸ List.mem_cons_self)
          have hnone : beforeLast? x b = none := ih fun hmem => hb (List.mem_cons_of_mem c hmem)
          simp [beforeLast?, hnone, hc]
  | cons c s ih => rw [List.cons_append, beforeLast?, beforeLast?, ih]

theorem column?_trim {x : Char} (hx : isBlank x = false) {code : List Char} (hcode : '\n' ∉ code) :
    column? x (trim code) = column? x code := by
  have hskip : '\n' ∉ skipBlanks code := (Respaced.skipBlanks code).newline_not_mem hcode
  have htrim : skipBlanks (trim code) = trimEnd (skipBlanks code) := skipBlanks_trim code
  obtain ⟨b, hb, hall⟩ := exists_trimEnd_append (skipBlanks code)
  have hnot : x ∉ b := fun hmem => by
    rw [List.all_eq_true.1 hall x hmem] at hx
    cases hx
  have hend : '\n' ∉ trimEnd (skipBlanks code) := (Respaced.trimEnd _).newline_not_mem hskip
  simp only [column?, htrim, isOneLine_of_not_mem hskip, isOneLine_of_not_mem hend,
    firstLine_of_not_mem hskip, firstLine_of_not_mem hend, if_true]
  rw [← beforeLast?_append hnot, ← hb]

/-- Blanks around the code make no difference. -/
theorem turn_trim (b : Bracket) (width : Int) {code : List Char} (hcode : '\n' ∉ code) :
    turn b width (trim code) = turn b width code := by
  rw [turn, turn, b.change_of_ink_eq (Respaced.trim code).ink_eq, column?_trim b.isBlank_opening
    hcode]

/-! ## Open brackets -/

/-- Which brackets are open. -/
structure Nest where
  square : Bool := false
  curly : Bool := false
deriving DecidableEq

namespace Nest

def isOpen (nest : Nest) : Bracket → Bool
  | .square => nest.square
  | .curly => nest.curly

/-- The same but for one bracket. -/
def withOpen (nest : Nest) (b : Bracket) (isOpen : Bool) : Nest :=
  match b with
  | .square => { nest with square := isOpen }
  | .curly => { nest with curly := isOpen }

/-- The bracket in which a line stands: one that is open, or that the line leaves open or closed.
Square brackets come first. -/
def within (nest : Nest) (code : List Char) : Option Bracket :=
  [Bracket.square, .curly].find? fun b => nest.isOpen b || b.change code != 0

/-- The brackets that are open after a line. -/
def turned (nest : Nest) (code : List Char) : Nest :=
  (nest.within code).elim nest fun b =>
    nest.withOpen b (if b.change code = 0 then nest.isOpen b else decide (0 < b.change code))

variable (nest : Nest) {s t : List Char} (h : ink t = ink s)

include h

/-- Blanks have no part in it. -/
theorem within_of_ink_eq : nest.within t = nest.within s := by
  simp only [within, Bracket.change_of_ink_eq _ h]

theorem turned_of_ink_eq : nest.turned t = nest.turned s := by
  simp only [turned, nest.within_of_ink_eq h, Bracket.change_of_ink_eq _ h]

end Nest

namespace State

/-- The levels by which lines inside a bracket are moved in. -/
def levels (st : State) : Bracket → Int
  | .square => st.matrix
  | .curly => st.cell

/-- The same but for the levels of one bracket. -/
def withLevels (st : State) (b : Bracket) (levels : Int) : State :=
  match b with
  | .square => { st with matrix := levels }
  | .curly => { st with cell := levels }

/-- The brackets that are open. -/
def nest (st : State) : Nest := ⟨st.matrix != 0, st.cell != 0⟩

theorem isOpen_nest (st : State) (b : Bracket) : st.nest.isOpen b = (st.levels b != 0) := by
  cases b <;> rfl

theorem nest_withLevels_eq (st : State) (b : Bracket) (levels : Int) :
    (st.withLevels b levels).nest = st.nest.withOpen b (levels != 0) := by
  cases b <;> rfl

/-- **A row leaves the brackets open that its code says.** -/
theorem nest_withLevels (st : State) {b : Bracket} {code : List Char}
    (h : st.nest.within code = some b) (width : Int) :
    (st.withLevels b ((turn b width code).getD (st.levels b))).nest = st.nest.turned code := by
  rw [Nest.turned, h, Option.elim_some, nest_withLevels_eq, isOpen_nest]
  congr 1
  rw [turn]
  split
  · next hpos =>
      have hlevels := levelsTo_pos width ((column? b.opening code).getD 0)
      rw [if_neg (by omega), decide_eq_true hpos, Option.getD_some]
      simpa using hlevels.ne'
  · next hle =>
      split
      · next hneg =>
          rw [if_neg (by omega), decide_eq_false hle]
          rfl
      · next hge =>
          rw [if_pos (by omega)]
          rfl

/-- The state with a comment noted or not. -/
def noted (st : State) (saw : Bool) : State := { st with sawComment := saw }

theorem exists_noted (st : State) (t : Spacing.Tree) : ∃ saw, st.noteTree t = st.noted saw :=
  st.noteTree_eq t

section

variable {width : Int} (hwidth : width ≠ 0) {line : List Char} (hline : '\n' ∉ line) (st : State)

include hwidth hline

theorem exists_trackMatrix : ∃ saw, st.trackMatrix width line =
    ((st.noted saw).withLevels .square ((turn .square width (codeOf line)).getD st.matrix),
      .ok (Bracket.square.change (codeOf line))) := by
  obtain ⟨saw, hsaw⟩ := st.exists_noted (Spacing.quoting.tree line)
  have hstate : st.code line = (st.noted saw, codeOf line) := Prod.ext hsaw rfl
  have htrack : trackBracket '[' ']' width (st.noted saw).matrix (codeOf line) =
      .ok (Bracket.square.change (codeOf line),
        (turn .square width (codeOf line)).getD st.matrix) :=
    trackBracket_eq .square hwidth st.matrix (newline_not_mem_code hline st)
  refine ⟨saw, ?_⟩
  simp only [trackMatrix, hstate, htrack]
  rfl

theorem exists_trackCell : ∃ saw, st.trackCell width line =
    ((st.noted saw).withLevels .curly ((turn .curly width (codeOf line)).getD st.cell),
      .ok (Bracket.curly.change (codeOf line))) := by
  obtain ⟨saw, hsaw⟩ := st.exists_noted (Spacing.quoting.tree line)
  have hstate : st.code line = (st.noted saw, codeOf line) := Prod.ext hsaw rfl
  have htrack : trackBracket '{' '}' width (st.noted saw).cell (codeOf line) =
      .ok (Bracket.curly.change (codeOf line), (turn .curly width (codeOf line)).getD st.cell) :=
    trackBracket_eq .curly hwidth st.cell (newline_not_mem_code hline st)
  refine ⟨saw, ?_⟩
  simp only [trackCell, hstate, htrack]
  rfl

end

theorem exists_spaced (width add : Int) (line : List Char) (st : State) :
    ∃ saw, st.spaced width add line =
      (st.noted saw, ⟨0, st.indent width add ++ trim (format line)⟩) := by
  obtain ⟨saw, hsaw⟩ := st.exists_noted (Spacing.spacing.tree line)
  exact ⟨saw, Prod.ext hsaw rfl⟩

theorem within_nest (st : State) (code : List Char) : st.nest.within code =
    if st.matrix != 0 || Bracket.square.change code != 0 then some .square
    else if st.cell != 0 || Bracket.curly.change code != 0 then some .curly else none := by
  rw [Nest.within, List.find?_cons, List.find?_cons, List.find?_nil, isOpen_nest, isOpen_nest,
    levels, levels]
  split
  · next hsquare => rw [if_pos hsquare]
  · next hsquare =>
      rw [if_neg (by simp [hsquare])]
      split
      · next hcurly => rw [if_pos hcurly]
      · next hcurly => rw [if_neg (by simp [hcurly])]

section

variable {style : Style} (hwidth : style.width ≠ 0) {line : List Char} (hline : '\n' ∉ line)
  (st : State)

include hwidth hline

/-- Outside square brackets curly ones are looked at. -/
theorem exists_layCode_cell
    (h : (st.matrix != 0 || Bracket.square.change (codeOf line) != 0) = false) :
    ∃ saw, st.layCode style line =
      let st' :=
        (st.noted saw).withLevels .curly ((turn .curly style.width (codeOf line)).getD st.cell)
      if Bracket.curly.change (codeOf line) != 0 || st.cell != 0 then
        ((st'.spaced style.width st.cell line).1, .ok (st'.spaced style.width st.cell line).2)
      else st'.layStatement style line := by
  obtain ⟨hmatrix, hchange⟩ := Bool.or_eq_false_iff.1 h
  rw [bne_eq_false_iff_eq] at hchange
  obtain ⟨saw, htrack⟩ := st.exists_trackMatrix hwidth hline
  rw [hchange, turn_eq_none hchange, Option.getD_none] at htrack
  change st.trackMatrix style.width line = (st.noted saw, .ok 0) at htrack
  obtain ⟨saw', hcell⟩ := (st.noted saw).exists_trackCell hwidth hline
  refine ⟨saw', ?_⟩
  simp only [layCode, htrack, hmatrix, hcell]
  rfl

/-- **A row is spaced and moved in**, and the levels of its bracket are followed. -/
theorem layCode_row {b : Bracket} (h : st.nest.within (codeOf line) = some b) :
    ∃ saw, st.layCode style line =
      ((st.noted saw).withLevels b ((turn b style.width (codeOf line)).getD (st.levels b)),
        .ok ⟨0, st.indent style.width (st.levels b) ++ trim (format line)⟩) := by
  rw [within_nest] at h
  cases hsquare : st.matrix != 0 || Bracket.square.change (codeOf line) != 0 with
  | true =>
      rw [hsquare, if_pos rfl] at h
      cases h
      obtain ⟨saw, hmatrix⟩ := st.exists_trackMatrix hwidth hline
      obtain ⟨saw', hspaced⟩ := exists_spaced style.width st.matrix line
        ((st.noted saw).withLevels .square
          ((turn .square style.width (codeOf line)).getD st.matrix))
      refine ⟨saw', ?_⟩
      rw [Bool.or_comm] at hsquare
      simp only [layCode, hmatrix, hsquare, if_true, hspaced]
      rfl
  | false =>
      obtain ⟨saw, hlay⟩ := st.exists_layCode_cell hwidth hline hsquare
      rw [hsquare, if_neg (by simp)] at h
      cases hcurly : st.cell != 0 || Bracket.curly.change (codeOf line) != 0 with
      | false =>
          rw [hcurly, if_neg (by simp)] at h
          cases h
      | true =>
          rw [hcurly, if_pos rfl] at h
          cases h
          obtain ⟨saw', hspaced⟩ := exists_spaced style.width st.cell line
            ((st.noted saw).withLevels .curly
              ((turn .curly style.width (codeOf line)).getD st.cell))
          refine ⟨saw', ?_⟩
          rw [Bool.or_comm] at hcurly
          simp only [hlay, hcurly, if_true, hspaced]
          rfl

/-- A line that stands in no bracket is laid out by its statement. -/
theorem layCode_statement (h : st.nest.within (codeOf line) = none) :
    ∃ saw, st.layCode style line = (st.noted saw).layStatement style line := by
  rw [within_nest] at h
  cases hsquare : st.matrix != 0 || Bracket.square.change (codeOf line) != 0 with
  | true =>
      rw [hsquare, if_pos rfl] at h
      cases h
  | false =>
      obtain ⟨saw, hlay⟩ := st.exists_layCode_cell hwidth hline hsquare
      rw [hsquare, if_neg (by simp)] at h
      cases hcurly : st.cell != 0 || Bracket.curly.change (codeOf line) != 0 with
      | true =>
          rw [hcurly, if_pos rfl] at h
          cases h
      | false =>
          have hchange := (Bool.or_eq_false_iff.1 hcurly).2
          rw [bne_eq_false_iff_eq] at hchange
          rw [Bool.or_comm] at hcurly
          refine ⟨saw, ?_⟩
          simp only [hlay, hcurly, if_neg Bool.false_ne_true, turn_eq_none hchange,
            Option.getD_none]
          rfl

end

end State

end Pcode.Indent
