import Mathlib
import Pcode.Proofs.Indent.Blocks

set_option autoImplicit false

/-! # The level accounts for the open blocks

The level is changed after a line has been laid out, by the offset that comes with the line; the
open blocks are changed while it is laid out. A line makes one move with the open blocks, and its
offset is the one that belongs to the move (`State.layLine_movesBy`), whichever way the line is
taken: as a comment, as a command, as part of a matrix or as a statement. So level and blocks stay
in step (`State.Accounts.layLine`).

Main statement: all along the layout of a text, if a function indents its body by one level, the
level is that of the first line and the steps of all open blocks together
(`layText_level_accounts`). -/

namespace Pcode.Indent

open Pcode.Text

/-! ## Moves and levels -/

/-- The change of level that belongs to a move: a function is indented by `levels`, and the block
that is closed was by `step`. -/
def Move.offset (levels step : Int) : Move → Int
  | keep => 0
  | control step' => step'
  | function => levels
  | close => -step

/-- The levels by which all open blocks indent. -/
def Blocks.total (b : Blocks) : Int := b.control.sum + b.functions.sum

theorem Blocks.total_move (b : Blocks) (m : Move) :
    (b.move m).blocks.total = b.total + m.offset 1 (b.move m).step := by
  obtain ⟨control, functions⟩ := b
  unfold Blocks.total
  cases m with
  | keep => simp [Blocks.move, Move.offset]
  | control step =>
      simp only [Blocks.move, Move.offset, List.sum_cons]
      omega
  | function =>
      simp only [Blocks.move, Move.offset, List.sum_cons]
      omega
  | close =>
      -- what is closed last is on either stack, or there is nothing to close
      cases control with
      | cons step rest =>
          simp only [Blocks.move, Move.offset, List.sum_cons]
          omega
      | nil =>
          cases functions with
          | cons step rest =>
              simp only [Blocks.move, Move.offset, List.sum_cons]
              omega
          | nil => simp [Blocks.move, Move.offset]

/-- Steps of open blocks are not negative, nor is their sum. -/
theorem Blocks.Regular.total_nonneg {b : Blocks} (hb : b.Regular) : 0 ≤ b.total := by
  have hcontrol : 0 ≤ b.control.sum := by
    apply List.sum_nonneg
    intro step hstep
    rcases hb.control step hstep with rfl | rfl <;> decide
  have hfunctions : 0 ≤ b.functions.sum := by
    apply List.sum_nonneg
    intro step hstep
    rw [hb.functions step hstep]
    decide
  unfold Blocks.total
  omega

/-! ## Lines -/

namespace State

/-- Two states at the same level and with the same blocks open. -/
def SameBlocks (st st' : State) : Prop := st'.level = st.level ∧ st'.blocks = st.blocks

theorem SameBlocks.trans {st st' st'' : State} (h : SameBlocks st st') (h' : SameBlocks st' st'') :
    SameBlocks st st'' :=
  ⟨h'.1.trans h.1, h'.2.trans h.2⟩

section

variable (st : State) (line : List Char) (width : Int)

theorem sameBlocks_noteTree (t : Spacing.Tree) : SameBlocks st (st.noteTree t) := by
  have hunder := st.noteTree_under st.level st.blocks st.excessEnds t
  exact ⟨congrArg (fun s => s.level) hunder, congrArg (fun s => s.blocks) hunder⟩

theorem sameBlocks_trackMatrix : SameBlocks st (st.trackMatrix width line).1 := by
  have hunder := st.trackMatrix_under st.level st.blocks st.excessEnds width line
  exact ⟨congrArg (fun o => o.1.level) hunder, congrArg (fun o => o.1.blocks) hunder⟩

theorem sameBlocks_trackCell : SameBlocks st (st.trackCell width line).1 := by
  have hunder := st.trackCell_under st.level st.blocks st.excessEnds width line
  exact ⟨congrArg (fun o => o.1.level) hunder, congrArg (fun o => o.1.blocks) hunder⟩

theorem sameBlocks_track :
    SameBlocks st ((st.trackComments line).trackContinuation line) := by
  have hunder := st.track_under st.level st.blocks st.excessEnds line
  exact ⟨congrArg (fun s => s.level) hunder, congrArg (fun s => s.blocks) hunder⟩

end

/-- A line makes one move with the open blocks of `st`, and its offset is the one that belongs to
the move; the level is still that of `st`. -/
def MovesBy (levels : Int) (st : State) (outcome : State × Except Error Line) : Prop :=
  ∀ l, outcome.2 = .ok l → ∃ m : Move, m.Proper ∧ outcome.1.level = st.level ∧
    outcome.1.blocks = (st.blocks.move m).blocks ∧
    l.offset = m.offset levels (st.blocks.move m).step

theorem MovesBy.of_sameBlocks {levels : Int} {st st' : State} {outcome : State × Except Error Line}
    (hsame : SameBlocks st st') (h : MovesBy levels st' outcome) : MovesBy levels st outcome := by
  intro l hl
  obtain ⟨m, hm, hlevel, hblocks, hoffset⟩ := h l hl
  rw [hsame.2] at hblocks hoffset
  exact ⟨m, hm, hlevel.trans hsame.1, hblocks, hoffset⟩

/-- A line that leaves the blocks alone and has no offset. -/
theorem movesBy_keep (levels : Int) {st st' : State} {l : Line} (hsame : SameBlocks st st')
    (hoffset : l.offset = 0) : MovesBy levels st (st', .ok l) := by
  rintro l' ⟨⟩
  exact ⟨.keep, trivial, hsame.1, hsame.2, hoffset⟩

/-- A keyword and its expression, laid out after a move. -/
theorem movesBy_keywordLine {levels : Int} (st st₁ : State) {m : Move} (hm : m.Proper)
    (hlevel : st₁.level = st.level) (hblocks : st₁.blocks = (st.blocks.move m).blocks)
    {offset : Int} (hoffset : offset = m.offset levels (st.blocks.move m).step) (width add : Int)
    (keyword tail : List Char) :
    MovesBy levels st ((st₁.keywordLine width offset add keyword tail).1,
      .ok (st₁.keywordLine width offset add keyword tail).2) := by
  have hsame : SameBlocks st₁ (st₁.keywordLine width offset add keyword tail).1 :=
    st₁.sameBlocks_noteTree _
  rintro l ⟨⟩
  exact ⟨m, hm, hsame.1.trans hlevel, hsame.2.trans hblocks, hoffset⟩

theorem closeBlock_eq (st : State) :
    st.closeBlock.1.level = st.level ∧
      st.closeBlock.1.blocks = (st.blocks.move .close).blocks ∧
      st.closeBlock.2 = (st.blocks.move .close).step := by
  have hclose := st.closeBlock_under st.level st.blocks st.excessEnds
  change st.closeBlock = _ at hclose
  rw [hclose]
  exact ⟨rfl, rfl, rfl⟩

variable {style : Style} {levels : Int} (hstyle : style.functions = .fixed levels)

include hstyle

theorem layStatement_movesBy (st : State) (line : List Char) :
    MovesBy levels st (st.layStatement style line) := by
  unfold layStatement
  cases Statement.ofLine line with
  | short keyword body close tail =>
      refine movesBy_keep levels ?_ rfl
      exact (st.sameBlocks_noteTree _).trans (sameBlocks_noteTree _ _)
  | functionStart keyword tail =>
      simp only [functionOffset, hstyle]
      exact st.movesBy_keywordLine st.openFunction (m := .function) trivial rfl rfl rfl
        style.width 0
        keyword tail
  | blockStart keyword tail =>
      exact st.movesBy_keywordLine (st.openControl 1) (m := .control 1) (.inl rfl) rfl rfl rfl
        style.width 0 keyword tail
  | switchStart keyword tail =>
      exact st.movesBy_keywordLine (st.openControl 2) (m := .control 2) (.inr rfl) rfl rfl rfl
        style.width 0 keyword tail
  | continuation keyword tail =>
      exact st.movesBy_keywordLine st (m := .keep) trivial rfl rfl rfl style.width (-1) keyword tail
  | blockEnd close tail =>
      obtain ⟨hlevel, hblocks, hstep⟩ := st.closeBlock_eq
      exact st.movesBy_keywordLine st.closeBlock.1 (m := .close) trivial hlevel hblocks
        (congrArg Neg.neg hstep) style.width (-st.closeBlock.2) close tail
  | plain => exact movesBy_keep levels (st.sameBlocks_noteTree _) rfl

theorem layCode_movesBy (st : State) (line : List Char) :
    MovesBy levels st (st.layCode style line) := by
  -- a line in brackets is only given its spacing, so that it makes no move
  have hspaced : ∀ (st' : State) (add : Int), SameBlocks st st' →
      MovesBy levels st ((st'.spaced style.width add line).1,
        .ok (st'.spaced style.width add line).2) :=
    fun st' add hsame => movesBy_keep levels (hsame.trans (st'.sameBlocks_noteTree _)) rfl
  have hmatrix := st.sameBlocks_trackMatrix line style.width
  cases htrack : st.trackMatrix style.width line with
  | mk st₁ result =>
  rw [htrack] at hmatrix
  cases result with
  | error e =>
      simp only [layCode, htrack]
      rintro l ⟨⟩
  | ok change =>
  simp only [layCode, htrack]
  split
  · exact hspaced st₁ st.matrix hmatrix
  · have hcell := hmatrix.trans (st₁.sameBlocks_trackCell line style.width)
    cases htrack' : st₁.trackCell style.width line with
    | mk st₂ result =>
    rw [htrack'] at hcell
    cases result with
    | error e => rintro l ⟨⟩
    | ok change =>
        simp only
        split
        · exact hspaced st₂ st₁.cell hcell
        · exact (layStatement_movesBy hstyle st₂ line).of_sameBlocks hcell

/-- **The offset of a line belongs to its move.** -/
theorem layLine_movesBy (st : State) (line : List Char) :
    MovesBy levels st (st.layLine style line) := by
  have htrack := st.sameBlocks_track line
  simp only [layLine]
  split
  · exact movesBy_keep levels htrack rfl
  · split
    · exact movesBy_keep levels htrack rfl
    · exact (layCode_movesBy hstyle _ line).of_sameBlocks htrack

omit hstyle

/-- The level is `base` and the steps of the open blocks together; these are one or two for control
blocks and one for functions. -/
structure Accounts (base : Int) (st : State) : Prop where
  level_eq : st.level = base + st.blocks.control.sum + st.blocks.functions.sum
  regular : st.blocks.Regular

/-- A line keeps the account, and the level it leads to is not below zero before it is bounded. -/
theorem Accounts.layLine {base : Int} (hbase : 0 ≤ base) {st st' : State} {line : List Char}
    {l : Line} (hstyle : style.functions = .fixed 1) (h : st.Accounts base)
    (hlay : st.layLine style line = (st', .ok l)) :
    (st'.shift l.offset).Accounts base ∧ (st'.shift l.offset).level = st'.level + l.offset := by
  obtain ⟨m, hm, hlevel, hblocks, hoffset⟩ := layLine_movesBy hstyle st line l (by rw [hlay])
  rw [hlay] at hlevel hblocks
  have hregular : st'.blocks.Regular := hblocks ▸ h.regular.move hm
  have htotal : st'.blocks.total = st.blocks.total + l.offset := by
    rw [hblocks, hoffset, Blocks.total_move]
  have hnonneg := hregular.total_nonneg
  have hsum : st'.level + l.offset = base + st'.blocks.total := by
    rw [hlevel, h.level_eq, htotal]
    unfold Blocks.total
    omega
  have hshift : (st'.shift l.offset).level = st'.level + l.offset := by
    show max 0 (st'.level + l.offset) = st'.level + l.offset
    omega
  refine ⟨⟨?_, hregular⟩, hshift⟩
  rw [hshift, hsum]
  show base + (st'.blocks.control.sum + st'.blocks.functions.sum) = _
  rw [← Int.add_assoc]
  rfl

/-! ## Runs -/

/-- The lines that are not blank, as they are laid out one after the other: the state to which each
of them has led, before its offset is added to the level, and the line. -/
def visits (style : Style) (st : State) : List (List Char) → List (State × Line)
  | [] => []
  | line :: rest =>
      if line.all isBlank then st.visits style rest
      else
        match st.layLine style line with
        | (_, .error _) => []
        | (st', .ok l) => (st', l) :: (st'.shift l.offset).visits style rest

/-- The state after some visits that began in `st`. -/
def afterVisits (st : State) (vs : List (State × Line)) : State :=
  (vs.getLast?.map fun v => v.1.shift v.2.offset).getD st

theorem afterVisits_cons (st : State) (v : State × Line) (vs : List (State × Line)) :
    st.afterVisits (v :: vs) = (v.1.shift v.2.offset).afterVisits vs := by
  unfold afterVisits
  rw [List.getLast?_cons]
  cases vs.getLast? with
  | none => rfl
  | some w => rfl

/-- The visits are those of the layout: it writes their lines, and ends in the state after them. -/
theorem layLines_eq_visits (hproper : style.Proper) (st : State) (blank : Bool)
    {lines : List (List Char)} (hlines : ∀ l ∈ lines, BreakFree l) :
    (st.layLines style blank lines).1 = st.afterVisits (st.visits style lines) ∧
      ∃ out, (st.layLines style blank lines).2 = .ok out ∧
        inkedLines out = (st.visits style lines).map fun v => trimEnd v.2.text := by
  induction lines generalizing st blank with
  | nil => exact ⟨rfl, [], rfl, rfl⟩
  | cons line rest ih =>
      have hrest : ∀ l ∈ rest, BreakFree l := fun l hl => hlines l (by simp [hl])
      have hgap : ∀ b, inkedLines (gap b) = [] := by decide
      -- a blank line is no visit, and the gaps around the others have no ink
      by_cases hblank : line.all isBlank = true
      · obtain ⟨hstate, out, hout, htexts⟩ := ih st true hrest
        rw [layLines_cons_of_blank hblank, visits, if_pos hblank]
        refine ⟨hstate, gap (!blank) ++ out, by rw [hout]; rfl, ?_⟩
        rw [inkedLines_append, hgap, htexts]
        rfl
      · obtain ⟨l, hl, hkept⟩ := layLine_ok hproper st (hlines line (by simp)).newline_not_mem
        have hlay : st.layLine style line = ((st.layLine style line).1, .ok l) := Prod.ext rfl hl
        have hink : (trimEnd l.text).all isBlank = false := by
          have heq : ink (trimEnd l.text) = ink line := by rw [ink_trimEnd, hkept.ink_eq]
          rw [Bool.eq_false_iff, ne_eq, ← ink_eq_nil_iff, heq, ink_eq_nil_iff]
          exact hblank
        obtain ⟨hstate, out, hout, htexts⟩ :=
          ih ((st.layLine style line).1.shift l.offset) (gapAfter style l) hrest
        have hvisits : st.visits style (line :: rest) = ((st.layLine style line).1, l) ::
            ((st.layLine style line).1.shift l.offset).visits style rest := by
          rw [visits, if_neg hblank]
          generalize st.layLine style line = outcome at hlay
          rw [hlay]
        rw [layLines_cons_of_layLine (by simpa using hblank) hlay, hvisits, afterVisits_cons]
        refine ⟨hstate, _, by rw [hout]; rfl, ?_⟩
        rw [framed, inkedLines_append, hgap, inkedLines_cons, inkedLines_append, hgap,
          inkedLines_singleton hink, htexts]
        rfl

/-- A text is laid out by the visits of its lines, the first one without its blanks. -/
theorem layText_eq_visits (hproper : style.Proper) (st : State) {source : List Char} {start : Int}
    {stop : Option Int} {first : List Char} {rest : List (List Char)}
    (hlines : selection start stop (splitLines source) = first :: rest) :
    let visits := (st.entered style first).visits style (firstLine (skipBlanks first) :: rest)
    ∃ text, st.layText style source start stop =
        ((st.entered style first).afterVisits visits, .ok text) ∧
      inkedLines (splitLines text) = visits.map fun v => trimEnd v.2.text := by
  intro visits
  have hfree : ∀ l ∈ first :: rest, BreakFree l := fun l hl =>
    breakFree_of_mem_selection (by rw [hlines]; exact hl)
  have hvisits : visits = (st.entered style first).visits style (skipBlanks first :: rest) := by
    show (st.entered style first).visits style (firstLine (skipBlanks first) :: rest) = _
    rw [firstLine_skipBlanks (hfree first (by simp))]
  obtain ⟨hstate, out, hout, htexts⟩ :=
    layLines_eq_visits hproper (st.entered style first) true (breakFree_document hfree)
  rw [← hvisits] at hstate htexts
  have hrun : (st.entered style first).layLines style true (skipBlanks first :: rest) =
      ((st.entered style first).afterVisits visits, .ok out) := Prod.ext hstate hout
  have hdocument := layDocument_of_layLines hproper (hfree first (by simp)) hrun
  -- the document has the lines of the run but for empty ones at its end
  obtain ⟨laid, hlay, -, hbreaks⟩ := layDocument_ok hproper st hfree
  rw [hdocument] at hlay
  obtain rfl := Except.ok.inj hlay
  refine ⟨['\n'].intercalate (out.reverse.dropWhile List.isEmpty).reverse, ?_, ?_⟩
  · simp only [layText, hlines, hdocument]
    rfl
  · rw [inkedLines_splitLines_intercalate hbreaks, inkedLines_dropLastEmpty, htexts]

/-- **Every visit keeps the account.** -/
theorem Accounts.visits {base : Int} (hbase : 0 ≤ base) (hstyle : style.functions = .fixed 1)
    {st : State} (h : st.Accounts base) (lines : List (List Char)) :
    ∀ v ∈ st.visits style lines, (v.1.shift v.2.offset).Accounts base ∧
      (v.1.shift v.2.offset).level = v.1.level + v.2.offset := by
  induction lines generalizing st with
  | nil =>
      intro v hv
      cases hv
  | cons line rest ih =>
      rw [State.visits]
      split
      · exact ih h
      · split
        · intro v hv
          cases hv
        · next st' l hlay =>
            have hstep := h.layLine hbase hstyle hlay
            intro v hv
            rcases List.mem_cons.1 hv with rfl | hv
            · exact hstep
            · exact ih hstep.1 v hv

theorem Accounts.afterVisits {base : Int} (hbase : 0 ≤ base)
    (hstyle : style.functions = .fixed 1) {st : State} (h : st.Accounts base)
    (lines : List (List Char)) : (st.afterVisits (st.visits style lines)).Accounts base := by
  have hvisits := h.visits hbase hstyle lines
  unfold State.afterVisits
  cases hlast : (st.visits style lines).getLast? with
  | none => exact h
  | some v => exact (hvisits v (List.mem_of_getLast? hlast)).1

end State

/-- **The level accounts for the open blocks.** Let a function indent its body by one level, and let
no block be open at the start; `base` is the level of the first line. Then a text has a layout, and
after every line of it, well-formed or not, the level is `base` and the steps of the open blocks
together, with steps of one or two for control blocks and of one for functions. So the level never
has to be bounded: it is what the offset of the line has made it. -/
theorem layText_level_accounts (width : Int) (hwidth : 1 ≤ width) (separate : Bool) (st : State)
    (hblocks : st.blocks = {}) (source : List Char) (start : Int) (stop : Option Int)
    (first : List Char) (rest : List (List Char))
    (hlines : selection start stop (splitLines source) = first :: rest) :
    let style : Style := ⟨width, separate, .ofInt 1⟩
    let base := Int.fdiv (first.takeWhile isBlank).length width
    let visits := { st with level := base }.visits style (firstLine (skipBlanks first) :: rest)
    (∀ v ∈ visits, (v.1.shift v.2.offset).Accounts base ∧
      (v.1.shift v.2.offset).level = v.1.level + v.2.offset) ∧
    ∃ st' text, st.layText style source start stop = (st', .ok text) ∧ st'.Accounts base ∧
      inkedLines (splitLines text) = visits.map fun v => trimEnd v.2.text := by
  intro style base visits
  have hproper : style.Proper := Style.proper_ofInt (by omega) separate 1
  have hbase : 0 ≤ base := Int.fdiv_nonneg (by omega) (by omega)
  have hentered : (st.entered style first).Accounts base := by
    constructor
    · show base = base + st.blocks.control.sum + st.blocks.functions.sum
      rw [hblocks]
      simp
    · show st.blocks.Regular
      rw [hblocks]
      exact Blocks.Regular.empty
  obtain ⟨text, hlay, htexts⟩ := State.layText_eq_visits hproper st hlines
  exact ⟨hentered.visits hbase rfl _, _, text, hlay, hentered.afterVisits hbase rfl _, htexts⟩

/-- A class with an `end` too many, a matrix over two lines with a keyword in it, and a comment. -/
def unevenSource : List Char :=
  "  classdef A\nx=[1,...\nif 2]\n% if\nend\nend\nswitch y\ncase 1".toList

theorem layText_level_accounts_uneven :
    (1 : Int) ≤ 2 ∧ ({} : State).blocks = {} ∧
      selection 1 none (splitLines unevenSource) = splitLines unevenSource ∧
      ∃ st' text, ({} : State).layText ⟨2, true, .ofInt 1⟩ unevenSource 1 none =
        (st', .ok text) ∧ st'.Accounts 1 := by
  have hlines : selection 1 none (splitLines unevenSource) = "  classdef A".toList ::
      ["x=[1,...".toList, "if 2]".toList, "% if".toList, "end".toList, "end".toList,
        "switch y".toList, "case 1".toList] := by decide +kernel
  have hall : selection 1 none (splitLines unevenSource) = splitLines unevenSource := by
    decide +kernel
  obtain ⟨-, st', text, hlay, haccounts, -⟩ :=
    layText_level_accounts 2 (by decide) true {} rfl unevenSource 1 none _ _ hlines
  exact ⟨by decide, rfl, hall, st', text, hlay, haccounts⟩

end Pcode.Indent
