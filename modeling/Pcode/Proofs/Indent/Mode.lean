import Mathlib
import Pcode.Proofs.Indent.Level
import Pcode.Proofs.Indent.LineEnd

set_option autoImplicit false

/-! # What a layout takes from the indentation of functions

How far the body of a function is indented matters to a line only if the line opens a function; the
others are laid out in one way for all, and never open one (`State.layLine_parts`). Which lines
open functions is seen from the moves of the text, and these are the same for every number.

Main statements: without a line that opens a function, lines are laid out in one way for all
(`State.layLines_indenting_of_not_mem`); with one, there is no layout for an indentation that is no
number (`State.layLines_indenting_of_mem`). Both are carried over to files, of which every number
gives a layout (`State.layFile_ok`). -/

namespace Pcode.Indent

open Pcode.Text

/-- The style with another indentation of the bodies of functions. -/
def Style.indenting (style : Style) (f : FunctionIndent) : Style := { style with functions := f }

/-- Every move but one opens no function. -/
theorem Blocks.functions_move_le {b : Blocks} {m : Move} (hm : m ≠ .function) :
    (b.move m).blocks.functions.length ≤ b.functions.length := by
  obtain ⟨control, functions⟩ := b
  cases m with
  | keep => exact le_rfl
  | control step => exact le_rfl
  | function => exact absurd rfl hm
  | close =>
      cases control with
      | cons step rest => exact le_rfl
      | nil =>
          cases functions with
          | cons step rest => exact Nat.le_succ _
          | nil => exact le_rfl

namespace State

/-! ## One line -/

/-- How a line is laid out, whatever the indentation of functions: in one way for all, which leaves
the blocks alone, or as the statement it is, from a state with the same blocks. -/
def Dispatched (style : Style) (st : State) (line : List Char)
    (lay : Style → State × Except Error Line) : Prop :=
  (∃ outcome : State × Except Error Line, SameBlocks st outcome.1 ∧
    ∀ f, lay (style.indenting f) = outcome) ∨
  ∃ st', SameBlocks st st' ∧
    ∀ f, lay (style.indenting f) = st'.layStatement (style.indenting f) line

theorem Dispatched.of_sameBlocks {style : Style} {st st' : State} {line : List Char}
    {lay : Style → State × Except Error Line} (hsame : SameBlocks st st')
    (h : st'.Dispatched style line lay) : st.Dispatched style line lay := by
  rcases h with ⟨outcome, hblocks, hlay⟩ | ⟨st'', hblocks, hlay⟩
  · exact .inl ⟨outcome, hsame.trans hblocks, hlay⟩
  · exact .inr ⟨st'', hsame.trans hblocks, hlay⟩

theorem layCode_dispatched (style : Style) (st : State) (line : List Char) :
    st.Dispatched style line fun style => st.layCode style line := by
  -- brackets are followed first, and the style has a part in that with its width only
  have hwidth : ∀ f, (style.indenting f).width = style.width := fun _ => rfl
  have hmatrix := st.sameBlocks_trackMatrix line style.width
  unfold layCode
  cases htrack : st.trackMatrix style.width line with
  | mk st₁ result =>
  rw [htrack] at hmatrix
  cases result with
  | error e => exact .inl ⟨(st₁, .error e), hmatrix, fun f => by simp only [hwidth, htrack]⟩
  | ok change =>
  by_cases hin : (change != 0 || st.matrix != 0) = true
  · exact .inl ⟨_, hmatrix.trans (st₁.sameBlocks_noteTree _),
      fun f => by simp only [hwidth, htrack, if_pos hin]; rfl⟩
  have hcell := hmatrix.trans (st₁.sameBlocks_trackCell line style.width)
  cases htrack' : st₁.trackCell style.width line with
  | mk st₂ result =>
  rw [htrack'] at hcell
  cases result with
  | error e =>
      exact .inl ⟨(st₂, .error e), hcell,
        fun f => by simp only [hwidth, htrack, if_neg hin, htrack']⟩
  | ok change' =>
  by_cases hin' : (change' != 0 || st₁.cell != 0) = true
  · exact .inl ⟨_, hcell.trans (st₂.sameBlocks_noteTree _),
      fun f => by simp only [hwidth, htrack, if_neg hin, htrack', if_pos hin']; rfl⟩
  · exact .inr ⟨st₂, hcell,
      fun f => by simp only [hwidth, htrack, if_neg hin, htrack', if_neg hin']⟩

theorem layLine_dispatched (style : Style) (st : State) (line : List Char) :
    st.Dispatched style line fun style => st.layLine style line := by
  have htrack := st.sameBlocks_track line
  unfold layLine
  generalize (st.trackComments line).trackContinuation line = st' at htrack
  by_cases hblock : (st'.blockComment != .outside) = true
  · exact .inl ⟨_, htrack, fun f => if_pos hblock⟩
  by_cases hcomment : (st'.commentRun == 2 || isCommandLine line) = true
  · exact .inl ⟨(st', .ok ⟨0, st'.indent style.width 0 ++ trim line⟩), htrack,
      fun f => by simp only [if_neg hblock, if_pos hcomment]; rfl⟩
  · simp only [if_neg hblock, if_neg hcomment]
    exact (st'.layCode_dispatched style line).of_sameBlocks htrack

/-- What the layout of a line takes from the indentation of functions. Either it takes nothing, and
opens no function; or it opens a function, and fails for an indentation that is no number. -/
def Parts (style : Style) (st : State) (lay : Style → State × Except Error Line) : Prop :=
  ((∀ f, lay (style.indenting f) = lay style) ∧
    (lay style).1.blocks.functions.length ≤ st.blocks.functions.length) ∨
  ((∀ kind, (lay (style.indenting (.invalid kind))).2 = .error (.functionIndent kind)) ∧
    (lay style).1.blocks.functions.length = st.blocks.functions.length + 1)

theorem parts_of_same {style : Style} {st : State} {lay : Style → State × Except Error Line}
    (hsame : ∀ f, lay (style.indenting f) = lay style)
    (hblocks : (lay style).1.blocks.functions = st.blocks.functions) : st.Parts style lay :=
  .inl ⟨hsame, Nat.le_of_eq (congrArg List.length hblocks)⟩

theorem functions_noteTree (st : State) (t : Spacing.Tree) :
    (st.noteTree t).blocks.functions = st.blocks.functions :=
  congrArg Blocks.functions (st.sameBlocks_noteTree t).2

section

variable {style : Style} {levels : Int} (hstyle : style.functions = .fixed levels)

include hstyle

theorem layStatement_parts (st : State) (line : List Char) :
    st.Parts style fun style => st.layStatement style line := by
  unfold layStatement
  cases Statement.ofLine line with
  | short keyword body close tail =>
      refine parts_of_same (fun f => rfl) ?_
      exact (functions_noteTree _ _).trans (functions_noteTree st _)
  | functionStart keyword tail =>
      refine .inr ⟨fun kind => rfl, ?_⟩
      simp only [functionOffset, hstyle]
      exact congrArg List.length (st.openFunction.functions_noteTree _)
  | blockStart keyword tail => exact parts_of_same (fun f => rfl) (functions_noteTree _ _)
  | switchStart keyword tail => exact parts_of_same (fun f => rfl) (functions_noteTree _ _)
  | continuation keyword tail => exact parts_of_same (fun f => rfl) (functions_noteTree _ _)
  | blockEnd close tail =>
      -- the closing word may take the innermost function away
      have hclose : st.closeBlock.1.blocks.functions.length ≤ st.blocks.functions.length := by
        rw [st.closeBlock_eq.2.1]
        exact Blocks.functions_move_le (by simp)
      refine .inl ⟨fun f => rfl, ?_⟩
      exact (Nat.le_of_eq (congrArg List.length (functions_noteTree _ _))).trans hclose
  | plain => exact parts_of_same (fun f => rfl) (functions_noteTree _ _)

/-- **Only a line that opens a function looks at the indentation of functions.** -/
theorem layLine_parts (st : State) (line : List Char) :
    st.Parts style fun style => st.layLine style line := by
  rcases st.layLine_dispatched style line with ⟨outcome, hsame, hlay⟩ | ⟨st', hsame, hlay⟩
  · refine parts_of_same (fun f => (hlay f).trans (hlay style.functions).symm) ?_
    rw [show st.layLine style line = outcome from hlay style.functions]
    exact congrArg Blocks.functions hsame.2
  · have hparts := layStatement_parts hstyle st' line
    have hown : st.layLine style line = st'.layStatement style line := hlay style.functions
    unfold Parts at hparts ⊢
    simpa only [hlay, hown, hsame.2] using hparts

/-- The move of a line, beside its layout: a line opens a function exactly if that is its move. -/
theorem exists_move (st : State) {line : List Char} (hblank : ¬line.all isBlank = true)
    (rest : List (List Char)) : ∃ m : Move,
    (m ≠ .function → ∀ f, st.layLine (style.indenting f) line = st.layLine style line) ∧
    (m = .function → ∀ kind,
      (st.layLine (style.indenting (.invalid kind)) line).2 = .error (.functionIndent kind)) ∧
    ((∃ st' e, st.layLine style line = (st', .error e) ∧ st.moves style (line :: rest) = [m]) ∨
      ∃ st' l, st.layLine style line = (st', .ok l) ∧
        st.moves style (line :: rest) = m :: (st'.shift l.offset).moves style rest) := by
  obtain ⟨m, st', r, -, hlay⟩ := st.layLine_steered hstyle line
  have hmoves := moves_cons hblank hlay rest
  have hown := hlay st.level st.blocks st.excessEnds
  change st.layLine style line = _ at hown
  have hblocks : (st.layLine style line).1.blocks = (st.blocks.move m).blocks := by rw [hown]; rfl
  refine ⟨m, fun hm => ?_, ?_, ?_⟩
  · rcases layLine_parts hstyle st line with ⟨hsame, -⟩ | ⟨-, hmore⟩
    · exact hsame
    · rw [hblocks] at hmore
      exact absurd hmore (Nat.ne_of_lt (Nat.lt_succ_of_le (Blocks.functions_move_le hm)))
  · rintro rfl
    rcases layLine_parts hstyle st line with ⟨-, hle⟩ | ⟨hfails, -⟩
    · rw [hblocks] at hle
      exact absurd hle (Nat.not_succ_le_self _)
    · exact hfails
  · cases r with
    | error e => exact .inl ⟨_, e, hown, hmoves⟩
    | ok text =>
        refine .inr ⟨_, _, hown, ?_⟩
        rw [hmoves]
        exact congrArg (m :: ·) (moves_under st' _ _ _ rest).symm

/-! ## Runs -/

/-- **Without a function, lines are laid out in one way for all.** -/
theorem layLines_indenting_of_not_mem {st : State} {lines : List (List Char)}
    (h : Move.function ∉ st.moves style lines) (f : FunctionIndent) (blank : Bool) :
    st.layLines (style.indenting f) blank lines = st.layLines style blank lines := by
  induction lines generalizing st blank with
  | nil => rfl
  | cons line rest ih =>
      by_cases hblank : line.all isBlank = true
      · rw [moves, if_pos hblank] at h
        rw [layLines_cons_of_blank hblank, layLines_cons_of_blank hblank, ih h]
      · obtain ⟨m, hsame, -, hstep⟩ := exists_move hstyle st hblank rest
        rcases hstep with ⟨st', e, hlay, hmoves⟩ | ⟨st', l, hlay, hmoves⟩
        · rw [hmoves, List.mem_singleton] at h
          rw [layLines, layLines, if_neg hblank, if_neg hblank, hsame (Ne.symm h) f, hlay]
        · rw [hmoves, List.mem_cons, not_or] at h
          have hother := (hsame (Ne.symm h.1) f).trans hlay
          have hink : line.all isBlank = false := by simpa using hblank
          rw [layLines_cons_of_layLine hink hlay, layLines_cons_of_layLine hink hother, ih h.2]
          rfl

/-- **With a function, there is no layout** for an indentation that is no number. -/
theorem layLines_indenting_of_mem {st : State} {lines : List (List Char)}
    (h : Move.function ∈ st.moves style lines) (kind : NonNumber) (blank : Bool) :
    (st.layLines (style.indenting (.invalid kind)) blank lines).2 =
      .error (.functionIndent kind) := by
  induction lines generalizing st blank with
  | nil => exact absurd h List.not_mem_nil
  | cons line rest ih =>
      by_cases hblank : line.all isBlank = true
      · rw [moves, if_pos hblank] at h
        rw [layLines_cons_of_blank hblank, ih h]
        rfl
      · obtain ⟨m, hsame, hfails, hstep⟩ := exists_move hstyle st hblank rest
        by_cases hm : m = .function
        · have hline := hfails hm kind
          rw [layLines, if_neg hblank]
          generalize st.layLine (style.indenting (.invalid kind)) line = outcome at hline
          obtain ⟨st', result⟩ := outcome
          cases hline
          rfl
        · rcases hstep with ⟨st', e, hlay, hmoves⟩ | ⟨st', l, hlay, hmoves⟩
          · rw [hmoves, List.mem_singleton] at h
            exact absurd h.symm hm
          · rw [hmoves, List.mem_cons, or_iff_right (Ne.symm hm)] at h
            have hother := (hsame hm (.invalid kind)).trans hlay
            rw [layLines_cons_of_layLine (by simpa using hblank) hother, ih h]
            rfl

end

/-! ## Files -/

/-- The first line from `start` to `stop` of a file, an empty one if there is none, and the
others. -/
def fileFirst (lines : List (List Char)) (start : Int) (stop : Option Int) : List Char :=
  (selection start stop lines).headD []

def fileRest (lines : List (List Char)) (start : Int) (stop : Option Int) : List (List Char) :=
  (selection start stop lines).tail

/-- The moves of the lines from `start` to `stop` of a file. -/
def fileMoves (style : Style) (st : State) (lines : List (List Char)) (start : Int)
    (stop : Option Int) : List Move :=
  st.moves style (firstLine (skipBlanks (fileFirst lines start stop)) :: fileRest lines start stop)

/-- The level that the first line gives has no part in the moves. -/
theorem fileMoves_eq (style : Style) (st : State) (lines : List (List Char)) (start : Int)
    (stop : Option Int) :
    st.fileMoves style lines start stop =
      (st.entered style (fileFirst lines start stop)).moves style
        (firstLine (skipBlanks (fileFirst lines start stop)) :: fileRest lines start stop) :=
  (moves_under st _ st.blocks st.excessEnds _).symm

/-- Nor have the blocks that are open before it. -/
theorem fileMoves_blocks (style : Style) (b : Blocks) (lines : List (List Char)) (start : Int)
    (stop : Option Int) :
    ({ blocks := b } : State).fileMoves style lines start stop =
      ({} : State).fileMoves style lines start stop :=
  moves_under {} 0 b 0 _

/-- A file is laid out as a document. -/
theorem layFile_eq_layDocument (style : Style) (st : State) (lines : List (List Char)) (start : Int)
    (stop : Option Int) :
    let laid := st.layDocument style (fileFirst lines start stop) (fileRest lines start stop)
    st.layFile style lines start stop =
      (laid.1, laid.2.map fun out => if out.isEmpty then [[]] else out) := by
  unfold layFile fileFirst fileRest
  cases selection start stop lines with
  | nil => rfl
  | cons first rest => rfl

theorem layFile_of_zero (style : Style) (hwidth : style.width = 0) (st : State)
    (lines : List (List Char)) (start : Int) (stop : Option Int) :
    st.layFile style lines start stop = (st, .error .levelOfZeroWidth) := by
  have henter : ∀ first, st.enter style first = .error .levelOfZeroWidth := fun _ => if_pos hwidth
  simp only [layFile_eq_layDocument, layDocument, henter]
  rfl

section

variable {style : Style} {levels : Int} (hstyle : style.functions = .fixed levels)
  (hwidth : style.width ≠ 0) {st : State} {lines : List (List Char)} {start : Int}
  {stop : Option Int}

include hstyle hwidth

theorem layFile_indenting_of_not_mem (h : Move.function ∉ st.fileMoves style lines start stop)
    (f : FunctionIndent) :
    st.layFile (style.indenting f) lines start stop = st.layFile style lines start stop := by
  rw [fileMoves_eq] at h
  have henter : st.enter style (fileFirst lines start stop) = .ok (st.entered style _) :=
    if_neg hwidth
  have henter' : st.enter (style.indenting f) (fileFirst lines start stop) =
      .ok (st.entered style _) := if_neg hwidth
  simp only [layFile_eq_layDocument, layDocument, henter, henter',
    layLines_indenting_of_not_mem hstyle h f true]

theorem layFile_indenting_of_mem (h : Move.function ∈ st.fileMoves style lines start stop)
    (kind : NonNumber) :
    (st.layFile (style.indenting (.invalid kind)) lines start stop).2 =
      .error (.functionIndent kind) := by
  rw [fileMoves_eq] at h
  have henter : st.enter (style.indenting (.invalid kind)) (fileFirst lines start stop) =
      .ok (st.entered style _) := if_neg hwidth
  simp only [layFile_eq_layDocument, layDocument, henter,
    layLines_indenting_of_mem hstyle h kind true]
  rfl

end

/-- Lines with their line ends have a layout. -/
theorem layLines_isOk {style : Style} (hstyle : style.Proper) (st : State) (blank : Bool)
    {lines : List (List Char)} (hlines : ∀ l ∈ lines, ∃ line, EndedLine l line) :
    ∃ out, (st.layLines style blank lines).2 = .ok out := by
  induction lines generalizing st blank with
  | nil => exact ⟨[], rfl⟩
  | cons l rest ih =>
      have hrest : ∀ l ∈ rest, ∃ line, EndedLine l line := fun l hl => hlines l (by simp [hl])
      by_cases hblank : l.all isBlank = true
      · obtain ⟨out, hout⟩ := ih st true hrest
        rw [layLines_cons_of_blank hblank]
        exact ⟨gap (!blank) ++ out, by rw [hout]; rfl⟩
      · obtain ⟨line, hline⟩ := hlines l (by simp)
        have hink : line.all isBlank = false := by
          rw [← hline.all_eq]
          simpa using hblank
        obtain ⟨laid, hlaid, -⟩ := layLine_ok hstyle st hline.1
        rw [← hline.layLine_eq hink] at hlaid
        obtain ⟨out, hout⟩ :=
          ih ((st.layLine style l).1.shift laid.offset) (gapAfter style laid) hrest
        rw [layLines_cons_of_layLine (by simpa using hblank) (Prod.ext rfl hlaid)]
        exact ⟨_, by rw [hout]; rfl⟩

end State

theorem endedLine_of_mem_fileLinesFrom {s line l : List Char} (hline : '\n' ∉ line)
    (h : l ∈ fileLinesFrom line s) : ∃ v, EndedLine l v := by
  induction s generalizing line with
  | nil =>
      rw [fileLinesFrom] at h
      split at h
      · exact absurd h List.not_mem_nil
      · rw [List.mem_singleton.1 h]
        exact ⟨line.reverse, by simpa using hline, .inl rfl⟩
  | cons c s ih =>
      rw [fileLinesFrom] at h
      split at h
      · next hc =>
          rcases List.mem_cons.1 h with rfl | h
          · rw [beq_iff_eq.1 hc, List.reverse_cons]
            exact ⟨line.reverse, by simpa using hline, .inr rfl⟩
          · exact ih List.not_mem_nil h
      · next hc =>
          refine ih (fun hmem => ?_) h
          rcases List.mem_cons.1 hmem with rfl | hmem
          · exact hc (by decide)
          · exact hline hmem

/-- **Every number gives a file a layout**, which has a line at least. -/
theorem State.layFile_ok {style : Style} (hstyle : style.Proper) (st : State) (text : List Char)
    (start : Int) (stop : Option Int) :
    ∃ out, (st.layFile style (fileLines text) start stop).2 = .ok out ∧ out ≠ [] := by
  have hfirst : ∀ s, EndedLine (firstLine s) (firstLine s) := fun s =>
    ⟨fun hmem => by simpa using List.mem_takeWhile_imp hmem, .inl rfl⟩
  have hrest : ∀ l ∈ fileRest (fileLines text) start stop, ∃ v, EndedLine l v := fun l hl =>
    endedLine_of_mem_fileLinesFrom List.not_mem_nil
      (mem_of_mem_selection (List.mem_of_mem_tail hl))
  simp only [layFile_eq_layDocument, layDocument]
  generalize fileFirst (fileLines text) start stop = first at *
  have henter : st.enter style first = .ok (st.entered style first) := if_neg hstyle.width_ne
  obtain ⟨out, hout⟩ := layLines_isOk hstyle (st.entered style first) true
    (List.forall_mem_cons.2 ⟨⟨_, hfirst (skipBlanks first)⟩, hrest⟩)
  refine ⟨_, by simp only [henter, hout]; rfl, ?_⟩
  -- an empty layout is shown as one empty line
  dsimp only
  split
  · simp
  · next hne => simpa using hne

end Pcode.Indent
