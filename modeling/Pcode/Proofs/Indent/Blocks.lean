import Pcode.Proofs.Indent.Document

set_option autoImplicit false

/-! # What a layout does with the open blocks

A line opens a block, closes one, or leaves them alone, and which of these it does depends
neither on the open blocks nor on the level (`State.layLine_steered`). So a text stands for a list
of moves, and the open blocks enter its layout only through the steps of those that are closed.

Main statements: the layout of a text is a function of the steps that its moves close
(`State.layText_steered`); all blocks that a layout leaves open have a step of one or two
(`Blocks.Regular.follow`); and blocks of step one that lie below change no step that is closed as
long as no closing word is in excess (`Blocks.Beneath.steps_eq`). -/

namespace Pcode.Indent

open Pcode.Text

/-! ## Moves -/

/-- What a line does with the open blocks. -/
inductive Move where
  | keep
  | control (step : Int)
  | function
  | close
deriving DecidableEq

/-- The blocks that statements open have a step of one or two. -/
def Move.Proper : Move → Prop
  | control step => step = 1 ∨ step = 2
  | _ => True

/-- The blocks after a move, the step of the block it has closed, and the number of closing words
in excess. -/
structure Moved where
  blocks : Blocks
  step : Int := 0
  excess : Nat := 0

namespace Blocks

/-- Closing takes the innermost control block and, without one, the innermost function. -/
def move (b : Blocks) : Move → Moved
  | .keep => { blocks := b }
  | .control step => { blocks := { b with control := step :: b.control } }
  | .function => { blocks := { b with functions := 1 :: b.functions } }
  | .close =>
      match b.control, b.functions with
      | step :: rest, _ => { blocks := { b with control := rest }, step := step }
      | [], step :: rest => { blocks := { b with functions := rest }, step := step }
      | [], [] => { blocks := b, excess := 1 }

/-- The blocks after some moves, the steps of the moves, and the closing words in excess. -/
def follow (b : Blocks) : List Move → Blocks × List Int × Nat
  | [] => (b, [], 0)
  | m :: ms =>
      let next := (b.move m).blocks.follow ms
      (next.1, (b.move m).step :: next.2.1, (b.move m).excess + next.2.2)

end Blocks

/-! ## Lines -/

namespace State

/-- The state at another level and with other open blocks. -/
def under (st : State) (level : Int) (b : Blocks) (n : Nat) : State :=
  { st with level := level, blocks := b, excessEnds := n }

variable (st : State) (level : Int) (b : Blocks) (n : Nat)

@[simp] theorem matrix_under : (st.under level b n).matrix = st.matrix := rfl

@[simp] theorem cell_under : (st.under level b n).cell = st.cell := rfl

@[simp] theorem blockComment_under : (st.under level b n).blockComment = st.blockComment := rfl

@[simp] theorem commentRun_under : (st.under level b n).commentRun = st.commentRun := rfl

@[simp] theorem noteTree_under (t : Spacing.Tree) :
    (st.under level b n).noteTree t = (st.noteTree t).under level b n := by
  unfold noteTree
  split
  · rfl
  · rfl

@[simp] theorem space_under (s : List Char) :
    (st.under level b n).space s = ((st.space s).1.under level b n, (st.space s).2) := by
  simp only [space, noteTree_under]

@[simp] theorem code_under (s : List Char) :
    (st.under level b n).code s = ((st.code s).1.under level b n, (st.code s).2) := by
  simp only [code, noteTree_under]

/-- The indentation in a state, by the level. -/
theorem indent_under (width add : Int) :
    (st.under level b n).indent width add = (st.under level {} 0).indent width add := rfl

theorem spaced_under (width add : Int) (line : List Char) :
    (st.under level b n).spaced width add line =
      ((st.space line).1.under level b n,
        ⟨0, (st.under level {} 0).indent width add ++ (st.space line).2⟩) := by
  simp only [spaced, space_under, indent_under st level b n]

theorem keywordLine_under (width offset add : Int) (keyword tail : List Char) :
    (st.under level b n).keywordLine width offset add keyword tail =
      ((st.space tail).1.under level b n,
        ⟨offset, (st.under level {} 0).indent width add ++ keyword ++
          ' ' :: (st.space tail).2⟩) := by
  simp only [keywordLine, space_under, indent_under st level b n]

theorem trackMatrix_under (width : Int) (line : List Char) :
    (st.under level b n).trackMatrix width line =
      ((st.trackMatrix width line).1.under level b n, (st.trackMatrix width line).2) := by
  unfold trackMatrix
  simp only [code_under, matrix_under]
  cases trackBracket '[' ']' width (st.code line).1.matrix (st.code line).2 with
  | error e => rfl
  | ok tracked => rfl

theorem trackCell_under (width : Int) (line : List Char) :
    (st.under level b n).trackCell width line =
      ((st.trackCell width line).1.under level b n, (st.trackCell width line).2) := by
  unfold trackCell
  simp only [code_under, cell_under]
  cases trackBracket '{' '}' width (st.code line).1.cell (st.code line).2 with
  | error e => rfl
  | ok tracked => rfl

theorem track_under (line : List Char) :
    ((st.under level b n).trackComments line).trackContinuation line =
      ((st.trackComments line).trackContinuation line).under level b n := by
  have hcomments : (st.under level b n).trackComments line =
      (st.trackComments line).under level b n := rfl
  rw [hcomments]
  generalize st.trackComments line = st'
  have hsaw : { st'.under level b n with sawComment := false } =
      { st' with sawComment := false }.under level b n := rfl
  unfold trackContinuation
  simp only [hsaw, code_under]
  rfl

/-- A function that lays out a line makes one move, the same at every level and with any blocks
open; the line may depend on the level and on the step that is closed. -/
def Steered (st : State) (lay : State → State × Except Error Line) : Prop :=
  ∃ (m : Move) (st' : State) (r : Except Error (Int → Int → Line)), m.Proper ∧
    ∀ level b n, lay (st.under level b n) =
      (st'.under level (b.move m).blocks (n + (b.move m).excess),
        r.map fun line => line level (b.move m).step)

theorem closeBlock_under :
    (st.under level b n).closeBlock =
      (st.under level (b.move .close).blocks (n + (b.move .close).excess),
        (b.move .close).step) := by
  obtain ⟨control, functions⟩ := b
  cases control with
  | cons step rest => rfl
  | nil =>
      cases functions with
      | cons step rest => rfl
      | nil => rfl

/-- A keyword and its expression, laid out after a move. -/
theorem steered_of_keywordLine {m : Move} (hm : m.Proper) (width : Int) (offset add : Int → Int)
    (keyword tail : List Char) {lay : State → State × Except Error Line}
    (h : ∀ level b n, lay (st.under level b n) =
      let next := (st.under level (b.move m).blocks (n + (b.move m).excess)).keywordLine width
        (offset (b.move m).step) (add (b.move m).step) keyword tail
      (next.1, .ok next.2)) :
    st.Steered lay := by
  refine ⟨m, (st.space tail).1, .ok fun level step =>
    ⟨offset step, (st.under level {} 0).indent width (add step) ++ keyword ++
      ' ' :: (st.space tail).2⟩, hm, fun level b n => ?_⟩
  rw [h level b n]
  simp only [keywordLine_under]
  rfl

variable {style : Style} {levels : Int}

theorem layStatement_steered (hstyle : style.functions = .fixed levels) (line : List Char) :
    st.Steered fun st => st.layStatement style line := by
  -- for each kind of statement its move, and its line as a function of the level
  unfold layStatement
  cases Statement.ofLine line with
  | short keyword body close tail =>
      refine ⟨.keep, ((st.space body).1.space tail).1, .ok fun level _ =>
        ⟨0, (st.under level {} 0).indent style.width 0 ++ keyword ++ ' ' :: (st.space body).2 ++
          ' ' :: close ++ ' ' :: ((st.space body).1.space tail).2⟩, trivial, fun level b n => ?_⟩
      simp only [space_under, indent_under st level b n]
      rfl
  | functionStart keyword tail =>
      apply st.steered_of_keywordLine (m := .function) trivial style.width (fun _ => levels)
        (fun _ => 0) keyword tail
      intro level b n
      simp only [functionOffset, hstyle]
      rfl
  | blockStart keyword tail =>
      exact st.steered_of_keywordLine (m := .control 1) (.inl rfl) style.width (fun _ => 1)
        (fun _ => 0) keyword tail fun level b n => rfl
  | switchStart keyword tail =>
      exact st.steered_of_keywordLine (m := .control 2) (.inr rfl) style.width (fun _ => 2)
        (fun _ => 0) keyword tail fun level b n => rfl
  | continuation keyword tail =>
      exact st.steered_of_keywordLine (m := .keep) trivial style.width (fun _ => 0)
        (fun _ => -1) keyword tail fun level b n => rfl
  | blockEnd close tail =>
      apply st.steered_of_keywordLine (m := .close) trivial style.width (fun step => -step)
        (fun step => -step) close tail
      intro level b n
      simp only [closeBlock_under]
  | plain =>
      refine ⟨.keep, (st.space line).1, .ok fun level _ =>
        ⟨0, (st.under level {} 0).indent style.width 0 ++ (st.space line).2⟩, trivial,
        fun level b n => ?_⟩
      simp only [spaced_under]
      rfl

/-- A line that is only given its spacing makes no move. -/
theorem steered_of_spaced (st' : State) (width add : Int) (line : List Char)
    {lay : State → State × Except Error Line}
    (h : ∀ level b n, lay (st.under level b n) =
      let next := (st'.under level b n).spaced width add line
      (next.1, .ok next.2)) :
    st.Steered lay := by
  refine ⟨.keep, (st'.space line).1, .ok fun level _ =>
    ⟨0, (st'.under level {} 0).indent width add ++ (st'.space line).2⟩, trivial,
    fun level b n => ?_⟩
  rw [h level b n]
  simp only [spaced_under]
  rfl

theorem layCode_steered (hstyle : style.functions = .fixed levels) (line : List Char) :
    st.Steered fun st => st.layCode style line := by
  unfold layCode
  simp only
  cases hmatrix : (st.trackMatrix style.width line).2 with
  | error e =>
      refine ⟨.keep, (st.trackMatrix style.width line).1, .error e, trivial, fun level b n => ?_⟩
      simp only [trackMatrix_under, hmatrix]
      rfl
  | ok change =>
      -- inside brackets a line is only given its spacing, whatever else it holds
      by_cases hin : (change != 0 || st.matrix != 0) = true
      · apply st.steered_of_spaced (st.trackMatrix style.width line).1 style.width st.matrix line
        intro level b n
        simp only [trackMatrix_under, hmatrix, matrix_under]
        exact if_pos hin
      generalize hnext : (st.trackMatrix style.width line).1 = next
      cases hcell : (next.trackCell style.width line).2 with
      | error e =>
          refine ⟨.keep, (next.trackCell style.width line).1, .error e, trivial,
            fun level b n => ?_⟩
          simp only [trackMatrix_under, hmatrix, matrix_under, if_neg hin, hnext, trackCell_under,
            hcell]
          rfl
      | ok change' =>
          by_cases hin' : (change' != 0 || next.cell != 0) = true
          · apply st.steered_of_spaced (next.trackCell style.width line).1 style.width next.cell
              line
            intro level b n
            simp only [trackMatrix_under, hmatrix, matrix_under, if_neg hin, hnext,
              trackCell_under, hcell, cell_under]
            exact if_pos hin'
          · obtain ⟨m, st', r, hm, hlay⟩ :=
              (next.trackCell style.width line).1.layStatement_steered hstyle line
            refine ⟨m, st', r, hm, fun level b n => ?_⟩
            rw [← hlay level b n]
            simp only [trackMatrix_under, hmatrix, matrix_under, if_neg hin, hnext,
              trackCell_under, hcell, cell_under]
            exact if_neg hin'

/-- **A line makes one move**, whatever the level and the open blocks. -/
theorem layLine_steered (hstyle : style.functions = .fixed levels) (line : List Char) :
    st.Steered fun st => st.layLine style line := by
  unfold layLine
  simp only
  generalize hnext : (st.trackComments line).trackContinuation line = next
  by_cases hblock : (next.blockComment != .outside) = true
  · refine ⟨.keep, next, .ok fun _ _ => ⟨0, trimEnd line⟩, trivial, fun level b n => ?_⟩
    simp only [track_under, hnext, blockComment_under, if_pos hblock]
    rfl
  · by_cases hcomment : (next.commentRun == 2 || isCommandLine line) = true
    · refine ⟨.keep, next, .ok fun level _ =>
        ⟨0, (next.under level {} 0).indent style.width 0 ++ trim line⟩, trivial,
        fun level b n => ?_⟩
      simp only [track_under, hnext, blockComment_under, if_neg hblock, commentRun_under,
        if_pos hcomment]
      rfl
    · obtain ⟨m, st', r, hm, hlay⟩ := next.layCode_steered hstyle line
      refine ⟨m, st', r, hm, fun level b n => ?_⟩
      rw [← hlay level b n]
      simp only [track_under, hnext, blockComment_under, if_neg hblock, commentRun_under,
        if_neg hcomment]

/-! ## Texts -/

end State

/-- The move of a line, seen from the state that it leads to when no block was open. -/
def Move.ofState (st : State) : Move :=
  match st.blocks.control, st.blocks.functions, st.excessEnds with
  | step :: _, _, _ => .control step
  | [], _ :: _, _ => .function
  | [], [], 0 => .keep
  | [], [], _ + 1 => .close

theorem Move.ofState_under (m : Move) (st : State) (level : Int) :
    ofState (st.under level (({} : Blocks).move m).blocks (0 + (({} : Blocks).move m).excess)) =
      m := by
  cases m with
  | keep => rfl
  | control step => rfl
  | function => rfl
  | close => rfl

namespace State

/-- The moves of some lines. -/
def moves (style : Style) (st : State) : List (List Char) → List Move
  | [] => []
  | line :: rest =>
      if line.all isBlank then st.moves style rest
      else
        let next := (st.under 0 {} 0).layLine style line
        Move.ofState next.1 ::
          match next.2 with
          | .ok _ => next.1.moves style rest
          | .error _ => []

/-- The moves of the lines from `start` to `stop` of a source text. -/
def textMoves (style : Style) (st : State) (source : List Char) (start : Int)
    (stop : Option Int) : List Move :=
  match selection start stop (splitLines source) with
  | [] => []
  | first :: rest => st.moves style (firstLine (skipBlanks first) :: rest)

variable {style : Style} {levels : Int}

theorem moves_under (st : State) (level : Int) (b : Blocks) (n : Nat)
    (lines : List (List Char)) : (st.under level b n).moves style lines = st.moves style lines := by
  induction lines with
  | nil => rfl
  | cons line rest ih =>
      rw [moves, moves, ih]
      rfl

/-- The moves of a line that is not blank, and of those after it. -/
theorem moves_cons {st st' : State} {m : Move} {r : Except Error (Int → Int → Line)}
    {line : List Char} (hblank : ¬line.all isBlank = true)
    (hlay : ∀ level b n, (st.under level b n).layLine style line =
      (st'.under level (b.move m).blocks (n + (b.move m).excess),
        r.map fun line => line level (b.move m).step)) (rest : List (List Char)) :
    st.moves style (line :: rest) =
      m :: match r with
        | .ok _ => st'.moves style rest
        | .error _ => [] := by
  rw [moves, if_neg hblank, hlay 0 {} 0]
  simp only [Move.ofState_under, moves_under]
  cases r with
  | error e => rfl
  | ok line => rfl

theorem proper_of_mem_moves (hstyle : style.functions = .fixed levels) {st : State}
    {lines : List (List Char)} {m : Move} (hm : m ∈ st.moves style lines) : m.Proper := by
  induction lines generalizing st with
  | nil => exact absurd hm List.not_mem_nil
  | cons line rest ih =>
      by_cases hblank : line.all isBlank = true
      · rw [moves, if_pos hblank] at hm
        exact ih hm
      · obtain ⟨m', st', r, hproper, hlay⟩ := st.layLine_steered hstyle line
        rw [moves_cons hblank hlay] at hm
        rcases List.mem_cons.1 hm with rfl | hm
        · exact hproper
        · cases r with
          | error e => exact absurd hm List.not_mem_nil
          | ok line => exact ih hm

theorem proper_of_mem_textMoves (hstyle : style.functions = .fixed levels) {st : State}
    {source : List Char} {start : Int} {stop : Option Int} {m : Move}
    (hm : m ∈ st.textMoves style source start stop) : m.Proper := by
  unfold textMoves at hm
  split at hm
  · exact absurd hm List.not_mem_nil
  · exact proper_of_mem_moves hstyle hm

/-- What a layout comes to: what is written is a function of the steps that the moves close, and
the open blocks and closing words in excess are those after the moves. -/
def Follows {α : Type} (ms : List Move) (b : Blocks) (n : Nat) (render : List Int → Except Error α)
    (outcome : State × Except Error α) : Prop :=
  outcome.2 = render (b.follow ms).2.1 ∧ outcome.1.blocks = (b.follow ms).1 ∧
    outcome.1.excessEnds = n + (b.follow ms).2.2

/-- **Lines follow their moves.** -/
theorem layLines_steered (hstyle : style.functions = .fixed levels) (st : State)
    (lines : List (List Char)) :
    ∃ render : Int → Bool → List Int → Except Error (List (List Char)), ∀ level blank b n,
      Follows (st.moves style lines) b n (render level blank)
        ((st.under level b n).layLines style blank lines) := by
  induction lines generalizing st with
  | nil => exact ⟨fun _ _ _ => .ok [], fun _ _ _ _ => ⟨rfl, rfl, rfl⟩⟩
  | cons line rest ih =>
      by_cases hblank : line.all isBlank = true
      · obtain ⟨render, hrender⟩ := ih st
        refine ⟨fun level blank steps => (render level true steps).map (gap (!blank) ++ ·),
          fun level blank b n => ?_⟩
        obtain ⟨hout, hblocks, hexcess⟩ := hrender level true b n
        have hmoves : st.moves style (line :: rest) = st.moves style rest := by
          rw [moves, if_pos hblank]
        rw [hmoves, layLines_cons_of_blank hblank]
        exact ⟨by rw [hout], hblocks, hexcess⟩
      · obtain ⟨m, st', r, -, hlay⟩ := st.layLine_steered hstyle line
        dsimp only at hlay
        rw [moves_cons hblank hlay]
        cases r with
        | error e =>
            refine ⟨fun _ _ _ => .error e, fun level blank b n => ?_⟩
            have herror : (st.under level b n).layLines style blank (line :: rest) =
                (st'.under level (b.move m).blocks (n + (b.move m).excess), .error e) := by
              rw [layLines, if_neg hblank, hlay level b n]
              rfl
            rw [herror]
            exact ⟨rfl, rfl, rfl⟩
        | ok text =>
            obtain ⟨render, hrender⟩ := ih st'
            -- the first step is that of this line, the others are those of the lines after it
            refine ⟨fun level blank steps =>
              (render (max 0 (level + (text level (steps.headD 0)).offset))
                (gapAfter style (text level (steps.headD 0))) steps.tail).map
                  (framed style st' blank (text level (steps.headD 0))), fun level blank b n => ?_⟩
            obtain ⟨hout, hblocks, hexcess⟩ :=
              hrender (max 0 (level + (text level (b.move m).step).offset))
                (gapAfter style (text level (b.move m).step)) (b.move m).blocks
                (n + (b.move m).excess)
            rw [layLines_cons_of_layLine (by simpa using hblank) (hlay level b n)]
            rw [Nat.add_assoc] at hexcess
            exact ⟨congrArg (Except.map (framed style st' blank (text level (b.move m).step))) hout,
              hblocks, hexcess⟩

/-- **A text follows its moves.** -/
theorem layText_steered (hstyle : style.functions = .fixed levels) (hwidth : style.width ≠ 0)
    (st : State) (source : List Char) (start : Int) (stop : Option Int) :
    ∃ render : List Int → Except Error (List Char), ∀ level b n,
      Follows (st.textMoves style source start stop) b n render
        ((st.under level b n).layText style source start stop) := by
  unfold textMoves layText
  cases selection start stop (splitLines source) with
  | nil => exact ⟨fun _ => .ok [], fun _ _ _ => ⟨rfl, rfl, rfl⟩⟩
  | cons first rest =>
      obtain ⟨render, hrender⟩ :=
        layLines_steered hstyle st (firstLine (skipBlanks first) :: rest)
      -- the first line gives the level, so that of the state does not matter
      let entry := Int.fdiv (first.takeWhile isBlank).length style.width
      refine ⟨fun steps => ((render entry true steps).map fun out =>
        (out.reverse.dropWhile List.isEmpty).reverse).map fun out => ['\n'].intercalate out,
        fun level b n => ?_⟩
      obtain ⟨hout, hblocks, hexcess⟩ := hrender entry true b n
      have henter : (st.under level b n).enter style first = .ok (st.under entry b n) := by
        rw [enter, if_neg hwidth]
        rfl
      simp only [layDocument, henter]
      exact ⟨by rw [hout], hblocks, hexcess⟩

end State

/-! ## Blocks that can be left open -/

namespace Blocks

/-- Blocks as statements open them: steps of one or two, and of one for functions. -/
structure Regular (b : Blocks) : Prop where
  control : ∀ step ∈ b.control, step = 1 ∨ step = 2
  functions : ∀ step ∈ b.functions, step = 1

theorem Regular.empty : Regular {} := ⟨by simp, by simp⟩

theorem Regular.move {b : Blocks} (hb : b.Regular) {m : Move} (hm : m.Proper) :
    (b.move m).blocks.Regular := by
  obtain ⟨control, functions⟩ := b
  obtain ⟨hcontrol, hfunctions⟩ := hb
  cases m with
  | keep => exact ⟨hcontrol, hfunctions⟩
  | control step => exact ⟨List.forall_mem_cons.2 ⟨hm, hcontrol⟩, hfunctions⟩
  | function => exact ⟨hcontrol, List.forall_mem_cons.2 ⟨rfl, hfunctions⟩⟩
  | close =>
      cases control with
      | cons step rest => exact ⟨(List.forall_mem_cons.1 hcontrol).2, hfunctions⟩
      | nil =>
          cases functions with
          | cons step rest => exact ⟨hcontrol, (List.forall_mem_cons.1 hfunctions).2⟩
          | nil => exact ⟨hcontrol, hfunctions⟩

theorem Regular.follow {b : Blocks} (hb : b.Regular) {ms : List Move} (hms : ∀ m ∈ ms, m.Proper) :
    (b.follow ms).1.Regular := by
  induction ms generalizing b with
  | nil => exact hb
  | cons m ms ih =>
      obtain ⟨hm, hrest⟩ := List.forall_mem_cons.1 hms
      exact ih (hb.move hm) hrest

/-! ## Blocks left open by others -/

/-- The blocks `b'` are `b` with others below, all of step one. Control blocks are closed first, so
those that lie below may be closed in the place of a function; of both together there have to be
as many as functions in `b`. -/
def Beneath (b b' : Blocks) : Prop :=
  ∃ i j k, b.functions = List.replicate i 1 ∧ b'.functions = List.replicate j 1 ∧
    b'.control = b.control ++ List.replicate k 1 ∧ i ≤ j + k

theorem Beneath.move {b b' : Blocks} (h : b.Beneath b') {m : Move}
    (hexcess : (b.move m).excess = 0) :
    (b'.move m).step = (b.move m).step ∧ (b.move m).blocks.Beneath (b'.move m).blocks := by
  obtain ⟨control, functions⟩ := b
  obtain ⟨control', functions'⟩ := b'
  obtain ⟨i, j, k, rfl, rfl, rfl, hle⟩ := h
  cases m with
  | keep => exact ⟨rfl, i, j, k, rfl, rfl, rfl, hle⟩
  | control step => exact ⟨rfl, i, j, k, rfl, rfl, rfl, hle⟩
  | function => exact ⟨rfl, i + 1, j + 1, k, rfl, rfl, rfl, by omega⟩
  | close =>
      cases control with
      | cons step rest => exact ⟨rfl, i, j, k, rfl, rfl, rfl, hle⟩
      | nil =>
          -- a function is closed in `b`; in `b'` it is a block that lies below, as long as there
          -- is one among the control blocks
          cases i with
          | zero => cases hexcess
          | succ i =>
              cases k with
              | succ k => exact ⟨rfl, i, j, k, rfl, rfl, rfl, by omega⟩
              | zero =>
                  cases j with
                  | zero => omega
                  | succ j => exact ⟨rfl, i, j, 0, rfl, rfl, rfl, by omega⟩

/-- The same steps are closed, up to the first closing word in excess. -/
theorem Beneath.steps_eq {b b' : Blocks} (h : b.Beneath b') {ms : List Move}
    (hexcess : (b.follow ms).2.2 = 0) : (b'.follow ms).2.1 = (b.follow ms).2.1 := by
  induction ms generalizing b b' with
  | nil => rfl
  | cons m ms ih =>
      obtain ⟨hnow, hlater⟩ := Nat.add_eq_zero_iff.1 hexcess
      obtain ⟨hstep, hnext⟩ := h.move hnow
      show (b'.move m).step :: _ = (b.move m).step :: _
      rw [hstep, ih hnext hlater]

/-- Regular blocks without a step of two may lie below none. -/
theorem Regular.beneath_empty {b : Blocks} (hb : b.Regular) (htwo : 2 ∉ b.control) :
    Beneath {} b := by
  refine ⟨0, b.functions.length, b.control.length, rfl, ?_, ?_, Nat.zero_le _⟩
  · exact List.eq_replicate_iff.2 ⟨rfl, hb.functions⟩
  · refine List.eq_replicate_iff.2 ⟨rfl, fun step hstep => ?_⟩
    rcases hb.control step hstep with hone | hother
    · exact hone
    · exact absurd (hother ▸ hstep) htwo

end Blocks

end Pcode.Indent
