import Pcode.Indent.Line

set_option autoImplicit false

/-! # Block comments are opaque

Whether a line belongs to a block comment is decided before anything else is looked at, and a line
that does is copied. What it leaves behind is said by one equation (`State.layLine_inComment`): the
state is as before but for the notes on comments and continued lines. The next line does not see all
of these: it sees whether it is inside of a block comment, but not whether it is the first one after
it (`State.layLine_outlook`).

Main statement: a block comment is copied, and to everything that follows it is one comment line
(`blockComment_opaque`). -/

namespace Pcode.Indent

open Pcode.Text

namespace State

/-! ## Lines one after the other -/

/-- The state in which the next line is laid out; with `shifts` the level follows the offsets, as it
does in a document. A line that has no layout has no offset. -/
def proceed (shifts : Bool) (outcome : State × Except Error Line) : State :=
  match outcome.2 with
  | .ok l => if shifts then outcome.1.shift l.offset else outcome.1
  | .error _ => outcome.1

/-- Lay out lines one after the other: the state after them, and what each of them gives. -/
def feed (style : Style) (shifts : Bool) (st : State) :
    List (List Char) → State × List (Except Error Line)
  | [] => (st, [])
  | line :: rest =>
      let outcome := st.layLine style line
      let after := (proceed shifts outcome).feed style shifts rest
      (after.1, outcome.2 :: after.2)

variable (style : Style) (shifts : Bool)

theorem feed_append (st : State) (lines rest : List (List Char)) :
    st.feed style shifts (lines ++ rest) =
      let after := st.feed style shifts lines
      ((after.1.feed style shifts rest).1, after.2 ++ (after.1.feed style shifts rest).2) := by
  induction lines generalizing st with
  | nil => rfl
  | cons line lines ih => simp only [List.cons_append, feed, ih]

theorem length_feed (st : State) (lines : List (List Char)) :
    (st.feed style shifts lines).2.length = lines.length := by
  induction lines generalizing st with
  | nil => rfl
  | cons line lines ih => simp only [feed, List.length_cons, ih]

/-! ## What the next line sees of a state -/

/-- A state without what the next line does not look at. -/
def outlook (st : State) : State :=
  { st with
    blockComment := if st.blockComment = .inside then .inside else .outside
    continued := false
    sawComment := false }

theorem layLine_outlook (st : State) (line : List Char) :
    st.outlook.layLine style line = st.layLine style line := by
  have hcomments : st.outlook.trackComments line =
      { st.trackComments line with continued := false, sawComment := false } := by
    simp only [trackComments, outlook]
    cases st.blockComment with
    | outside => rfl
    | closing => rfl
    | inside => rfl
  have htrack : (st.outlook.trackComments line).trackContinuation line =
      (st.trackComments line).trackContinuation line := by
    rw [hcomments]
    simp only [trackContinuation, code, noteTree]
    split
    · rfl
    · rfl
  simp only [layLine, htrack]

/-- States with the same outlook: after one more line they are the same. -/
theorem feed_of_outlook_eq {st st' : State} (h : st.outlook = st'.outlook)
    (lines : List (List Char)) :
    (st.feed style shifts lines).2 = (st'.feed style shifts lines).2 ∧
      (st.feed style shifts lines).1.outlook = (st'.feed style shifts lines).1.outlook := by
  cases lines with
  | nil => exact ⟨rfl, h⟩
  | cons line rest =>
      have hline : st.layLine style line = st'.layLine style line := by
        rw [← layLine_outlook style st, h, layLine_outlook]
      simp only [feed, hline, and_self]

/-! ## Lines of comments -/

/-- The state after a comment, inside of a block comment or not, with `run` for the lines since the
last comment line. -/
def commented (st : State) (inside : Bool) (run : Nat) : State :=
  { st with
    blockComment := if inside then .inside else .outside
    commentRun := run
    longLine := false
    continued := false
    sawComment := false }

/-- Near a comment no line is continued. -/
theorem outlook_track (st : State) (line : List Char)
    (h : (st.trackComments line).nearComment = true) :
    ((st.trackComments line).trackContinuation line).outlook =
      st.commented ((st.trackComments line).blockComment == .inside)
        (st.trackComments line).commentRun := by
  have hnote : ∀ t, ({ st.trackComments line with sawComment := false } : State).noteTree t =
      { st.trackComments line with sawComment := t.hasComment } := by
    intro t
    simp only [noteTree]
    cases t.hasComment with
    | true => rfl
    | false => rfl
  have hnear : ∀ b, ({ st.trackComments line with sawComment := b } : State).nearComment = true :=
    fun _ => h
  simp only [trackContinuation, code, hnote, hnear, Bool.or_true, if_true, Bool.not_true,
    Bool.and_false, outlook, commented, beq_iff_eq]
  rfl

theorem trackContinuation_notes (st : State) (line : List Char) :
    (st.trackContinuation line).blockComment = st.blockComment ∧
      (st.trackContinuation line).commentRun = st.commentRun := by
  simp only [trackContinuation, code, noteTree]
  split
  · exact ⟨rfl, rfl⟩
  · exact ⟨rfl, rfl⟩

/-- **A line in a block comment is copied**, and only the notes on comments change. -/
theorem layLine_inComment (st : State) (line : List Char)
    (h : (st.trackComments line).blockComment ≠ .outside) :
    (st.layLine style line).2 = .ok ⟨0, trimEnd line⟩ ∧
      (st.layLine style line).1.outlook =
        st.commented ((st.trackComments line).blockComment == .inside)
          (st.trackComments line).commentRun := by
  obtain ⟨hplace, -⟩ := (st.trackComments line).trackContinuation_notes line
  have hnear : (st.trackComments line).nearComment = true := by simp [nearComment, h]
  have hlay : st.layLine style line =
      ((st.trackComments line).trackContinuation line, .ok ⟨0, trimEnd line⟩) := by
    simp only [layLine, hplace]
    rw [if_pos (by simpa using h)]
  rw [hlay]
  exact ⟨rfl, st.outlook_track line hnear⟩

/-- A comment line outside of block comments. -/
theorem layLine_commentLine {st : State} {line : List Char} (hst : st.blockComment ≠ .inside)
    (hline : isCommentLine line = true) (hopen : opensComment line = false)
    (hclose : closesComment line = false) :
    ∃ text, (st.layLine style line).2 = .ok ⟨0, text⟩ ∧
      (st.layLine style line).1.outlook = st.commented false 2 := by
  have hrun : (st.trackComments line).commentRun = 2 := if_pos hline
  have hplace : (st.trackComments line).blockComment = .outside := by
    simp only [trackComments, hopen, hclose]
    cases hb : st.blockComment with
    | outside => rfl
    | closing => rfl
    | inside => exact absurd hb hst
  have houtlook := st.outlook_track line (by simp [nearComment, hrun])
  obtain ⟨hplace', hrun'⟩ := (st.trackComments line).trackContinuation_notes line
  rw [hplace, hrun] at houtlook
  simp only [layLine, hplace', hplace, hrun', hrun]
  exact ⟨_, rfl, houtlook⟩

/-! ## A block comment -/

/-- The state after a line without an offset. -/
def settled (st : State) : State := if shifts then st.shift 0 else st

theorem settled_settled (st : State) : (st.settled shifts).settled shifts = st.settled shifts := by
  cases shifts with
  | false => rfl
  | true =>
      have hmax : max 0 (max 0 (st.level + 0) + 0) = max 0 (st.level + 0) := by omega
      exact congrArg (fun level => { st with level := level }) hmax

theorem outlook_proceed {outcome : State × Except Error Line} {base : State} {inside : Bool}
    {run : Nat} {text : List Char} (hresult : outcome.2 = .ok ⟨0, text⟩)
    (houtlook : outcome.1.outlook = base.commented inside run) :
    (proceed shifts outcome).outlook = (base.settled shifts).commented inside run := by
  simp only [proceed, hresult]
  cases shifts with
  | false => exact houtlook
  | true =>
      calc (outcome.1.shift 0).outlook
          = outcome.1.outlook.shift 0 := rfl
        _ = (base.commented inside run).shift 0 := by rw [houtlook]
        _ = (base.shift 0).commented inside run := rfl

/-- Inside of a block comment, and otherwise as `base`. -/
def Within (base st : State) : Prop := ∃ run, st.outlook = base.commented true run

/-- What a line of a block comment gives. -/
def copied (line : List Char) : Except Error Line := .ok ⟨0, trimEnd line⟩

theorem Within.blockComment {base st : State} (h : Within base st) : st.blockComment = .inside := by
  obtain ⟨run, hrun⟩ := h
  have hplace : st.outlook.blockComment = .inside := by rw [hrun]; rfl
  by_cases hb : st.blockComment = .inside
  · exact hb
  · simp [outlook, hb] at hplace

/-- Which comment a state is in is all that is changed by the next comment. -/
theorem Within.commented_eq {base st : State} (h : Within base st) (inside : Bool) (run : Nat) :
    st.commented inside run = base.commented inside run := by
  obtain ⟨run', hrun⟩ := h
  calc st.commented inside run
      = st.outlook.commented inside run := rfl
    _ = (base.commented true run').commented inside run := by rw [hrun]
    _ = base.commented inside run := rfl

/-- A line that begins a block comment. -/
theorem within_of_opensComment (st : State) {line : List Char} (hopen : opensComment line = true) :
    (st.layLine style line).2 = copied line ∧
      Within (st.settled shifts) (proceed shifts (st.layLine style line)) := by
  have hplace : (st.trackComments line).blockComment = .inside := by simp [trackComments, hopen]
  obtain ⟨hresult, houtlook⟩ := layLine_inComment style st line (by simp [hplace])
  rw [hplace] at houtlook
  exact ⟨hresult, _, outlook_proceed shifts hresult houtlook⟩

/-- A line in a block comment that does not end it, whatever else is on it. -/
theorem Within.layLine {base st : State} (h : Within base st) {line : List Char}
    (hclose : closesComment line = false) :
    (st.layLine style line).2 = copied line ∧
      Within (base.settled shifts) (proceed shifts (st.layLine style line)) := by
  have hplace : (st.trackComments line).blockComment = .inside := by
    simp [trackComments, hclose, h.blockComment]
  obtain ⟨hresult, houtlook⟩ := layLine_inComment style st line (by simp [hplace])
  rw [hplace, h.commented_eq] at houtlook
  exact ⟨hresult, _, outlook_proceed shifts hresult houtlook⟩

theorem opensComment_of_closesComment {line : List Char} (h : closesComment line = true) :
    opensComment line = false := by
  rw [closesComment] at h
  split at h
  · next hskip => simp [opensComment, hskip]
  · cases h

/-- The line that ends a block comment. -/
theorem Within.layLine_of_closesComment {base st : State} (h : Within base st) {line : List Char}
    (hclose : closesComment line = true) :
    (st.layLine style line).2 = copied line ∧
      ∃ run, (isCommentLine line = true → run = 2) ∧
        (proceed shifts (st.layLine style line)).outlook =
          (base.settled shifts).commented false run := by
  have hplace : (st.trackComments line).blockComment = .closing := by
    simp [trackComments, opensComment_of_closesComment hclose, hclose]
  obtain ⟨hresult, houtlook⟩ := layLine_inComment style st line (by simp [hplace])
  rw [hplace, h.commented_eq] at houtlook
  exact ⟨hresult, _, fun hline => if_pos hline, outlook_proceed shifts hresult houtlook⟩

/-- The lines of a block comment between its first and its last one. -/
theorem Within.feed {base st : State} (hbase : base.settled shifts = base) (h : Within base st)
    {lines : List (List Char)} (hlines : ∀ l ∈ lines, closesComment l = false) :
    (st.feed style shifts lines).2 = lines.map copied ∧
      Within base (st.feed style shifts lines).1 := by
  induction lines generalizing st with
  | nil => exact ⟨rfl, h⟩
  | cons line rest ih =>
      obtain ⟨hresult, hnext⟩ := h.layLine style shifts (hlines line (by simp))
      rw [hbase] at hnext
      obtain ⟨hresults, hafter⟩ := ih hnext fun l hl => hlines l (by simp [hl])
      refine ⟨?_, hafter⟩
      show (st.layLine style line).2 :: _ = _
      rw [hresult, hresults]
      rfl

/-- **A whole block comment.** -/
theorem feed_blockComment (st : State) {first last : List Char} {body : List (List Char)}
    (hfirst : opensComment first = true) (hbody : ∀ l ∈ body, closesComment l = false)
    (hlast : closesComment last = true) :
    (st.feed style shifts (first :: (body ++ [last]))).2 = (first :: (body ++ [last])).map copied ∧
      ∃ run, (isCommentLine last = true → run = 2) ∧
        (st.feed style shifts (first :: (body ++ [last]))).1.outlook =
          (st.settled shifts).commented false run := by
  obtain ⟨hresult, hwithin⟩ := within_of_opensComment style shifts st hfirst
  obtain ⟨hresults, hinside⟩ := hwithin.feed style shifts (settled_settled shifts st) hbody
  obtain ⟨hclosed, run, hrun, houtlook⟩ := hinside.layLine_of_closesComment style shifts hlast
  rw [settled_settled] at houtlook
  simp only [State.feed, feed_append, hresult, hresults, hclosed]
  exact ⟨by simp, run, hrun, houtlook⟩

/-! ## The text around it -/

theorem agree_of_outlook_eq {st st' : State} (h : st.outlook = st'.outlook) :
    st.level = st'.level ∧ st.matrix = st'.matrix ∧ st.cell = st'.cell ∧
      st.blocks = st'.blocks ∧ st.excessEnds = st'.excessEnds := by
  simp only [outlook, State.mk.injEq] at h
  obtain ⟨hlevel, hmatrix, hcell, -, -, -, -, -, hblocks, hexcess⟩ := h
  exact ⟨hlevel, hmatrix, hcell, hblocks, hexcess⟩

theorem settled_agree (st : State) :
    (st.settled shifts).level = (if shifts then max 0 st.level else st.level) ∧
      (st.settled shifts).matrix = st.matrix ∧ (st.settled shifts).cell = st.cell ∧
      (st.settled shifts).blocks = st.blocks ∧
      (st.settled shifts).excessEnds = st.excessEnds := by
  cases shifts with
  | false => exact ⟨rfl, rfl, rfl, rfl, rfl⟩
  | true => exact ⟨congrArg (max 0) (Int.add_zero st.level), rfl, rfl, rfl, rfl⟩

end State

theorem isOneLine_of_append {s t : List Char} (h : isOneLine (s ++ t) = true) :
    isOneLine t = true := by
  induction s with
  | nil => exact h
  | cons c s ih =>
      apply ih
      by_cases hc : c = '\n'
      · -- a line end that is not the last character ends the line too early
        have hrest : s ++ t = [] := by
          cases hst : s ++ t with
          | nil => rfl
          | cons d r =>
              rw [List.cons_append, hst, hc] at h
              cases h
        rw [hrest]
        rfl
      · simpa [isOneLine, hc] using h

/-- A line that ends a block comment is a comment line, if it is one line. -/
theorem isCommentLine_of_closesComment {line : List Char} (hclose : closesComment line = true)
    (hline : isOneLine line = true) : isCommentLine line = true := by
  rw [closesComment] at hclose
  split at hclose
  · next s hskip =>
      have hsplit : line = line.takeWhile isBlank ++ ['%'] ++ '}' :: s := by
        have hparts := List.takeWhile_append_dropWhile (p := isBlank) (l := line)
        rw [← skipBlanks, hskip] at hparts
        simpa using hparts.symm
      rw [hsplit] at hline
      simp only [isCommentLine, hskip]
      exact isOneLine_of_append hline
  · cases hclose

/-- **Block comments are opaque.** Outside of block comments, let a line open one, let no further
line close it, and then a line do so. Each of these lines is laid out as it is but for the blanks at
its end, with no offset, and at the end the level, the open brackets and the open blocks are as they
were (where the level follows the offsets, one below zero is raised to zero). Whatever lines follow,
they are laid out as if one comment line stood in the place of the whole block comment, and they
lead to the same level, brackets, blocks and warnings. -/
theorem blockComment_opaque (style : Style) (shifts : Bool) {st : State}
    (hst : st.blockComment ≠ .inside) {first last : List Char} {body : List (List Char)}
    (hfirst : opensComment first = true) (hbody : ∀ l ∈ body, closesComment l = false)
    (hlast : closesComment last = true) :
    let block := first :: (body ++ [last])
    let after := st.feed style shifts block
    after.2 = block.map (fun line => .ok ⟨0, trimEnd line⟩) ∧
      after.1.level = (if shifts then max 0 st.level else st.level) ∧
      after.1.matrix = st.matrix ∧ after.1.cell = st.cell ∧ after.1.blocks = st.blocks ∧
      after.1.excessEnds = st.excessEnds ∧
      (isOneLine last = true → ∀ comment, isCommentLine comment = true →
        opensComment comment = false → closesComment comment = false → ∀ rest,
        let long := st.feed style shifts (block ++ rest)
        let short := st.feed style shifts (comment :: rest)
        long.2.drop block.length = short.2.drop 1 ∧ long.1.level = short.1.level ∧
          long.1.matrix = short.1.matrix ∧ long.1.cell = short.1.cell ∧
          long.1.blocks = short.1.blocks ∧ long.1.excessEnds = short.1.excessEnds) := by
  intro block after
  obtain ⟨hresults, run, hrun, houtlook⟩ :=
    st.feed_blockComment style shifts hfirst hbody hlast
  have hafter : after.1.outlook = ((st.settled shifts).commented false run).outlook := houtlook
  obtain ⟨hlevel, hmatrix, hcell, hblocks, hexcess⟩ := State.agree_of_outlook_eq hafter
  obtain ⟨hlevel', hmatrix', hcell', hblocks', hexcess'⟩ := st.settled_agree shifts
  refine ⟨hresults, hlevel.trans hlevel', hmatrix.trans hmatrix', hcell.trans hcell',
    hblocks.trans hblocks', hexcess.trans hexcess', ?_⟩
  intro hline comment hcomment hopen hclose rest long short
  -- the block comment and the comment line lead to states that the next line cannot tell apart
  obtain ⟨text, hresult, hshort⟩ := State.layLine_commentLine style hst hcomment hopen hclose
  have hsame : after.1.outlook =
      (State.proceed shifts (st.layLine style comment)).outlook := by
    rw [State.outlook_proceed shifts hresult hshort]
    rw [hrun (isCommentLine_of_closesComment hlast hline)] at houtlook
    exact houtlook
  obtain ⟨hresults', houtlook'⟩ := State.feed_of_outlook_eq style shifts hsame rest
  have hlong : long = ((after.1.feed style shifts rest).1,
      after.2 ++ (after.1.feed style shifts rest).2) := st.feed_append style shifts block rest
  have hlength : after.2.length = block.length := st.length_feed style shifts block
  refine ⟨?_, ?_⟩
  · rw [hlong, ← hlength, List.drop_left]
    exact hresults'
  · rw [hlong]
    exact State.agree_of_outlook_eq houtlook'

/-- Inside of a loop, a block comment with a keyword, an open bracket and quote, three dots, and
another opening line; after it, a continued line and the end of the loop. -/
theorem blockComment_opaque_loop :
    let st : State := { level := 1, blocks := { control := [1] }, longLine := true }
    let body := ["if [ 'a ...".toList, "%\x7b".toList, "%\x7d end  ".toList]
    let block := "  %\x7b ".toList :: (body ++ ["%\x7d".toList])
    let rest := ["y = [1 ...".toList, "2];".toList, "end".toList]
    opensComment "  %\x7b ".toList = true ∧
      (∀ l ∈ body, closesComment l = false) ∧
      closesComment "%\x7d".toList = true ∧ isCommentLine "% if".toList = true ∧
      (st.feed {} true block).2 = ["  %\x7b".toList, "if [ 'a ...".toList, "%\x7b".toList,
        "%\x7d end".toList, "%\x7d".toList].map (fun text => .ok ⟨0, text⟩) ∧
      (st.feed {} true block).1.level = 1 ∧ (st.feed {} true block).1.blocks = st.blocks ∧
      (st.feed {} true (block ++ rest)).2.drop 5 =
        (st.feed {} true ("% if".toList :: rest)).2.drop 1 := by
  intro st body block rest
  have hbody : ∀ l ∈ body, closesComment l = false := by
    show ∀ l ∈ ["if [ 'a ...".toList, "%\x7b".toList, "%\x7d end  ".toList],
      closesComment l = false
    decide
  obtain ⟨htexts, hlevel, -, -, hblocks, -, hrest⟩ :=
    blockComment_opaque {} true (show st.blockComment ≠ .inside by decide)
      (show opensComment "  %\x7b ".toList = true by decide) hbody
      (show closesComment "%\x7d".toList = true by decide)
  have hsame := hrest (by decide) "% if".toList (by decide) (by decide) (by decide) rest
  exact ⟨by decide, hbody, by decide, by decide, htexts.trans rfl, hlevel, hblocks, hsame.1⟩

end Pcode.Indent
