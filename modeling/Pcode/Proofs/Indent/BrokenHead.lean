import Mathlib
import Pcode.Proofs.Indent.Nesting

set_option autoImplicit false

/-! # Heads of blocks that are broken inside a bracket

Brackets are followed before statements are looked at, and a line that opens or closes a matrix is
only given its spacing (`State.layLine_bracket`). So a head whose expression has a matrix is no head
any more when it is broken inside the matrix: its first line opens the matrix and its second one
closes it, and neither opens a block (`MatrixHead.reaches_broken`). The `end` of the block then
closes another block, or none.

Main statement: with no block open, a head on one line has its body one step deeper and its `end` is
its own, while the same head on two lines has its body where it stands itself, and its `end` is in
excess (`layText_brokenHead`). -/

namespace Pcode.Indent

open Pcode.Text

/-! ## Balances -/

theorem balance_append (opening closing : Char) (s t : List Char) :
    balance opening closing (s ++ t) = balance opening closing s + balance opening closing t := by
  unfold balance
  rw [List.count_append, List.count_append]
  omega

theorem balance_append_cons (opening closing : Char) (s : List Char) (c : Char) (t : List Char) :
    balance opening closing (s ++ c :: t) =
      balance opening closing s + (balance opening closing [c] + balance opening closing t) := by
  rw [balance_append, ← List.singleton_append, balance_append]

/-! ## Lines that open or close a matrix -/

/-- The state in which a line without literals and comments is looked at. -/
def State.looking (st : State) (line : List Char) : State :=
  { st with
    sawComment := false
    continued := if startsClosing line then false else st.longLine
    longLine := isContinued line }

/-- A line that opens or closes a matrix is given its spacing and nothing else. -/
theorem State.layLine_bracket {st : State} (hblock : st.blockComment = .outside)
    (hrun : st.commentRun = 0) {line : List Char} (hline : Unquoted line)
    (hcommand : isCommandLine line = false) {style : Style} {change levels : Int}
    (htrack : trackBracket '[' ']' style.width st.matrix line = .ok (change, levels))
    (hchange : change ≠ 0) :
    st.layLine style line =
      let next := { st.looking line with matrix := levels }.spaced style.width st.matrix line
      (next.1, .ok next.2) := by
  have hnear : { st with sawComment := false }.nearComment = false := by
    simp [State.nearComment, hblock, hrun]
  have hlooking : (st.trackComments line).trackContinuation line = st.looking line := by
    rw [State.trackComments_eq hblock hrun hline]
    simp [State.trackContinuation, hline.code_eq, hnear, State.looking]
  have hmatrix : (st.looking line).trackMatrix style.width line =
      ({ st.looking line with matrix := levels }, .ok change) := by
    have htrack' : trackBracket '[' ']' style.width (st.looking line).matrix line =
        .ok (change, levels) := htrack
    simp only [State.trackMatrix, hline.code_eq, htrack']
  have hblock' : ¬((st.looking line).blockComment != .outside) = true := by
    simp [State.looking, hblock]
  have hcomment : ¬((st.looking line).commentRun == 2 || isCommandLine line) = true := by
    simp [State.looking, hrun, hcommand]
  have hin : (change != 0 || (st.looking line).matrix != 0) = true := by
    simp [hchange]
  simp only [State.layLine, hlooking, if_neg hblock', if_neg hcomment, State.layCode, hmatrix,
    if_pos hin]
  rfl

/-- The state stands in a matrix that the line before has left open; without it, it would rest. The
next line is indented `deep` levels more. -/
structure InMatrix (st : State) (level : Nat) (b : Blocks) (excess deep : Nat) : Prop where
  matrix : st.matrix = deep
  longLine : st.longLine = true
  rests : Rests { st with matrix := 0, longLine := false } level b excess

theorem InMatrix.noteTree {st : State} {level : Nat} {b : Blocks} {excess deep : Nat}
    (h : InMatrix st level b excess deep) (t : Spacing.Tree) :
    InMatrix (st.noteTree t) level b excess deep := by
  rw [State.noteTree]
  split
  · exact ⟨h.matrix, h.longLine, { h.rests with }⟩
  · exact h

theorem InMatrix.shift_zero {st : State} {level : Nat} {b : Blocks} {excess deep : Nat}
    (h : InMatrix st level b excess deep) : InMatrix (st.shift 0) level b excess deep :=
  ⟨h.matrix, h.longLine, h.rests.shift 0⟩

/-- The blanks in front of a line, which stands one level deeper if it continues another one. -/
theorem State.indent_deeper {st : State} {level : Nat} (hlevel : st.level = level) (w add : Nat) :
    st.indent w add =
      List.replicate ((level + ((if st.continued then 1 else 0) + add)) * w) ' ' := by
  have hcolumn : (st.level + (if st.continued then 1 else 0) + add) * (w : Int) =
      ((level + ((if st.continued then 1 else 0) + add)) * w : Nat) := by
    rw [hlevel, Int.add_assoc]
    split <;> simp
  rw [State.indent, hcolumn, Int.toNat_natCast]

section

variable {style : Style} {w : Nat} (hwidth : style.width = w) {st : State} {level : Nat}
  {b : Blocks} {excess deep : Nat} {line : List Char} (hline : Unquoted line)
  (hcommand : isCommandLine line = false) (hink : line.all isBlank = false)

include hwidth hline hcommand hink

/-- A line that opens a matrix and is continued stands where it is, whatever it begins with. How
deep the matrix is indented depends on the line only. -/
theorem writes_matrix_opened (hw : 0 < w) (hbalance : 0 < balance '[' ']' line)
    (hcontinued : isContinued line = true) :
    ∃ deep, 0 < deep ∧ ∀ st, Rests st level b excess →
      Writes style st line w level (InMatrix · level b excess deep) := by
  obtain ⟨column, hcolumn⟩ := column?_of_mem (mem_of_balance_pos hbalance) (by decide)
    hline.breakFree.newline_not_mem
  have hpos := levelsTo_pos style.width column
  obtain ⟨deep, hdeep⟩ := Int.eq_ofNat_of_zero_le (Int.le_of_lt hpos)
  refine ⟨deep, by omega, fun st h => ?_⟩
  have htrack : trackBracket '[' ']' style.width st.matrix line =
      .ok (balance '[' ']' line, (deep : Int)) := by
    have hne : style.width ≠ 0 := by omega
    simp only [trackBracket, if_pos hbalance, hcolumn, if_neg hne, hdeep]
  have hlay := State.layLine_bracket h.blockComment h.commentRun hline hcommand htrack (by omega)
  have hopened : InMatrix { st.looking line with matrix := (deep : Int) } level b excess deep :=
    ⟨rfl, hcontinued, { h with matrix := rfl, longLine := rfl }⟩
  refine ⟨_, _, _, hlay, ?_, st.beginsInk_space hline.breakFree.newline_not_mem hink,
    (hopened.noteTree _).shift_zero⟩
  have hstill : (st.looking line).continued = false := by
    show (if startsClosing line then false else st.longLine) = false
    rw [h.longLine, ite_self]
  have hindent := (st.looking line).indent_deeper h.level_eq w 0
  rw [hstill] at hindent
  show (st.looking line).indent style.width st.matrix ++ _ = _
  rw [hwidth, h.matrix]
  exact congrArg (· ++ _) hindent

/-- The line that closes the matrix stands as deep as the matrix, and one level deeper unless it
begins with a closing bracket. -/
theorem writes_matrix_closed (h : InMatrix st level b excess deep)
    (hbalance : balance '[' ']' line < 0) (hcontinued : isContinued line = false) :
    Writes style st line w (level + ((if startsClosing line then 0 else 1) + deep))
      (Rests · level b excess) := by
  have htrack : trackBracket '[' ']' style.width st.matrix line =
      .ok (balance '[' ']' line, 0) := by
    have hnot : ¬ 0 < balance '[' ']' line := by omega
    simp only [trackBracket, if_neg hnot, if_pos hbalance]
  have hblock : st.blockComment = .outside := h.rests.blockComment
  have hrun : st.commentRun = 0 := h.rests.commentRun
  have hlay := State.layLine_bracket hblock hrun hline hcommand htrack (by omega)
  have hclosed : Rests { st.looking line with matrix := 0 } level b excess :=
    { h.rests with longLine := hcontinued }
  have hdeeper : (if (st.looking line).continued then 1 else 0) =
      if startsClosing line then 0 else 1 := by
    show (if (if startsClosing line then false else st.longLine) then 1 else 0) = _
    rw [h.longLine]
    cases startsClosing line <;> rfl
  refine ⟨_, _, _, hlay, ?_, st.beginsInk_space hline.breakFree.newline_not_mem hink,
    (hclosed.noteTree _).shift 0⟩
  have hindent := (st.looking line).indent_deeper h.rests.level_eq w deep
  rw [hdeeper] at hindent
  show (st.looking line).indent style.width st.matrix ++ _ = _
  rw [hwidth, h.matrix, hindent]
  rfl

end

/-! ## Heads with a matrix -/

/-- The head of a block with a matrix in its expression, in four pieces: before the matrix, two
inside, and after it. -/
structure MatrixHead where
  kind : Kind
  keyword : String
  mem : keyword ∈ kind.words
  before : List Char
  first : List Char
  second : List Char
  after : List Char
  bare : ∀ s ∈ [before, first, second, after], Bare s
  endless : ∀ s ∈ [before, first, second, after], ∀ w ∈ shortEndWords, w.toList ∉ words s

namespace MatrixHead

variable (head : MatrixHead)

/-- The expression on one line. -/
def expr : List Char :=
  head.before ++ '[' :: (head.first ++ ' ' :: (head.second ++ ']' :: head.after))

/-- The head on one line. -/
def joined : List Char := head.keyword.toList ++ ' ' :: head.expr

/-- The first line of the head on two lines, broken inside the matrix. -/
def opening : List Char :=
  head.keyword.toList ++ ' ' :: (head.before ++ '[' :: (head.first ++ " ...".toList))

/-- The second line of the head on two lines. -/
def closing : List Char := head.second ++ ']' :: head.after

theorem keyword_isWord : ∀ c ∈ head.keyword.toList, isWord c = true :=
  areWords_kind head.kind head.keyword head.mem

theorem keyword_beginsInk : BeginsInk head.keyword.toList :=
  beginsInk_of_mem_kind head.kind head.keyword head.mem

theorem bare_keyword : Bare head.keyword.toList := by
  have hbare := Bare.word_append head.keyword_isWord Bare.nil
  rwa [List.append_nil] at hbare

/-- A text behind the keyword that is not empty, as the argument that it is. -/
theorem firstWord_eq (s t : List Char) :
    firstWord (head.keyword.toList ++ ' ' :: (s ++ '[' :: t)) = head.keyword.toList ∧
      afterWord (head.keyword.toList ++ ' ' :: (s ++ '[' :: t)) = argument (s ++ '[' :: t) := by
  have hargument : argument (s ++ '[' :: t) = ' ' :: (s ++ '[' :: t) := by
    cases s with
    | nil => rfl
    | cons c s => rfl
  rw [← hargument]
  exact firstWord_keyword head.keyword_isWord _

theorem unquoted_joined : Unquoted head.joined := by
  have hbare := head.bare
  simp only [List.forall_mem_cons] at hbare
  obtain ⟨hbefore, hfirst, hsecond, hafter, -⟩ := hbare
  refine head.bare_keyword.unquoted.append (Unquoted.cons ?_ (by decide) (by decide))
  refine hbefore.unquoted.append (Unquoted.cons ?_ (by decide) (by decide))
  refine hfirst.unquoted.append (Unquoted.cons ?_ (by decide) (by decide))
  exact hsecond.unquoted.append (hafter.unquoted.cons (by decide) (by decide))

theorem unquoted_opening : Unquoted head.opening := by
  have hbare := head.bare
  simp only [List.forall_mem_cons] at hbare
  obtain ⟨hbefore, hfirst, -⟩ := hbare
  have hdots : Unquoted " ...".toList := by
    have hdot : ∀ s, Unquoted s → Unquoted ('.' :: s) :=
      fun s hs => hs.cons (by decide) (by decide)
    exact (hdot _ (hdot _ (hdot _ Bare.nil.unquoted))).cons (by decide) (by decide)
  refine head.bare_keyword.unquoted.append (Unquoted.cons ?_ (by decide) (by decide))
  refine hbefore.unquoted.append (Unquoted.cons ?_ (by decide) (by decide))
  exact hfirst.unquoted.append hdots

theorem unquoted_closing : Unquoted head.closing := by
  have hbare := head.bare
  simp only [List.forall_mem_cons] at hbare
  obtain ⟨-, -, hsecond, hafter, -⟩ := hbare
  exact hsecond.unquoted.append (hafter.unquoted.cons (by decide) (by decide))

/-! ### On one line -/

theorem heads_joined : Heads head.kind.words head.joined :=
  ⟨head.keyword, head.mem, (head.firstWord_eq head.before _).1.symm⟩

theorem afterWord_joined : afterWord head.joined = argument head.expr :=
  (head.firstWord_eq head.before _).2

/-- What is in none of the four pieces is not in the expression. -/
theorem not_infix_expr {p : List Char}
    (hp : ∀ s ∈ [head.before, head.first, head.second, head.after], ¬ p <:+: s)
    (hopening : '[' ∉ p) (hblank : ' ' ∉ p) (hclosing : ']' ∉ p) : ¬ p <:+: head.expr := by
  simp only [List.forall_mem_cons] at hp
  obtain ⟨hbefore, hfirst, hsecond, hafter, -⟩ := hp
  refine not_infix_append_cons hopening hbefore (not_infix_append_cons hblank hfirst ?_)
  exact not_infix_append_cons hclosing hsecond hafter

theorem words_expr :
    words head.expr =
      words head.before ++ (words head.first ++ (words head.second ++ words head.after)) := by
  rw [expr, words_append_cons (by decide +kernel), words_append_cons (by decide +kernel),
    words_append_cons (by decide +kernel)]

/-- No block is closed in the expression. -/
theorem endless_expr : ∀ w ∈ shortEndWords, w.toList ∉ words head.expr := by
  intro w hw
  have hendless := head.endless
  simp only [List.forall_mem_cons] at hendless
  obtain ⟨hbefore, hfirst, hsecond, hafter, -⟩ := hendless
  rw [words_expr]
  simp only [List.mem_append, not_or]
  exact ⟨hbefore w hw, hfirst w hw, hsecond w hw, hafter w hw⟩

theorem whole_joined : Whole head.joined := by
  have hbare := head.bare
  simp only [List.forall_mem_cons] at hbare
  obtain ⟨hbefore, hfirst, hsecond, hafter, -⟩ := hbare
  refine { head.unquoted_joined with matrix := ?_, cell := ?_, dots := ?_ }
  · rw [joined, expr]
    simp only [balance_append_cons]
    rw [head.bare_keyword.whole.matrix, hbefore.whole.matrix, hfirst.whole.matrix,
      hsecond.whole.matrix, hafter.whole.matrix]
    decide
  · rw [joined, expr]
    simp only [balance_append_cons]
    rw [head.bare_keyword.whole.cell, hbefore.whole.cell, hfirst.whole.cell, hsecond.whole.cell,
      hafter.whole.cell]
    decide
  · refine not_infix_append_cons (by decide) head.bare_keyword.dots ?_
    exact head.not_infix_expr (fun s hs => (head.bare s hs).dots) (by decide) (by decide)
      (by decide)

/-! ### On two lines -/

theorem heads_opening : Heads head.kind.words head.opening :=
  ⟨head.keyword, head.mem, (head.firstWord_eq head.before _).1.symm⟩

theorem opening_continued : isContinued head.opening = true := by
  have hfree := head.unquoted_opening.breakFree.newline_not_mem
  have hdots : "...".toList <:+: head.opening := by
    rw [opening]
    exact ⟨head.keyword.toList ++ ' ' :: (head.before ++ '[' :: (head.first ++ [' '])), [],
      by simp⟩
  rw [isContinued, firstLine_of_not_mem hfree, hasDots_iff.2 hdots, isOneLine_of_not_mem hfree]
  rfl

theorem closing_not_continued : isContinued head.closing = false := by
  have hbare := head.bare
  simp only [List.forall_mem_cons] at hbare
  obtain ⟨-, -, hsecond, hafter, -⟩ := hbare
  have hdots := not_infix_append_cons (by decide) hsecond.dots hafter.dots (x := ']')
  rw [isContinued, firstLine_of_not_mem head.unquoted_closing.breakFree.newline_not_mem]
  rw [show hasDots head.closing = false from hasDots_eq_false hdots]
  rfl

theorem balance_opening : balance '[' ']' head.opening = 1 := by
  have hbare := head.bare
  simp only [List.forall_mem_cons] at hbare
  obtain ⟨hbefore, hfirst, -⟩ := hbare
  rw [opening, balance_append_cons, balance_append_cons, balance_append,
    head.bare_keyword.whole.matrix, hbefore.whole.matrix, hfirst.whole.matrix]
  decide

theorem balance_closing : balance '[' ']' head.closing = -1 := by
  have hbare := head.bare
  simp only [List.forall_mem_cons] at hbare
  obtain ⟨-, -, hsecond, hafter, -⟩ := hbare
  rw [closing, balance_append_cons, hsecond.whole.matrix, hafter.whole.matrix]
  decide

end MatrixHead

/-! ## Plain lines -/

/-- Some plain lines, each behind some spaces. -/
def plainLines (body : List (Nat × Plain)) : List (List Char) :=
  body.map fun p => behind p.1 p.2.text

/-- The texts of plain lines at a depth. -/
def plainPlaced (depth : Nat) (body : List (Nat × Plain)) : List (List Char × Nat) :=
  body.map fun p => (p.2.text, depth)

section

variable {style : Style} {w : Nat} (hstyle : style.Proper) (hwidth : style.width = w) {st : State}
  {base depth : Nat} {b : Blocks} {excess : Nat}

include hstyle hwidth

theorem reaches_plainLines (body : List (Nat × Plain)) (h : Rests st (base + depth) b excess) :
    Reaches style w base st (plainLines body) (plainPlaced depth body)
      (Rests · (base + depth) b excess) := by
  induction body generalizing st with
  | nil => exact Reaches.nil h
  | cons p body ih => exact (p.2.reaches hstyle hwidth h p.1).append fun st' h' => ih h'

/-- A head on one line opens its block. -/
theorem MatrixHead.reaches_joined (hfunctions : style.functions = .fixed 1) (head : MatrixHead)
    (h : Rests st base b excess) :
    Reaches style w base st [head.joined] [(head.joined, 0)]
      (Rests · (base + head.kind.step) (b.move head.kind.move).blocks excess) := by
  have hline := head.whole_joined
  have hbegins : BeginsInk head.joined := head.keyword_beginsInk.append _
  have hskip := hbegins.skipBlanks_eq
  have hwrites := writes_opening hwidth h hline (Kind.indents_step hfunctions head.kind st)
  rw [hskip, head.afterWord_joined] at hwrites
  have hopens := hwrites head.heads_joined (shortBody?_argument head.endless_expr)
    (expressionTail?_argument head.expr)
  exact hopens.reaches_line hstyle hline.breakFree hbegins.all_eq_false rfl

/-- A head on two lines opens no block: after it everything is as before. -/
theorem MatrixHead.reaches_broken (hw : 0 < w) (head : MatrixHead)
    (hcommand : isCommandLine head.closing = false) :
    ∃ deep, 0 < deep ∧ ∀ st, Rests st base b excess →
      Reaches style w base st [head.opening, head.closing]
        [(head.opening, 0), (head.closing, deep)] (Rests · base b excess) := by
  have hbegins : BeginsInk head.opening := head.keyword_beginsInk.append _
  have hopening : isCommandLine head.opening = false := by
    apply isCommandLine_eq_false
    rw [hbegins.skipBlanks_eq]
    exact head.heads_opening.of_subset (by cases head.kind <;> decide)
  have hclosing : head.closing.all isBlank = false := by
    have hbracket : (']' :: head.after).all isBlank = false := rfl
    rw [MatrixHead.closing, List.all_append, hbracket, Bool.and_false]
  obtain ⟨inner, hinner, hopened⟩ := writes_matrix_opened hwidth head.unquoted_opening hopening
    hbegins.all_eq_false hw (by rw [head.balance_opening]; decide) head.opening_continued
  refine ⟨(if startsClosing head.closing then 0 else 1) + inner, Nat.add_pos_right _ hinner,
    fun st h => ?_⟩
  have hfirst : Reaches style w base st [head.opening] [(head.opening, 0)]
      (InMatrix · base b excess inner) :=
    Writes.reaches_line hstyle head.unquoted_opening.breakFree hbegins.all_eq_false rfl
      (hopened st h)
  refine hfirst.append fun st' h' => ?_
  have hclosed := writes_matrix_closed hwidth head.unquoted_closing hcommand hclosing h'
    (by rw [head.balance_closing]; decide) head.closing_not_continued
  exact hclosed.reaches_line hstyle head.unquoted_closing.breakFree hclosing rfl

/-- The rest of the block in an outer state: plain lines, then a closing word. -/
theorem reaches_closed (body : List (Nat × Plain)) (closingLead : Nat)
    (h : Rests st (base + depth) b excess) (hdepth : (b.move .close).step = depth) :
    Reaches style w base st (plainLines body ++ [behind closingLead "end".toList])
      (plainPlaced depth body ++ [("end".toList, 0)])
      (Rests · base (b.move .close).blocks (excess + (b.move .close).excess)) := by
  refine (reaches_plainLines hstyle hwidth body h).append fun st' h' => ?_
  have hat : ((base + depth : Nat) + -(b.move .close).step).toNat = base + 0 := by omega
  exact reaches_end hstyle hwidth h' hat closingLead

end

/-- A document whose first line stands behind some spaces. -/
theorem Outside.layText_behind {st : State} (hst : Outside st) {b : Blocks}
    (hblocks : st.blocks = b) {style : Style} (hstyle : style.Proper) {w : Nat} (hw : 0 < w)
    (hwidth : style.width = w) {lead : Nat} {text : List Char} (hbegins : BeginsInk text)
    {source : List Char} {rest : List (List Char)}
    (hsource : splitLines source = behind lead text :: rest) {placed : List (List Char × Nat)}
    {post : State → Prop}
    (h : ∀ st₀, Rests st₀ (lead / w) b st.excessEnds →
      Reaches style w (lead / w) st₀ (text :: rest) placed post) :
    ∃ st' out, st.layText style source 1 none = (st', .ok out) ∧
      List.Forall₂ (Stands w (lead / w)) placed (inkedLines (splitLines out)) ∧ post st' := by
  refine Reaches.layText hstyle hsource ?_
  rw [skipBlanks_behind lead hbegins, takeWhile_behind lead hbegins, hwidth]
  exact h _ (hst.enters hblocks hw lead)

theorem Kind.move_close (kind : Kind) :
    (({} : Blocks).move kind.move).blocks.move .close = ⟨{}, kind.step, 0⟩ := by
  cases kind <;> rfl

/-- **A head that is broken inside a matrix opens no block.** With a level for the body of each
function, and no block open, a head on one line has its body a step deeper and the closing word
closes it. With the same head on two lines, the body stands no deeper than the head, and the closing
word is in excess. -/
theorem layText_brokenHead (w : Nat) (hw : 0 < w) (separate : Bool) (st : State) (hst : Outside st)
    (hblocks : st.blocks = {}) (lead : Nat) (head : MatrixHead)
    (hcommand : isCommandLine head.closing = false) (body : List (Nat × Plain)) (closingLead : Nat)
    (joined broken : List Char)
    (hjoined : splitLines joined = behind lead head.joined ::
      (plainLines body ++ [behind closingLead "end".toList]))
    (hbroken : splitLines broken = behind lead head.opening :: head.closing ::
      (plainLines body ++ [behind closingLead "end".toList])) :
    (∃ st' text, st.layText ⟨w, separate, .ofInt 1⟩ joined 1 none = (st', .ok text) ∧
      List.Forall₂ (Stands w (lead / w))
        ((head.joined, 0) :: (plainPlaced head.kind.step body ++ [("end".toList, 0)]))
        (inkedLines (splitLines text)) ∧
      Rests st' (lead / w) {} st.excessEnds) ∧
    ∃ st' text deep, st.layText ⟨w, separate, .ofInt 1⟩ broken 1 none = (st', .ok text) ∧
      0 < deep ∧
      List.Forall₂ (Stands w (lead / w))
        ((head.opening, 0) :: (head.closing, deep) ::
          (plainPlaced 0 body ++ [("end".toList, 0)]))
        (inkedLines (splitLines text)) ∧
      Rests st' (lead / w) {} (st.excessEnds + 1) := by
  have hwidth : (w : Int) ≠ 0 := by omega
  have hstyle : Style.Proper ⟨w, separate, .ofInt 1⟩ := Style.proper_ofInt hwidth separate 1
  constructor
  · have hbegins : BeginsInk head.joined := head.keyword_beginsInk.append _
    refine hst.layText_behind hblocks hstyle hw rfl hbegins hjoined fun st₀ h₀ => ?_
    refine (head.reaches_joined hstyle rfl rfl h₀).append fun st₁ h₁ => ?_
    have hclosed := reaches_closed hstyle rfl body closingLead h₁ (by rw [head.kind.move_close])
    rwa [head.kind.move_close] at hclosed
  · have hbegins : BeginsInk head.opening := head.keyword_beginsInk.append _
    have hnone : (({} : Blocks).move .close).step = ((0 : Nat) : Int) := rfl
    obtain ⟨deep, hdeep, hhead⟩ := head.reaches_broken hstyle rfl hw hcommand
    obtain ⟨st', text, hlay, hstands, hrests⟩ :=
      hst.layText_behind hblocks hstyle hw rfl hbegins hbroken fun st₀ h₀ =>
        (hhead st₀ h₀).append fun st₁ h₁ =>
          reaches_closed hstyle rfl body closingLead h₁ hnone
    exact ⟨st', text, deep, hlay, hdeep, hstands, hrests⟩

/-- A loop over a matrix, to be broken after its first element. -/
def matrixLoop : MatrixHead where
  kind := .control
  keyword := "while"
  mem := by decide
  before := "any(".toList
  first := "b".toList
  second := "c".toList
  after := ")".toList
  bare := by decide
  endless := by decide +kernel

/-- Its body. -/
def loopBody : List (Nat × Plain) :=
  [(4, ⟨"x=1".toList, by decide, ⟨'x', rfl, by decide⟩, by decide +kernel⟩),
    (0, ⟨"ending".toList, by decide, ⟨'e', rfl, by decide⟩, by decide +kernel⟩)]

theorem layText_brokenHead_loop :
    let joined := "   while any([b c])\n    x=1\nending\n end".toList
    let broken := "   while any([b ...\nc])\n    x=1\nending\n end".toList
    matrixLoop.kind.step = 1 ∧
    (∃ st' text, ({} : State).layText ⟨(2 : Nat), true, .ofInt 1⟩ joined 1 none = (st', .ok text) ∧
      List.Forall₂ (Stands 2 1)
        ((matrixLoop.joined, 0) :: (plainPlaced 1 loopBody ++ [("end".toList, 0)]))
        (inkedLines (splitLines text)) ∧
      Rests st' 1 {} 0) ∧
    ∃ st' text deep, ({} : State).layText ⟨(2 : Nat), true, .ofInt 1⟩ broken 1 none =
        (st', .ok text) ∧
      0 < deep ∧
      List.Forall₂ (Stands 2 1)
        ((matrixLoop.opening, 0) :: (matrixLoop.closing, deep) ::
          (plainPlaced 0 loopBody ++ [("end".toList, 0)]))
        (inkedLines (splitLines text)) ∧
      Rests st' 1 {} 1 :=
  ⟨rfl, layText_brokenHead 2 (by decide) true {} ⟨rfl, rfl, rfl, rfl, rfl⟩ rfl 3 matrixLoop
    (by decide +kernel) loopBody 1 _ _ (by decide +kernel) (by decide +kernel)⟩

set_option maxRecDepth 4000 in
/-- **A block with a broken head.** Its body is not indented, and its `end` is in excess. -/
theorem layText_loses_block :
    let joined := ({} : State).layText ⟨4, false, .ofInt 1⟩ "if [a b]\nx\nend".toList 1 none
    let broken := ({} : State).layText ⟨4, false, .ofInt 1⟩ "if [a ...\nb]\nx\nend".toList 1 none
    (joined.2, joined.1.excessEnds) = (.ok "if [a b]\n    x\nend".toList, 0) ∧
      (broken.2, broken.1.excessEnds) = (.ok "if [a ...\n        b]\nx\nend".toList, 1) := by
  cbv

end Pcode.Indent
