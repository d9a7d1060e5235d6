import Mathlib.Data.List.Infix
import Pcode.Proofs.Indent.Blocks
import Pcode.Proofs.Indent.Keyword
import Pcode.Proofs.Spacing.Lead

set_option autoImplicit false

/-! # Bare lines

A bare line has no literal, comment, square or curly bracket and no mark of continuation, so the
layout looks at nothing but its first word. The same holds for a *whole* line, which may have
brackets if they are balanced. From a state outside comments and brackets such a line leads to
a state of the kind again (`Rests`), and what it does to the level and to the open blocks is settled
by its statement: plain code and continuations do nothing, an opening line adds a block
(`writes_opening`), and `end` drops the innermost one (`writes_end`).

Control blocks and functions are kept on two stacks, and a closing word takes from the first
as long as it can. Read one after the other the stacks are the open blocks, the innermost
first (`Inside`), as long as no function opens inside a switch: a function goes below the control
blocks, but if each of those indents by one level, as it does itself, that is the same list. -/

namespace Pcode.Indent

open Pcode.Text

/-! ## Code without literals and comments -/

/-- A text without quotes, comment signs and line breaks. -/
structure Unquoted (s : List Char) : Prop where
  free : ∀ c ∈ s, c ∉ ['\'', '"', '%']
  breakFree : BreakFree s

namespace Unquoted

variable {s t : List Char}

theorem not_mem (h : Unquoted s) {c : Char} (hc : c ∈ ['\'', '"', '%']) : c ∉ s :=
  fun hmem => h.free c hmem hc

theorem append (hs : Unquoted s) (ht : Unquoted t) : Unquoted (s ++ t) := by
  constructor
  · intro c hc
    rcases List.mem_append.1 hc with hc | hc
    · exact hs.free c hc
    · exact ht.free c hc
  · intro c hc
    rcases List.mem_append.1 hc with hc | hc
    · exact hs.breakFree c hc
    · exact ht.breakFree c hc

theorem cons (hs : Unquoted s) {c : Char} (hfree : c ∉ ['\'', '"', '%'])
    (hbreak : isLineBreak c = false) : Unquoted (c :: s) := by
  have hone : Unquoted [c] := by
    constructor
    · intro d hd
      rw [List.mem_singleton.1 hd]
      exact hfree
    · intro d hd
      rw [List.mem_singleton.1 hd]
      exact hbreak
  exact hone.append hs

/-- A text without literals and comments is all code. -/
theorem code_eq (h : Unquoted s) (st : State) : st.code s = (st, s) := by
  have hcut : Spacing.quoting.cut? s = none :=
    Spacing.quotedCut?_eq_none (h.not_mem (by decide)) (h.not_mem (by decide))
      (h.not_mem (by decide))
  rw [State.code, Spacing.Cutter.tree_of_uncut hcut]
  rfl

theorem skipBlanks_ne (h : Unquoted s) (t : List Char) : skipBlanks s ≠ '%' :: t := fun hskip =>
  h.not_mem (by decide) (Spacing.mem_of_skipBlanks_suffix (List.suffix_refl s) hskip)

end Unquoted

/-- A line of code on which no bracket is left open or closed and which does not go on on the next
one. -/
structure Whole (s : List Char) : Prop extends Unquoted s where
  matrix : balance '[' ']' s = 0
  cell : balance '{' '}' s = 0
  dots : ¬ "...".toList <:+: s

instance (s : List Char) : Decidable (Whole s) :=
  -- by going through the text, not through all characters
  haveI (p : Char → Prop) [DecidablePred p] : Decidable (∀ c ∈ s, p c) := List.decidableBAll p s
  decidable_of_iff ((∀ c ∈ s, c ∉ ['\'', '"', '%']) ∧ (∀ c ∈ s, isLineBreak c = false) ∧
      balance '[' ']' s = 0 ∧ balance '{' '}' s = 0 ∧ ¬ "...".toList <:+: s)
    ⟨fun h => ⟨⟨h.1, h.2.1⟩, h.2.2.1, h.2.2.2.1, h.2.2.2.2⟩,
      fun h => ⟨h.free, h.breakFree, h.matrix, h.cell, h.dots⟩⟩

theorem prefix_or_mem_of_prefix {p s t : List Char} {x : Char} (h : p <+: s ++ x :: t) :
    p <+: s ∨ x ∈ p := by
  induction s generalizing p with
  | nil =>
      cases p with
      | nil => exact Or.inl (List.prefix_refl [])
      | cons c p =>
          obtain ⟨rfl, -⟩ := List.cons_prefix_cons.1 h
          exact Or.inr List.mem_cons_self
  | cons d s ih =>
      cases p with
      | nil => exact Or.inl List.nil_prefix
      | cons c p =>
          obtain ⟨rfl, hrest⟩ := List.cons_prefix_cons.1 h
          rcases ih hrest with hpart | hmem
          · exact Or.inl (List.cons_prefix_cons.2 ⟨rfl, hpart⟩)
          · exact Or.inr (List.mem_cons_of_mem c hmem)

/-- A text that does not hold the character between two others is part of one of them. -/
theorem not_infix_append_cons {p s t : List Char} {x : Char} (hx : x ∉ p) (hs : ¬ p <:+: s)
    (ht : ¬ p <:+: t) : ¬ p <:+: s ++ x :: t := by
  have hne : p ≠ [] := by
    rintro rfl
    exact hs (List.nil_infix)
  induction s with
  | nil =>
      intro h
      rcases List.infix_cons_iff.1 h with hstart | hpart
      · rcases prefix_or_mem_of_prefix (s := []) hstart with hnil | hmem
        · exact hne (List.prefix_nil.1 hnil)
        · exact hx hmem
      · exact ht hpart
  | cons c s ih =>
      intro h
      rcases List.infix_cons_iff.1 h with hstart | hpart
      · rcases prefix_or_mem_of_prefix (s := c :: s) hstart with hpart | hmem
        · exact hs hpart.isInfix
        · exact hx hmem
      · exact ih (fun hpart => hs (hpart.trans (List.suffix_cons c s).isInfix)) hpart

theorem hasDots_iff {s : List Char} : hasDots s = true ↔ "...".toList <:+: s := by
  constructor
  · fun_induction hasDots s with
    | case1 s => exact fun _ => (List.prefix_append _ s).isInfix
    | case2 c s _ ih => exact fun h => (ih h).trans (List.suffix_cons c s).isInfix
    | case3 => exact fun h => by cases h
  · fun_induction hasDots s with
    | case1 s => exact fun _ => rfl
    | case2 c s hstart ih =>
        intro h
        rcases List.infix_cons_iff.1 h with hdots | hpart
        · obtain ⟨r, hr⟩ := hdots
          obtain ⟨rfl, rfl⟩ := List.cons.inj hr
          exact absurd rfl (hstart r rfl)
        · exact ih hpart
    | case3 => exact fun h => absurd (List.infix_nil.1 h) (by decide)

theorem hasDots_eq_false {s : List Char} (h : ¬ "...".toList <:+: s) : hasDots s = false := by
  rwa [Bool.eq_false_iff, ne_eq, hasDots_iff]

namespace Whole

variable {s : List Char}

theorem isContinued_eq (h : Whole s) : isContinued s = false := by
  rw [isContinued, firstLine_of_not_mem h.breakFree.newline_not_mem, hasDots_eq_false h.dots]
  rfl

theorem trackMatrix_eq (h : Whole s) (width : Int) (st : State) :
    st.trackMatrix width s = (st, .ok 0) := by
  simp [State.trackMatrix, h.code_eq, trackBracket, h.matrix]

theorem trackCell_eq (h : Whole s) (width : Int) (st : State) :
    st.trackCell width s = (st, .ok 0) := by
  simp [State.trackCell, h.code_eq, trackBracket, h.cell]

end Whole

theorem balance_eq {opening closing : Char} {s : List Char} (hopening : opening ∉ s)
    (hclosing : closing ∉ s) : balance opening closing s = 0 := by
  rw [balance, List.count_eq_zero_of_not_mem hopening, List.count_eq_zero_of_not_mem hclosing]
  rfl

/-! ## Bare lines -/

/-- A text without literals, comments, square and curly brackets, marks of continuation and line
breaks. -/
structure Bare (s : List Char) : Prop where
  free : ∀ c ∈ s, c ∉ ['\'', '"', '%', '[', ']', '{', '}']
  dots : ¬ "...".toList <:+: s
  breakFree : BreakFree s

instance (s : List Char) : Decidable (Bare s) :=
  -- by going through the text, not through all characters
  haveI (p : Char → Prop) [DecidablePred p] : Decidable (∀ c ∈ s, p c) := List.decidableBAll p s
  decidable_of_iff ((∀ c ∈ s, c ∉ ['\'', '"', '%', '[', ']', '{', '}']) ∧
      ¬ "...".toList <:+: s ∧ ∀ c ∈ s, isLineBreak c = false)
    ⟨fun h => ⟨h.1, h.2.1, h.2.2⟩, fun h => ⟨h.free, h.dots, h.breakFree⟩⟩

namespace Bare

variable {s : List Char}

theorem not_mem (h : Bare s) {c : Char} (hc : c ∈ ['\'', '"', '%', '[', ']', '{', '}']) : c ∉ s :=
  fun hmem => h.free c hmem hc

theorem nil : Bare [] :=
  ⟨fun _ hc => absurd hc List.not_mem_nil, by decide, fun _ hc => absurd hc List.not_mem_nil⟩

theorem cons (h : Bare s) {c : Char} (hfree : c ∉ ['.', '\'', '"', '%', '[', ']', '{', '}'])
    (hbreak : isLineBreak c = false) : Bare (c :: s) := by
  refine ⟨fun d hd => ?_, fun hdots => ?_, fun d hd => ?_⟩
  · rcases List.mem_cons.1 hd with rfl | hd
    · exact fun hmem => hfree (List.mem_cons_of_mem _ hmem)
    · exact h.free d hd
  · rcases List.infix_cons_iff.1 hdots with hstart | hpart
    · have hdot : '.' = c := (List.cons_prefix_cons.1 hstart).1
      exact hfree (hdot ▸ List.mem_cons_self)
    · exact h.dots hpart
  · rcases List.mem_cons.1 hd with rfl | hd
    · exact hbreak
    · exact h.breakFree d hd

theorem pad (h : Bare s) (n : Nat) : Bare (List.replicate n ' ' ++ s) := by
  induction n with
  | zero => exact h
  | succ n ih => exact ih.cons (by decide) (by decide)

theorem word_append {w : List Char} (hw : ∀ c ∈ w, isWord c = true) (h : Bare s) :
    Bare (w ++ s) := by
  have hmarks : ∀ c ∈ ['.', '\'', '"', '%', '[', ']', '{', '}'], (!isWord c) = true :=
    List.all_eq_true.1 (by decide)
  induction w with
  | nil => exact h
  | cons c w ih =>
      have hc := hw c (by simp)
      refine (ih fun d hd => hw d (by simp [hd])).cons (fun hmem => ?_) ?_
      · have hmark := hmarks c hmem
        rw [hc] at hmark
        cases hmark
      · exact isLineBreak_of_not_isBlank (isBlank_of_isWord hc)

theorem unquoted (h : Bare s) : Unquoted s := by
  have hsubset : ['\'', '"', '%'] ⊆ ['\'', '"', '%', '[', ']', '{', '}'] := by decide
  exact ⟨fun c hc hmem => h.free c hc (hsubset hmem), h.breakFree⟩

theorem whole (h : Bare s) : Whole s where
  toUnquoted := h.unquoted
  matrix := balance_eq (h.not_mem (by decide)) (h.not_mem (by decide))
  cell := balance_eq (h.not_mem (by decide)) (h.not_mem (by decide))
  dots := h.dots

end Bare

/-! ## The state between whole lines -/

/-- The state is outside comments, brackets and continued lines. -/
structure Outside (st : State) : Prop where
  matrix : st.matrix = 0
  cell : st.cell = 0
  blockComment : st.blockComment = .outside
  commentRun : st.commentRun = 0
  longLine : st.longLine = false

/-- Outside of these, the state is at the given level with the given blocks open; `excess` closing
words had no block to close. -/
structure Rests (st : State) (level : Nat) (blocks : Blocks) (excess : Nat) : Prop
    extends Outside st where
  level_eq : st.level = level
  blocks_eq : st.blocks = blocks
  excess_eq : st.excessEnds = excess

/-- The state in which a whole line is looked at. -/
def State.begun (st : State) : State := { st with sawComment := false, continued := false }

/-- A line without comment signs is no comment, and after such lines no comment is near. -/
theorem State.trackComments_eq {st : State} (hblock : st.blockComment = .outside)
    (hrun : st.commentRun = 0) {line : List Char} (hline : Unquoted line) :
    st.trackComments line = st := by
  have hcomment : isCommentLine line = false := by
    rw [isCommentLine]
    split
    · next hskip => exact absurd hskip (hline.skipBlanks_ne _)
    · rfl
  have hopens : opensComment line = false := by
    rw [opensComment]
    split
    · next hskip => exact absurd hskip (hline.skipBlanks_ne _)
    · rfl
  have hcloses : closesComment line = false := by
    rw [closesComment]
    split
    · next hskip => exact absurd hskip (hline.skipBlanks_ne _)
    · rfl
  cases st
  simp only at hrun hblock
  simp [State.trackComments, hcomment, hopens, hcloses, hrun, hblock]

namespace Outside

variable {st : State} {line : List Char}

theorem trackContinuation_eq (h : Outside st) (hline : Whole line) :
    st.trackContinuation line = st.begun := by
  have hlong := h.longLine
  cases st
  simp only at hlong
  simp [State.trackContinuation, hline.code_eq, hline.isContinued_eq, hlong, State.begun]

/-- **A whole line is laid out by its statement alone.** -/
theorem layLine_eq (h : Outside st) (hline : Whole line) (hcommand : isCommandLine line = false)
    (style : Style) : st.layLine style line = st.begun.layStatement style line := by
  have hbegun : Outside st.begun := { h with }
  simp [State.layLine, State.trackComments_eq h.blockComment h.commentRun hline.toUnquoted,
    h.trackContinuation_eq hline, hcommand, hbegun.blockComment, hbegun.commentRun, State.layCode,
    hline.trackMatrix_eq, hline.trackCell_eq, hbegun.matrix, hbegun.cell]

theorem layLine_of_command (h : Outside st) (hline : Whole line)
    (hcommand : isCommandLine line = true) (style : Style) :
    st.layLine style line = (st.begun, .ok ⟨0, st.begun.indent style.width 0 ++ trim line⟩) := by
  have hbegun : Outside st.begun := { h with }
  simp [State.layLine, State.trackComments_eq h.blockComment h.commentRun hline.toUnquoted,
    h.trackContinuation_eq hline, hcommand, hbegun.blockComment]

end Outside

namespace Rests

variable {st : State} {level : Nat} {b : Blocks} {excess : Nat}

theorem begun (h : Rests st level b excess) : Rests st.begun level b excess := { h with }

theorem noteTree (h : Rests st level b excess) (t : Spacing.Tree) :
    Rests (st.noteTree t) level b excess := by
  rw [State.noteTree]
  split
  · exact { h with }
  · exact h

/-- Blanks in front of a line, by the level at which it is written; below zero there are none. -/
theorem indent_eq (h : Rests st level b excess) (hcontinued : st.continued = false) (w : Nat)
    (add : Int) : st.indent w add = List.replicate ((level + add).toNat * w) ' ' := by
  have hcolumn : (st.level + (if st.continued then 1 else 0) + add) * w = (level + add) * w := by
    simp [h.level_eq, hcontinued]
  have hlength : ((level + add) * w).toNat = (level + add).toNat * w := by
    rcases Int.le_total 0 ((level : Int) + add) with hpos | hneg
    · obtain ⟨n, hn⟩ := Int.eq_ofNat_of_zero_le hpos
      rw [hn, ← Int.natCast_mul, Int.toNat_natCast, Int.toNat_natCast]
    · have hproduct : ((level : Int) + add) * w ≤ 0 :=
        Int.mul_nonpos_of_nonpos_of_nonneg hneg (Int.natCast_nonneg w)
      rw [Int.toNat_of_nonpos hproduct, Int.toNat_of_nonpos hneg, Nat.zero_mul]
  rw [State.indent, hcolumn, hlength]

theorem shift (h : Rests st level b excess) (offset : Int) :
    Rests (st.shift offset) (level + offset).toNat b excess := by
  refine { h with level_eq := ?_ }
  show max 0 (st.level + offset) = (level + offset).toNat
  rw [h.level_eq]
  omega

end Rests

/-! ## Where a line is written -/

/-- Spacing leaves the ink of a line, so that a line that is not blank begins with ink when its
blanks are in order. -/
theorem State.beginsInk_space (st : State) {line : List Char} (hline : '\n' ∉ line)
    (hink : line.all isBlank = false) : BeginsInk (st.space line).2 := by
  apply beginsInk_trim
  change (Spacing.format line).all isBlank = false
  have hrespaced := Spacing.respaced_format hline
  cases hall : (Spacing.format line).all isBlank with
  | false => rfl
  | true =>
      rw [← ink_eq_nil_iff, hrespaced.ink_eq, ink_eq_nil_iff, hink] at hall
      cases hall

/-- The line is written at `level` and leads to a state of which `post` holds. -/
def Writes (style : Style) (st : State) (line : List Char) (w level : Nat) (post : State → Prop) :
    Prop :=
  ∃ st' l text, st.layLine style line = (st', .ok l) ∧
    l.text = List.replicate (level * w) ' ' ++ text ∧ BeginsInk text ∧ post (st'.shift l.offset)

theorem Writes.imp {style : Style} {st : State} {line : List Char} {w level : Nat}
    {post post' : State → Prop} (h : Writes style st line w level post)
    (himp : ∀ st', post st' → post' st') : Writes style st line w level post' := by
  obtain ⟨st', l, text, hlay, htext, hbegins, hpost⟩ := h
  exact ⟨st', l, text, hlay, htext, hbegins, himp _ hpost⟩

/-- The levels that a block indents when it is closed. -/
def Kind.step : Kind → Nat
  | .function => 1
  | .control => 1
  | .switch => 2

/-- The move that opens a block. -/
def Kind.move : Kind → Move
  | .function => .function
  | .control => .control 1
  | .switch => .control 2

/-- The state after a block has been opened. -/
def State.opened (st : State) : Kind → State
  | .function => st.openFunction
  | .control => st.openControl 1
  | .switch => st.openControl 2

/-- The body of a block is indented by `offset` levels. -/
def Kind.Indents (style : Style) (st : State) (offset : Int) : Kind → Prop
  | .function => st.openFunction.functionOffset style = .ok offset
  | .control => offset = 1
  | .switch => offset = 2

theorem layStatement_opening {style : Style} {kind : Kind} {line keyword tail : List Char}
    (hline : Statement.ofLine line = kind.opening keyword tail) {st : State} {offset : Int}
    (hoffset : kind.Indents style st offset) :
    st.layStatement style line =
      (((st.opened kind).keywordLine style.width offset 0 keyword tail).1,
        .ok ((st.opened kind).keywordLine style.width offset 0 keyword tail).2) := by
  unfold State.layStatement
  rw [hline]
  cases kind with
  | function =>
      simp only [Kind.opening]
      rw [show st.openFunction.functionOffset style = .ok offset from hoffset]
      rfl
  | control =>
      obtain rfl : offset = 1 := hoffset
      rfl
  | switch =>
      obtain rfl : offset = 2 := hoffset
      rfl

section

variable {style : Style} {w : Nat} (hwidth : style.width = w) {st : State} {level : Nat}
  {b : Blocks} {excess : Nat} (h : Rests st level b excess) {line : List Char} (hline : Whole line)

include hwidth h hline

/-- Plain code and commands stand where they are and change nothing. -/
theorem writes_plain (hink : line.all isBlank = false)
    (hhead : ¬ Heads keywords (skipBlanks line)) :
    Writes style st line w level (Rests · level b excess) := by
  have hindent : st.begun.indent style.width 0 = List.replicate (level * w) ' ' := by
    rw [hwidth, h.begun.indent_eq rfl w 0, Int.add_zero, Int.toNat_natCast]
  have hstays : ∀ st', Rests st' level b excess → Rests (st'.shift 0) level b excess :=
    fun st' h' => h'.shift 0
  -- a command is written as it is, other code with its spacing in order
  by_cases hcommand : isCommandLine line = true
  · exact ⟨st.begun, _, trim line, h.layLine_of_command hline hcommand style, by rw [hindent],
      beginsInk_trim hink, hstays _ h.begun⟩
  · have hlay := h.layLine_eq hline (by simpa using hcommand) style
    have hspaced := st.begun.beginsInk_space hline.breakFree.newline_not_mem hink
    rw [State.layStatement, ofLine_plain hhead] at hlay
    refine ⟨_, _, (st.begun.space line).2, hlay, ?_, hspaced, hstays _ (h.begun.noteTree _)⟩
    show st.begun.indent style.width 0 ++ _ = _
    rw [hindent]
    rfl

omit h hline in
/-- A keyword with its tail, written by the state `st₁` to which the statement has led. -/
theorem writes_of_keywordLine {st₁ : State} {keyword tail : List Char} {offset add : Int}
    (hlay : st.layLine style line =
      ((st₁.keywordLine style.width offset add keyword tail).1,
        .ok (st₁.keywordLine style.width offset add keyword tail).2))
    (h₁ : Rests st₁ level b excess) (hcontinued : st₁.continued = false)
    (hkeyword : BeginsInk keyword) :
    Writes style st line w (level + add).toNat (Rests · (level + offset).toNat b excess) := by
  refine ⟨_, _, keyword ++ ' ' :: (st₁.space tail).2, hlay, ?_, hkeyword.append _,
    (h₁.noteTree _).shift offset⟩
  show st₁.indent style.width add ++ keyword ++ ' ' :: (st₁.space tail).2 = _
  rw [hwidth, h₁.indent_eq hcontinued w add, List.append_assoc]

/-- A continuation stands one level higher than the block that it continues. -/
theorem writes_continuation (hhead : Heads continuationWords (skipBlanks line))
    (htail : ∃ tail, expressionTail? (afterWord (skipBlanks line)) = some tail) :
    Writes style st line w (level - 1) (Rests · level b excess) := by
  obtain ⟨tail, htail⟩ := htail
  have hcommand := isCommandLine_eq_false (hhead.of_subset (by decide))
  have hlay := h.layLine_eq hline hcommand style
  rw [State.layStatement, ofLine_continuation hhead htail] at hlay
  have hwrites := writes_of_keywordLine hwidth hlay h.begun rfl (hhead.beginsInk (by decide))
  have hat : ((level : Int) + -1).toNat = level - 1 := by omega
  rwa [hat, Int.add_zero, Int.toNat_natCast] at hwrites

/-- The head of a block stands where it is; the next line stands in the block. -/
theorem writes_opening {kind : Kind} {offset : Int} (hoffset : kind.Indents style st offset)
    (hhead : Heads kind.words (skipBlanks line))
    (hshort : shortBody? (afterWord (skipBlanks line)) = none)
    (htail : ∃ tail, expressionTail? (afterWord (skipBlanks line)) = some tail) :
    Writes style st line w level
      (Rests · (level + offset).toNat (b.move kind.move).blocks excess) := by
  obtain ⟨tail, htail⟩ := htail
  have hsubset : kind.words ⊆ keywords := by cases kind <;> decide
  have hink : ∀ w ∈ kind.words, BeginsInk w.toList := by cases kind <;> decide
  have hlay := h.layLine_eq hline (isCommandLine_eq_false (hhead.of_subset hsubset)) style
  have hbegun : kind.Indents style st.begun offset := by cases kind <;> exact hoffset
  rw [layStatement_opening (ofLine_opening hhead hshort htail) hbegun] at hlay
  have hcontinued : (st.begun.opened kind).continued = false := by cases kind <;> rfl
  have hopened : Rests (st.begun.opened kind) level (b.move kind.move).blocks excess := by
    have hblocks := h.blocks_eq
    subst hblocks
    cases kind with
    | function => exact { h with blocks_eq := rfl }
    | control => exact { h with blocks_eq := rfl }
    | switch => exact { h with blocks_eq := rfl }
  have hwrites := writes_of_keywordLine hwidth hlay hopened hcontinued (hhead.beginsInk hink)
  rwa [Int.add_zero, Int.toNat_natCast] at hwrites

/-- A closing word stands as many levels higher as the block indents that it closes, and so does the
next line. -/
theorem writes_end (hend : skipBlanks line = "end".toList) :
    Writes style st line w (level + -(b.move .close).step).toNat
      (Rests · (level + -(b.move .close).step).toNat (b.move .close).blocks
        (excess + (b.move .close).excess)) := by
  have hhead : Heads keywords (skipBlanks line) := by
    rw [hend]
    decide
  have hlay := h.layLine_eq hline (isCommandLine_eq_false hhead) style
  have hclose := st.begun.closeBlock_under st.level st.blocks st.excessEnds
  change st.begun.closeBlock = _ at hclose
  rw [State.layStatement, ofLine_end hend] at hlay
  simp only [hclose, h.blocks_eq] at hlay
  have hclosed : Rests (st.begun.under st.level (b.move .close).blocks
      (st.excessEnds + (b.move .close).excess)) level (b.move .close).blocks
      (excess + (b.move .close).excess) :=
    { h with blocks_eq := rfl, excess_eq := by rw [← h.excess_eq]; rfl }
  exact writes_of_keywordLine hwidth hlay hclosed rfl (by decide)

end

/-! ## The open blocks in one list -/

/-- All open blocks, the innermost first. -/
def Blocks.steps (b : Blocks) : List Int := b.control ++ b.functions

theorem append_one_cons {xs : List Int} (h : ∀ x ∈ xs, x = 1) (ys : List Int) :
    xs ++ 1 :: ys = 1 :: (xs ++ ys) := by
  induction xs with
  | nil => rfl
  | cons x xs ih =>
      have hx : x = 1 := h x (by simp)
      rw [List.cons_append, ih fun y hy => h y (by simp [hy]), hx]
      rfl

/-- An opened block is the innermost one. A function goes below the control blocks, which
makes no difference where every open block indents by one level. -/
theorem Blocks.steps_opened {b : Blocks} {kind : Kind}
    (hones : kind = .function → ∀ step ∈ b.steps, step = 1) :
    (b.move kind.move).blocks.steps = (kind.step : Int) :: b.steps := by
  cases kind with
  | function =>
      -- on its stack the function lies below the control blocks; as their steps are all one, the
      -- list of steps is the same with its step on top
      have hcontrol : ∀ step ∈ b.control, step = 1 := by
        intro step hstep
        exact hones rfl step (List.mem_append_left _ hstep)
      show b.control ++ 1 :: b.functions = 1 :: (b.control ++ b.functions)
      rw [append_one_cons hcontrol]
  | control => rfl
  | switch => rfl

/-- A closing word takes the innermost block, from whichever stack it is on. -/
theorem Blocks.steps_close {b : Blocks} {step : Int} {steps : List Int}
    (h : b.steps = step :: steps) :
    (b.move .close).blocks.steps = steps ∧ (b.move .close).step = step ∧
      (b.move .close).excess = 0 := by
  obtain ⟨control, functions⟩ := b
  unfold Blocks.steps at h
  cases control with
  | cons top rest =>
      obtain ⟨htop, hrest⟩ := List.cons.inj h
      exact ⟨hrest, htop, rfl⟩
  | nil =>
      -- no control block is open, so the innermost step is a function's
      cases functions with
      | nil => cases h
      | cons top rest =>
          obtain ⟨htop, hrest⟩ := List.cons.inj h
          exact ⟨hrest, htop, rfl⟩

/-- Outside comments, brackets and continued lines, the state is at the given level and in the given
blocks, the innermost first; `excess` closing words had no block to close. -/
structure Inside (st : State) (level : Nat) (steps : List Int) (excess : Nat) : Prop
    extends Outside st where
  level_eq : st.level = level
  steps_eq : st.blocks.steps = steps
  excess_eq : st.excessEnds = excess

theorem Inside.rests {st : State} {level : Nat} {steps : List Int} {excess : Nat}
    (h : Inside st level steps excess) : Rests st level st.blocks excess :=
  { h with blocks_eq := rfl }

theorem Rests.inside {st : State} {level : Nat} {b : Blocks} {excess : Nat}
    (h : Rests st level b excess) : Inside st level b.steps excess :=
  { h with steps_eq := by rw [h.blocks_eq] }

end Pcode.Indent
