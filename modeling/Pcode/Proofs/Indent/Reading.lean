import Pcode.Proofs.Indent.Nesting
import Pcode.Proofs.Indent.Rows
import Pcode.Proofs.Indent.Written

set_option autoImplicit false

/-! # How a line is read

Outside block comments a line is read in one of a few forms. The form says all that the line does to
the state and where it is written (`Reads.layLine`), together with two marks in its code: whether it
goes on on the next line, and whether it begins with a closing bracket. What differs between two
lines of a form is the text behind the keyword; what is read of a line otherwise is its first word,
and whether it is a comment or a command (`isCommentLine_iff`, `isCommandLine_iff`), which spacing
does not change. -/

namespace Pcode.Text

theorem infix_ink {w s : List Char} (hw : w.all (fun c => !isBlank c) = true) (h : w <:+: s) :
    w <:+: ink s := by
  have hfilter := List.IsInfix.filter (fun c => !isBlank c) h
  rwa [List.filter_eq_self.2 (List.all_eq_true.1 hw)] at hfilter

end Pcode.Text

namespace Pcode.Indent

open Pcode.Text
open Pcode.Spacing (QuotedLine format codeOf)

/-! ## Tails -/

/-- The expression behind a keyword is what is left without the blanks, or the last blank is kept;
which of them is settled by the ink. -/
theorem expressionTail?_eq {s tail : List Char} (hs : '\n' ∉ s)
    (h : expressionTail? s = some tail) :
    (tail = skipBlanks s ∧ ((ink s).head?.any isWord || decide ((ink s).length = 1)) = false) ∨
      ∃ b ∈ s, isBlank b = true ∧ tail = b :: skipBlanks s ∧
        ((ink s).head?.any isWord || decide ((ink s).length = 1)) = true := by
  rw [expressionTail?] at h
  split at h
  · next hnil =>
      cases h
      have hink : ink s = [] := by rw [← ink_skipBlanks, show skipBlanks s = [] from hnil, ink_nil]
      exact Or.inl ⟨hnil.symm, by rw [hink]; rfl⟩
  · next c t hcons =>
      have hskip : skipBlanks s = c :: t := hcons
      have hc : isBlank c = false := isBlank_of_skipBlanks_eq_cons hskip
      have hink : ink s = c :: ink t := by rw [← ink_skipBlanks, hskip, ink_cons_of_ink hc]
      have ht : '\n' ∉ t := Spacing.newline_not_mem_of_skipBlanks (u := [c]) hs hskip
      rw [hink, hskip]
      split at h
      · next hmore =>
          cases h
          rw [Bool.and_eq_true, Bool.not_eq_true', Bool.not_eq_true'] at hmore
          have hne : ink t ≠ [] := fun hnil => by
            rw [(ink_eq_nil_iff t).1 hnil] at hmore
            cases hmore.2
          refine Or.inl ⟨by rw [Spacing.takeWhile_append_firstLine ht], ?_⟩
          simp [hmore.1, hne]
      · next hless =>
          split at h
          · next b hlast =>
              cases h
              have hb : b ∈ s.takeWhile isBlank := List.mem_of_getLast? hlast
              refine Or.inr ⟨b, (List.takeWhile_sublist isBlank).mem hb, List.mem_takeWhile_imp hb,
                by rw [firstLine_of_not_mem ht], ?_⟩
              by_cases hword : isWord c = true
              · simp [hword]
              · have hnil : ink t = [] := (ink_eq_nil_iff t).2 (by simpa [hword] using hless)
                simp [hnil]
          · cases h

theorem gapAt_expressionTail? {s tail : List Char} (hs : '\n' ∉ s)
    (h : expressionTail? s = some tail) :
    gapAt 0 tail = ((ink s).head?.any isWord || decide ((ink s).length = 1)) ∧
      ∀ j, gapAt (j + 1) tail = gapAt (j + 1) s := by
  rcases expressionTail?_eq hs h with ⟨rfl, hstart⟩ | ⟨b, -, hb, rfl, hstart⟩
  · exact ⟨by rw [gapAt_zero_skipBlanks, hstart], fun j => gapAt_skipBlanks j s⟩
  · refine ⟨by rw [hstart]; simp [gapAt, hb], fun j => ?_⟩
    rw [gapAt, past_cons_of_blank hb]
    exact gapAt_skipBlanks j s

/-- What follows a closing word: a semicolon or none, and the rest of the line. -/
structure ClosedBy (s keyword tail mark rest : List Char) : Prop where
  mark_eq : mark = [';'] ∨ mark = [] ∧ ∀ c ∈ rest.head?, c ≠ ';'
  keyword_eq : keyword = firstWord s ++ mark
  after_eq : afterWord s = mark ++ rest
  tail_eq : closingTail? rest = some tail

theorem ClosedBy.unique {s k k' t t' m m' r r' : List Char} (h : ClosedBy s k t m r)
    (h' : ClosedBy s k' t' m' r') : k = k' ∧ t = t' := by
  have hmark : m = m' ∧ r = r' := by
    have hafter := h.after_eq.symm.trans h'.after_eq
    rcases h.mark_eq with rfl | ⟨rfl, hr⟩
    · rcases h'.mark_eq with rfl | ⟨rfl, hother⟩
      · exact ⟨rfl, List.append_cancel_left hafter⟩
      · exact absurd rfl (hother ';' (by rw [← List.nil_append r', ← hafter]; rfl))
    · rcases h'.mark_eq with rfl | ⟨rfl, -⟩
      · exact absurd rfl (hr ';' (by rw [← List.nil_append r, hafter]; rfl))
      · exact ⟨rfl, hafter⟩
  obtain ⟨rfl, rfl⟩ := hmark
  exact ⟨h.keyword_eq.trans h'.keyword_eq.symm, Option.some.inj (h.tail_eq.symm.trans h'.tail_eq)⟩

/-- A closing word is the first one of the text. -/
theorem closing?_eq_some_iff {words : List String} (hwords : AreWords words)
    {s keyword tail : List Char} :
    closing? words s = some (keyword, tail) ↔
      Heads words s ∧ ∃ mark rest, ClosedBy s keyword tail mark rest := by
  have hfound : ∀ k t, closing? words s = some (k, t) →
      Heads words s ∧ ∃ mark rest, ClosedBy s k t mark rest := by
    intro k t h
    obtain ⟨v, hv, hvt⟩ := List.exists_of_findSome?_eq_some h
    obtain ⟨r, hword, hr⟩ := Option.bind_eq_some_iff.1 hvt
    rw [after?_eq_some hword]
    split at hr
    · next rest =>
        obtain ⟨u, hu, hpair⟩ := Option.map_eq_some_iff.1 hr
        cases hpair
        obtain ⟨hfirst, hafter⟩ :=
          firstWord_of_boundary (w := v.toList) (r := ';' :: rest) (hwords v hv)
          (by intro c hc; cases hc; decide)
        exact ⟨⟨v, hv, hfirst.symm⟩, [';'], rest, Or.inl rfl, by rw [hfirst], hafter, hu⟩
    · next hother =>
        obtain ⟨u, hu, hpair⟩ := Option.map_eq_some_iff.1 hr
        cases hpair
        obtain ⟨hfirst, hafter⟩ := firstWord_of_tail refusesWord_closingTail? (hwords v hv) hu
        refine ⟨⟨v, hv, hfirst.symm⟩, [], r,
          Or.inr ⟨rfl, ?_⟩, by rw [hfirst, List.append_nil], hafter, hu⟩
        rintro c hc rfl
        obtain ⟨rest, hrest⟩ := List.head?_eq_some_iff.1 hc
        exact hother rest hrest
  refine ⟨hfound keyword tail, ?_⟩
  rintro ⟨⟨v, hv, hvs⟩, mark, rest, hclosed⟩
  cases hclosing : closing? words s with
  | some p =>
      obtain ⟨k, t⟩ := p
      obtain ⟨-, mark', rest', hclosed'⟩ := hfound k t hclosing
      obtain ⟨rfl, rfl⟩ := hclosed.unique hclosed'
      rfl
  | none =>
      have hnone := List.findSome?_eq_none_iff.1 hclosing v hv
      have hword : after? v.toList s = some (mark ++ rest) :=
        after?_eq_some_iff.2 (by rw [hvs, ← hclosed.after_eq, firstWord_append_afterWord])
      rw [hword, Option.bind_some] at hnone
      rcases hclosed.mark_eq with rfl | ⟨rfl, hrest⟩
      · simp [hclosed.tail_eq] at hnone
      · split at hnone
        · next hsemicolon =>
            exact absurd rfl (hrest ';' (by rw [← List.nil_append rest, hsemicolon]; rfl))
        · simp [hclosed.tail_eq] at hnone

theorem ofLine_closing {line keyword tail : List Char}
    (h : closing? endWords (skipBlanks line) = some (keyword, tail)) :
    Statement.ofLine line = .blockEnd keyword tail := by
  have hhead := ((closing?_eq_some_iff (by decide)).1 h).1
  have hshort : word? shortBlockWords shortBody? (skipBlanks line) = none :=
    word?_eq_none (by decide) refusesWord_shortBody? (hhead.not_of_disjoint (by decide))
  have hmissed : ∀ words, AreWords words → (∀ w ∈ endWords, w ∉ words) →
      word? words expressionTail? (skipBlanks line) = none :=
    fun words hwords h =>
      word?_eq_none hwords refusesWord_expressionTail? (hhead.not_of_disjoint h)
  simp only [Statement.ofLine, hshort, hmissed functionWords (by decide) (by decide),
    hmissed blockWords (by decide) (by decide), hmissed switchWords (by decide) (by decide),
    hmissed continuationWords (by decide) (by decide), h]

/-- A command is told by the first word of a line. -/
theorem isCommandLine_iff {line : List Char} (hline : '\n' ∉ line) :
    isCommandLine line = true ↔ ∃ w ∈ commandWords, w.toList <+: firstWord (skipBlanks line) := by
  have hskip : '\n' ∉ skipBlanks line := (Respaced.skipBlanks line).newline_not_mem hline
  have hwords : ∀ w ∈ commandWords, ∀ c ∈ w.toList, isWord c = true :=
    (by decide : AreWords commandWords)
  rw [isCommandLine, Option.isSome_iff_exists]
  constructor
  · rintro ⟨p, hp⟩
    obtain ⟨w, hw, hword⟩ := List.exists_of_findSome?_eq_some hp
    obtain ⟨r, hafter, -⟩ := Option.bind_eq_some_iff.1 hword
    refine ⟨w, hw, ?_⟩
    rw [after?_eq_some hafter, firstWord, List.takeWhile_append_of_pos (hwords w hw)]
    exact List.prefix_append _ _
  · rintro ⟨w, hw, hpart⟩
    obtain ⟨r, hr⟩ := hpart.trans (List.takeWhile_prefix isWord)
    have hone : isOneLine r = true :=
      isOneLine_of_not_mem fun hmem => hskip (by rw [← hr]; exact List.mem_append_right _ hmem)
    rw [← Option.isSome_iff_exists, ← Option.ne_none_iff_isSome]
    intro hnone
    have hmissed := List.findSome?_eq_none_iff.1 hnone w hw
    rw [after?_eq_some_iff.2 hr.symm] at hmissed
    simp [hone] at hmissed

/-- A comment is told by the first character of a line. -/
theorem isCommentLine_iff {line : List Char} (hline : '\n' ∉ line) :
    isCommentLine line = true ↔ ∃ r, trim line = '%' :: r := by
  have hskip : '\n' ∉ skipBlanks line := (Respaced.skipBlanks line).newline_not_mem hline
  rw [isCommentLine, trim]
  constructor
  · intro h
    split at h
    · next r hr => exact ⟨trimEnd r, by rw [hr, trimEnd_cons_of_ink (by decide)]⟩
    · cases h
  · rintro ⟨r, hr⟩
    obtain ⟨b, hb, -⟩ := exists_trimEnd_append (skipBlanks line)
    rw [hr] at hb
    rw [hb] at hskip ⊢
    exact isOneLine_of_not_mem fun hmem => hskip (List.mem_cons_of_mem _ hmem)

theorem isCommentLine_respaced {s t : List Char} (h : Respaced s t) (hs : '\n' ∉ s) :
    isCommentLine t = isCommentLine s := by
  -- the first character of a text without blanks is the first of its ink
  have hfirst : ∀ u : List Char, (∃ r, trim u = '%' :: r) ↔ (ink u).head? = some '%' := by
    intro u
    rw [← (Respaced.trim u).ink_eq]
    constructor
    · rintro ⟨r, hr⟩
      rw [hr, ink_cons_of_ink (by decide)]
      rfl
    · intro hhead
      have hink : u.all isBlank = false := by
        rw [← Bool.not_eq_true, ← ink_eq_nil_iff, ← (Respaced.trim u).ink_eq]
        intro hnil
        rw [hnil] at hhead
        cases hhead
      obtain ⟨c, r, hcons, hc⟩ := (beginsInk_trim hink).exists_cons
      rw [hcons, ink_cons_of_ink hc] at hhead
      exact ⟨r, by rw [hcons, Option.some.inj hhead]⟩
  rw [Bool.eq_iff_iff, isCommentLine_iff (h.newline_not_mem hs), isCommentLine_iff hs, hfirst,
    hfirst, h.ink_eq]

/-! ## States between lines -/

/-- The state is outside block comments. -/
structure Calm (st : State) : Prop where
  blockComment : st.blockComment = .outside
  commentRun : st.commentRun ≤ 2

/-- What ties a line to those around it: whether it goes on on the next one, and whether it begins
with a closing bracket. -/
structure Marks where
  goesOn : Bool
  closes : Bool

def marks (line : List Char) : Marks := ⟨isContinued (codeOf line), startsClosing (codeOf line)⟩

namespace State

/-- The state in which a line is looked at, a comment or other. Near a comment no line is taken as
continued. -/
def turned (st : State) (comment : Bool) (m : Marks) : State :=
  let run := if comment then 2 else st.commentRun - 1
  { st with
    commentRun := run
    sawComment := false
    continued := !m.closes && run == 0 && st.longLine
    longLine := m.goesOn && run == 0 }

theorem closeBlock_move (st : State) :
    st.closeBlock = (st.under st.level (st.blocks.move .close).blocks
      (st.excessEnds + (st.blocks.move .close).excess), (st.blocks.move .close).step) :=
  st.closeBlock_under st.level st.blocks st.excessEnds

theorem opened_noted (st : State) (saw : Bool) (kind : Kind) :
    (st.noted saw).opened kind = (st.opened kind).noted saw := by
  cases kind <;> rfl

theorem exists_trackContinuation {st : State} (hblock : st.blockComment = .outside)
    (line : List Char) :
    ∃ saw, st.trackContinuation line =
      { st with
        sawComment := saw
        continued := !(marks line).closes && st.commentRun == 0 && st.longLine
        longLine := (marks line).goesOn && st.commentRun == 0 } := by
  obtain ⟨saw, hsaw⟩ := exists_noted { st with sawComment := false } (Spacing.quoting.tree line)
  have hnear : ∀ saw, (State.noted { st with sawComment := false } saw).nearComment =
      !(st.commentRun == 0) := fun saw => by
    show (st.commentRun != 0 || st.blockComment != .outside) = _
    rw [hblock]
    exact Bool.or_false _
  refine ⟨saw, ?_⟩
  simp only [trackContinuation, code, hsaw, hnear, marks, codeOf]
  cases startsClosing (Spacing.quoting.tree line).leaves
  all_goals
    cases st.commentRun == 0
    all_goals rfl

end State

/-- A line that is no comment. -/
structure Sound (line : List Char) : Prop where
  note : isCommentLine line = false
  breakFree : BreakFree line

/-- A line of code that stands in no bracket. -/
structure Unbracketed (nest : Nest) (line : List Char) : Prop extends Sound line where
  command : isCommandLine line = false
  within : nest.within (codeOf line) = none

/-- A line that opens or closes a block comment is a comment. -/
theorem Sound.opensComment_eq {line : List Char} (h : Sound line) :
    opensComment line = false ∧ closesComment line = false := by
  have hnote : ∀ r, trim line ≠ '%' :: r := fun r hr => by
    have hcomment := (isCommentLine_iff h.breakFree.newline_not_mem).2 ⟨r, hr⟩
    rw [h.note] at hcomment
    cases hcomment
  constructor
  · rw [Bool.eq_false_iff, ne_eq, opensComment_iff]
    exact hnote _
  · rw [Bool.eq_false_iff, ne_eq, closesComment_iff]
    exact hnote _

namespace Calm

variable {st : State} {line : List Char}

theorem turned (h : Calm st) (comment : Bool) (m : Marks) : Calm (st.turned comment m) := by
  refine { h with commentRun := ?_ }
  show (if comment then 2 else st.commentRun - 1) ≤ 2
  have hrun := h.commentRun
  split <;> omega

theorem begun (h : Calm st) : Calm st.begun := { h with }

theorem of_begun (h : Calm st.begun) : Calm st := { h with }

theorem exists_track (h : Calm st) (hopens : opensComment line = false)
    (hcloses : closesComment line = false) :
    ∃ saw, (st.trackComments line).trackContinuation line =
      (st.turned (isCommentLine line) (marks line)).noted saw := by
  have hcomments : st.trackComments line =
      { st with commentRun := if isCommentLine line then 2 else st.commentRun - 1 } := by
    have hblock := h.blockComment
    cases st
    simp only at hblock
    simp [State.trackComments, hopens, hcloses, hblock]
  obtain ⟨saw, hsaw⟩ := State.exists_trackContinuation
    (show (st.trackComments line).blockComment = .outside by rw [hcomments, ← h.blockComment]) line
  refine ⟨saw, ?_⟩
  rw [hsaw, hcomments]
  rfl

/-- A line that is no comment and no command is laid out as code. -/
theorem layLine_of_code (h : Calm st) (hline : Sound line) (hcommand : isCommandLine line = false)
    (style : Style) :
    ∃ saw, st.layLine style line =
      ((st.turned false (marks line)).noted saw).layCode style line := by
  obtain ⟨saw, hsaw⟩ := h.exists_track hline.opensComment_eq.1 hline.opensComment_eq.2
  rw [hline.note] at hsaw
  have hblock : ((st.turned false (marks line)).noted saw).blockComment = .outside := h.blockComment
  have hrun : ((st.turned false (marks line)).noted saw).commentRun ≠ 2 := by
    have hle := h.commentRun
    show st.commentRun - 1 ≠ 2
    omega
  exact ⟨saw, by simp [State.layLine, hsaw, hblock, hrun, hcommand]⟩

theorem layLine_of_command (h : Calm st) (hline : Sound line)
    (hcommand : isCommandLine line = true) (style : Style) :
    ∃ saw, st.layLine style line = ((st.turned false (marks line)).noted saw,
      .ok ⟨0, (st.turned false (marks line)).indent style.width 0 ++ trim line⟩) := by
  obtain ⟨saw, hsaw⟩ := h.exists_track hline.opensComment_eq.1 hline.opensComment_eq.2
  rw [hline.note] at hsaw
  have hblock : ((st.turned false (marks line)).noted saw).blockComment = .outside := h.blockComment
  refine ⟨saw, ?_⟩
  simp [State.layLine, hsaw, hblock, hcommand]
  rfl

theorem layLine_of_comment (h : Calm st) (hcomment : isCommentLine line = true)
    (hopens : opensComment line = false) (hcloses : closesComment line = false) (style : Style) :
    ∃ saw, st.layLine style line = ((st.turned true (marks line)).noted saw,
      .ok ⟨0, (st.turned true (marks line)).indent style.width 0 ++ trim line⟩) := by
  obtain ⟨saw, hsaw⟩ := h.exists_track hopens hcloses
  rw [hcomment] at hsaw
  have hblock : ((st.turned true (marks line)).noted saw).blockComment = .outside := h.blockComment
  have hrun : ((st.turned true (marks line)).noted saw).commentRun = 2 := rfl
  refine ⟨saw, ?_⟩
  simp [State.layLine, hsaw, hblock, hrun]
  rfl

end Calm

/-! ## Forms -/

/-- The forms in which a line is read. -/
inductive Form where
  | comment
  | command
  | plain
  | opening (kind : Kind) (keyword : List Char)
  | continuation (keyword : List Char)
  | closing (keyword : List Char)
  /-- a line in a bracket, and the levels inside that after it if they are others -/
  | row (bracket : Bracket) (levels : Option Int)

namespace Form

/-- The state to which a line of the form leads, its change of level apart. -/
def next (m : Marks) : Form → State → State
  | comment, st => st.turned true m
  | opening kind _, st => (st.turned false m).opened kind
  | closing _, st => (st.turned false m).under st.level (st.blocks.move .close).blocks
      (st.excessEnds + (st.blocks.move .close).excess)
  | row bracket levels, st =>
      (st.turned false m).withLevels bracket (levels.getD (st.levels bracket))
  | _, st => st.turned false m

/-- The change of level after the line. -/
def offset : Form → State → Int
  | opening kind _, _ => kind.step
  | closing _, st => -(st.blocks.move .close).step
  | _, _ => 0

/-- How much deeper than the current level the line is written. -/
def add : Form → State → Int
  | continuation _, _ => -1
  | closing _, st => -(st.blocks.move .close).step
  | row bracket _, st => st.levels bracket
  | _, _ => 0

/-- What is written, for the text behind the keyword. -/
def written : Form → List Char → List Char
  | opening _ keyword, text => keyword ++ argument text
  | continuation keyword, text => keyword ++ argument text
  | closing keyword, text => keyword ++ argument text
  | _, text => text

end Form

/-- With the given brackets open the line has the form; without its keyword, and with its blanks in
order, it is `text`. -/
inductive Reads (width : Int) (nest : Nest) (line : List Char) : Form → List Char → Prop where
  | comment (note : isCommentLine line = true) (opens : opensComment line = false)
      (closes : closesComment line = false) : Reads width nest line .comment (trim line)
  | command (sound : Sound line) (command : isCommandLine line = true) :
      Reads width nest line .command (trim line)
  | plain (code : Unbracketed nest line) (statement : Statement.ofLine line = .plain) :
      Reads width nest line .plain (trim (format line))
  | opening {kind : Kind} {keyword tail : List Char} (code : Unbracketed nest line)
      (statement : Statement.ofLine line = kind.opening keyword tail) :
      Reads width nest line (.opening kind keyword) (trim (format tail))
  | continuation {keyword tail : List Char} (code : Unbracketed nest line)
      (statement : Statement.ofLine line = .continuation keyword tail) :
      Reads width nest line (.continuation keyword) (trim (format tail))
  | closing {keyword tail : List Char} (code : Unbracketed nest line)
      (statement : Statement.ofLine line = .blockEnd keyword tail) :
      Reads width nest line (.closing keyword) (trim (format tail))
  | row {bracket : Bracket} (sound : Sound line) (command : isCommandLine line = false)
      (within : nest.within (codeOf line) = some bracket) :
      Reads width nest line (.row bracket (turn bracket width (codeOf line))) (trim (format line))

theorem argument_injective : Function.Injective argument := by
  intro s t h
  cases s with
  | nil =>
      cases t with
      | nil => rfl
      | cons d t => cases h
  | cons c s =>
      cases t with
      | nil => cases h
      | cons d t => exact (List.cons.inj h).2

theorem Form.written_injective (f : Form) : Function.Injective f.written := by
  intro s t h
  cases f with
  | opening kind keyword => exact argument_injective (List.append_cancel_left h)
  | continuation keyword => exact argument_injective (List.append_cancel_left h)
  | closing keyword => exact argument_injective (List.append_cancel_left h)
  | comment => exact h
  | command => exact h
  | plain => exact h
  | row bracket levels => exact h

/-- A keyword and what is written behind it, without the blanks at the end. -/
theorem trimEnd_keywordLine {keyword text : List Char}
    (hbegins : BeginsInk (keyword ++ argument text))
    (hends : trimEnd (keyword ++ argument text) = keyword ++ argument text) (u : List Char) :
    trimEnd (u ++ keyword ++ ' ' :: text) = u ++ (keyword ++ argument text) := by
  have hkeyword : trimEnd (keyword ++ ' ' :: text) = keyword ++ argument text := by
    cases text with
    | nil =>
        rw [trimEnd_append_of_blank (by decide)]
        simpa [argument] using hends
    | cons c r => exact hends
  have hink : (keyword ++ ' ' :: text).all isBlank = false := by
    rw [← Bool.not_eq_true, ← trimEnd_eq_nil_iff, hkeyword, ← List.isEmpty_iff]
    obtain ⟨c, r, hcons, -⟩ := hbegins.exists_cons
    rw [hcons]
    simp
  rw [List.append_assoc, trimEnd_append_of_ink hink, hkeyword]

theorem begun_noteTree (st : State) (t : Spacing.Tree) : (st.noteTree t).begun = st.begun := by
  rw [State.noteTree]
  split <;> rfl

section

variable {style : Style} {st : State} {line text : List Char} {f : Form}

theorem Unbracketed.layLine_eq (h : Unbracketed st.nest line) (hst : Calm st)
    (hwidth : style.width ≠ 0) :
    ∃ saw, st.layLine style line =
      ((st.turned false (marks line)).noted saw).layStatement style line := by
  obtain ⟨saw, hlay⟩ := hst.layLine_of_code h.toSound h.command style
  rw [hlay]
  exact ((st.turned false (marks line)).noted saw).layCode_statement hwidth
    h.breakFree.newline_not_mem h.within

/-- **The form says what a line does**: where it is written and to which state it leads. -/
theorem Reads.layLine (h : Reads style.width st.nest line f text) (hst : Calm st)
    (hwidth : style.width ≠ 0) (hfunctions : style.functions = .fixed 1)
    (hbegins : BeginsInk (f.written text)) (hends : trimEnd (f.written text) = f.written text) :
    ∃ st' l, st.layLine style line = (st', .ok l) ∧ st'.begun = (f.next (marks line) st).begun ∧
      l.offset = f.offset st ∧
      trimEnd l.text =
        (f.next (marks line) st).indent style.width (f.add st) ++ f.written text := by
  have htrim : ∀ u : List Char, trimEnd (u ++ f.written text) = u ++ f.written text := fun u => by
    rw [trimEnd_append_of_ink hbegins.all_eq_false, hends]
  cases h with
  | comment note opens closes =>
      obtain ⟨saw, hlay⟩ := hst.layLine_of_comment note opens closes style
      exact ⟨_, _, hlay, rfl, rfl, htrim _⟩
  | command sound command =>
      obtain ⟨saw, hlay⟩ := hst.layLine_of_command sound command style
      exact ⟨_, _, hlay, rfl, rfl, htrim _⟩
  | plain code statement =>
      obtain ⟨saw, hlay⟩ := code.layLine_eq hst hwidth
      rw [State.layStatement, statement] at hlay
      exact ⟨_, _, hlay, begun_noteTree _ _, rfl, htrim _⟩
  | opening code statement =>
      rename_i kind keyword tail
      obtain ⟨saw, hlay⟩ := code.layLine_eq hst hwidth
      rw [layStatement_opening statement (Kind.indents_step hfunctions kind _)] at hlay
      rw [State.opened_noted] at hlay
      exact ⟨_, _, hlay, begun_noteTree _ _, rfl, trimEnd_keywordLine hbegins hends _⟩
  | continuation code statement =>
      obtain ⟨saw, hlay⟩ := code.layLine_eq hst hwidth
      rw [State.layStatement, statement] at hlay
      exact ⟨_, _, hlay, begun_noteTree _ _, rfl, trimEnd_keywordLine hbegins hends _⟩
  | closing code statement =>
      obtain ⟨saw, hlay⟩ := code.layLine_eq hst hwidth
      rw [State.layStatement, statement] at hlay
      simp only [State.closeBlock_move] at hlay
      exact ⟨_, _, hlay, begun_noteTree _ _, rfl, trimEnd_keywordLine hbegins hends _⟩
  | row sound command within =>
      rename_i bracket
      obtain ⟨saw, hcode⟩ := hst.layLine_of_code sound command style
      obtain ⟨saw', hlay⟩ := ((st.turned false (marks line)).noted saw).layCode_row hwidth
        sound.breakFree.newline_not_mem within
      rw [← hcode] at hlay
      cases bracket with
      | square => exact ⟨_, _, hlay, rfl, rfl, htrim _⟩
      | curly => exact ⟨_, _, hlay, rfl, rfl, htrim _⟩

/-- The brackets that are open after a line. -/
def Nest.after (nest : Nest) (line : List Char) : Nest :=
  if isCommentLine line || isCommandLine line then nest else nest.turned (codeOf line)

theorem Unbracketed.after_eq {nest : Nest} (h : Unbracketed nest line) :
    nest.after line = nest := by
  rw [Nest.after, h.note, h.command, Nest.turned, h.within]
  rfl

/-- **The form says which brackets are open.** -/
theorem Reads.nest_next (h : Reads style.width st.nest line f text) (m : Marks) :
    (f.next m st).nest = st.nest.after line := by
  cases h with
  | comment note opens closes =>
      rw [Nest.after, note]
      rfl
  | command sound command =>
      rw [Nest.after, command, Bool.or_true]
      rfl
  | plain code statement => exact code.after_eq.symm
  | opening code statement =>
      rename_i kind keyword tail
      cases kind <;> exact code.after_eq.symm
  | continuation code statement => exact code.after_eq.symm
  | closing code statement => exact code.after_eq.symm
  | row sound command within =>
      rw [Nest.after, sound.note, command, Bool.or_self, if_neg Bool.false_ne_true]
      exact (st.turned false m).nest_withLevels within style.width

end

/-! ## Texts that are written -/

theorem trim_behind (n : Nat) {s : List Char} (hs : BeginsInk s) :
    trim (behind n s) = trimEnd s := by
  rw [trim, skipBlanks_behind n hs]

theorem trim_eq_nil {s : List Char} (hs : s.all isBlank = true) : trim s = [] := by
  rw [trim, (skipBlanks_eq_nil_iff s).2 hs]
  rfl

theorem respaced_argument (s : List Char) : Respaced s (argument s) := by
  cases s with
  | nil => exact Respaced.refl []
  | cons c s => exact (Respaced.refl (c :: s)).pad_cons

/-- A keyword with its text begins and ends with ink. -/
theorem trimmed_keyword {keyword text : List Char} (hink : ∀ c ∈ keyword, isBlank c = false)
    (hne : keyword ≠ []) (htext : trimEnd text = text) :
    BeginsInk (keyword ++ argument text) ∧
      trimEnd (keyword ++ argument text) = keyword ++ argument text := by
  constructor
  · obtain ⟨c, w, rfl⟩ := List.exists_cons_of_ne_nil hne
    exact ⟨c, rfl, hink c (by simp)⟩
  · cases text with
    | nil =>
        rw [argument, List.append_nil, trimEnd_eq_rdropWhile, List.rdropWhile_eq_self_iff]
        intro hne
        simp [hink _ (List.getLast_mem hne)]
    | cons c r =>
        have hblank : (c :: r).all isBlank = false := by
          rw [← Bool.not_eq_true, ← trimEnd_eq_nil_iff, htext]
          simp
        rw [argument, show ' ' :: c :: r = [' '] ++ (c :: r) from rfl, ← List.append_assoc,
          trimEnd_append_of_ink hblank, htext]

end Pcode.Indent
