import Pcode.Proofs.Indent.Reading

set_option autoImplicit false

/-! # Reading a written line again

What is read in a line once it has been written is settled by its code, its marks and the text that
is spaced, its *operand*. A line with the same code, but for blanks, and the same marks echoes it
(`Echoes`); what is written of a line does, if its operand lasts.

Main statements: a comment and a command (`rereads_comment`, `rereads_command`), a line that is
spaced as a whole (`rereads_whole`) and a keyword with the text behind it (`rereads_opening`,
`rereads_continuation`, `rereads_closing`) are read in the same form once they have been written,
behind any number of spaces, and with the same text if and only if no sign in the operand wavers. -/

namespace Pcode.Indent

open Pcode.Text
open Pcode.Spacing (QuotedLine format codeOf isSign unaryAt filled)

/-- The text behind the keyword of a statement. -/
def Statement.tail? : Statement → Option (List Char)
  | .functionStart _ tail => some tail
  | .blockStart _ tail => some tail
  | .switchStart _ tail => some tail
  | .continuation _ tail => some tail
  | .blockEnd _ tail => some tail
  | .short _ _ _ _ => none
  | .plain => none

/-- The text of a line that is spaced: what follows its keyword, or all of it. -/
def operand (line : List Char) : List Char :=
  if isCommentLine line || isCommandLine line then []
  else (Statement.ofLine line).tail?.getD (skipBlanks line)

/-- No sign of the line wavers. -/
def Steady (line : List Char) : Prop := ∀ L : QuotedLine, L.text = operand line → L.Steady

instance (line : List Char) : Decidable (Steady line) :=
  decidable_of_iff (∀ L ∈ QuotedLine.ofText? (operand line), L.Steady)
    ⟨fun h L hL => h L (by rw [← hL]; exact L.ofText?_text),
      fun h L hL => h L (QuotedLine.text_of_ofText? hL)⟩

/-- A line is composed of code, literals and perhaps a comment. -/
structure Composed (line : List Char) (K : QuotedLine) : Prop where
  text_eq : K.text = line
  proper : K.Proper
  breakFree : BreakFree line

/-! ## Operands -/

section

variable {line : List Char}

theorem operand_of_tail (hnote : isCommentLine line = false) (hcommand : isCommandLine line = false)
    {tail : List Char} (h : (Statement.ofLine line).tail? = some tail) : operand line = tail := by
  rw [operand, hnote, hcommand, if_neg (by simp), h, Option.getD_some]

theorem steady_iff {L : QuotedLine} (h : L.text = operand line) : Steady line ↔ L.Steady := by
  refine ⟨fun hsteady => hsteady L h, fun hsteady L' h' => ?_⟩
  rwa [QuotedLine.text_injective (h'.trans h.symm)]

theorem steady_of_operand_eq_nil (h : operand line = []) : Steady line := by
  rw [steady_iff (L := QuotedLine.empty) (by rw [h]; rfl)]
  decide

theorem steady_of_blank (h : line.all isBlank = true) : Steady line := by
  have hskip : skipBlanks line = [] := (skipBlanks_eq_nil_iff line).2 h
  have hhead : ¬ Heads keywords (skipBlanks line) := by
    rw [hskip]
    decide
  apply steady_of_operand_eq_nil
  rw [operand, ofLine_plain hhead, hskip]
  split
  · rfl
  · rfl

/-- A line that begins with a word is no comment. -/
theorem isCommentLine_of_firstWord (h : firstWord (skipBlanks line) ≠ []) :
    isCommentLine line = false := by
  rw [isCommentLine]
  split
  · next hskip =>
      rw [hskip] at h
      exact absurd (firstWord_eq_nil (by rintro c ⟨⟩; decide)) h
  · rfl

end

/-! ## Marks -/

theorem isContinued_eq {code : List Char} (h : '\n' ∉ code) : isContinued code = hasDots code := by
  rw [isContinued, firstLine_of_not_mem h, isOneLine_of_not_mem h, Bool.and_true]

theorem startsClosing_eq {code : List Char} (h : '\n' ∉ code) :
    startsClosing code = (ink code).head?.any Spacing.isClosing := by
  rw [startsClosing, ← ink_skipBlanks]
  split
  · next c r hskip =>
      have hc : isBlank c = false := isBlank_of_skipBlanks_eq_cons hskip
      have hr : '\n' ∉ r := fun hmem =>
        (Respaced.skipBlanks code).newline_not_mem h
          (by rw [hskip]; exact List.mem_cons_of_mem c hmem)
      rw [hskip, ink_cons_of_ink hc, isOneLine_of_not_mem hr, Bool.and_true]
      rfl
  · next hskip =>
      rw [hskip]
      rfl

theorem newline_not_mem_codeOf {line : List Char} (h : '\n' ∉ line) : '\n' ∉ codeOf line :=
  State.newline_not_mem_code h {}

/-- The line `line'` has the code of `line`, but for blanks, and its marks. -/
structure Echoes (line line' : List Char) : Prop where
  note : isCommentLine line' = isCommentLine line
  breakFree : BreakFree line'
  ink_code : ink (codeOf line') = ink (codeOf line)
  marks_eq : marks line' = marks line

namespace Echoes

variable {line line' : List Char}

theorem of_respaced (h : Respaced line line') (hline : BreakFree line)
    (hink : ink (codeOf line') = ink (codeOf line))
    (hdots : hasDots (codeOf line') = hasDots (codeOf line)) : Echoes line line' := by
  have hfree := newline_not_mem_codeOf hline.newline_not_mem
  have hfree' := newline_not_mem_codeOf (hline.respaced h).newline_not_mem
  refine ⟨isCommentLine_respaced h hline.newline_not_mem, hline.respaced h, hink, ?_⟩
  rw [marks, marks, isContinued_eq hfree', isContinued_eq hfree, hdots, startsClosing_eq hfree',
    startsClosing_eq hfree, hink]

theorem sound (h : Echoes line line') (hline : Sound line) : Sound line' :=
  ⟨h.note.trans hline.note, h.breakFree⟩

theorem within_eq (h : Echoes line line') (nest : Nest) :
    nest.within (codeOf line') = nest.within (codeOf line) :=
  nest.within_of_ink_eq h.ink_code

end Echoes

section

variable {line line' : List Char} {K K' : QuotedLine}

namespace Composed

theorem ink_codeOf (h : Composed line K) : ink (codeOf line) = ink K.code :=
  h.text_eq ▸ h.proper.respaced_codeOf.ink_eq

theorem sound (h : Composed line K) (hnote : isCommentLine line = false) : Sound line :=
  ⟨hnote, h.breakFree⟩

theorem within_eq (h : Composed line K) (nest : Nest) :
    nest.within (codeOf line) = nest.within K.code :=
  nest.within_of_ink_eq h.ink_codeOf

/-- A line with other blanks and the same segments echoes the line. -/
theorem echoes (h : Composed line K) (hfirm : K.Firm) (hsingle : K.Single)
    (hline : Respaced line line') (htext : K'.text = line') (hproper : K'.Proper) (hfirm' : K'.Firm)
    (hsingle' : K'.Single) (hink : ink K'.code = ink K.code) (hdots : K'.goesOn = K.goesOn) :
    Echoes line line' := by
  have hcomposed : Composed line' K' := ⟨htext, hproper, h.breakFree.respaced hline⟩
  refine .of_respaced hline h.breakFree ?_ ?_
  · rw [hcomposed.ink_codeOf, hink, h.ink_codeOf]
  · rw [← htext, ← h.text_eq, hproper.hasDots_codeOf hfirm' hsingle', hdots,
      h.proper.hasDots_codeOf hfirm hsingle]

end Composed

end

/-! ## Lines read again -/

/-- What is written begins and ends with ink. -/
def Form.Trimmed (f : Form) (text : List Char) : Prop :=
  BeginsInk (f.written text) ∧ trimEnd (f.written text) = f.written text

/-- A line of the form is written as `text`, and what is written is read in the same form and with
the same marks; its text is the same if and only if the line is steady. -/
structure Rereads (width : Int) (nest : Nest) (line : List Char) (f : Form) (text : List Char) :
    Prop where
  reads : Reads width nest line f text
  trimmed : f.Trimmed text
  again : ∀ n, ∃ text', Reads width nest (behind n (f.written text)) f text' ∧ f.Trimmed text' ∧
    (f = .comment ∨ marks (behind n (f.written text)) = marks line) ∧ (text' = text ↔ Steady line)

section

variable {width : Int} {nest : Nest} {line : List Char} {K L : QuotedLine}

theorem rereads_comment (hfree : '\n' ∉ line) (hink : line.all isBlank = false)
    (note : isCommentLine line = true) (opens : opensComment line = false)
    (closes : closesComment line = false) : Rereads width nest line .comment (trim line) := by
  have hbegins := beginsInk_trim hink
  have htrimmed : Form.comment.Trimmed (trim line) := ⟨hbegins, trimEnd_trim line⟩
  refine ⟨.comment note opens closes, htrimmed, fun n => ?_⟩
  have htrim : trim (behind n (trim line)) = trim line := by
    rw [trim_behind n hbegins, trimEnd_trim]
  have hread : Reads width nest (behind n (trim line)) .comment (trim (behind n (trim line))) := by
    refine .comment ?_ ?_ ?_
    · exact (isCommentLine_respaced ((Respaced.trim line).pad_left n) hfree).trans note
    · rw [Bool.eq_false_iff, ne_eq, opensComment_iff, htrim, ← opensComment_iff, opens]
      simp
    · rw [Bool.eq_false_iff, ne_eq, closesComment_iff, htrim, ← closesComment_iff, closes]
      simp
  rw [htrim] at hread
  refine ⟨trim line, hread, htrimmed, Or.inl rfl, iff_of_true rfl (steady_of_operand_eq_nil ?_)⟩
  rw [operand, note]
  rfl

/-- A composed line without a mark echoes itself behind some spaces, without the blanks at its
ends. -/
theorem Composed.echoes_trim (h : Composed line K) (hdots : ¬ "...".toList <:+: ink K.code)
    (hink : line.all isBlank = false) (n : Nat) : Echoes line (behind n (trim line)) := by
  have hskip : (skipBlanks line).all isBlank = false :=
    (Respaced.skipBlanks line).all_isBlank_eq.trans hink
  have hrespaced : Respaced line (behind n (trim line)) := (Respaced.trim line).pad_left n
  have hmoved : Composed (behind n (trim line))
      (K.fronted (List.replicate n ' ') (QuotedLine.free_replicate n)).trimmed := by
    refine ⟨?_, ?_, h.breakFree.respaced hrespaced⟩
    · rw [QuotedLine.text_trimmed, QuotedLine.text_fronted, h.text_eq, trimEnd_append_of_ink hskip]
      rfl
    · exact (h.proper.fronted _ fun _ _ => QuotedLine.isBeforeLiteral_replicate n).trimmed
  have hcode : ink (codeOf (behind n (trim line))) = ink (codeOf line) := by
    rw [hmoved.ink_codeOf, QuotedLine.ink_code_trimmed, QuotedLine.ink_code_fronted,
      ink_replicate_space, List.nil_append, h.ink_codeOf]
  have hnone : ∀ s, ink (codeOf s) = ink K.code → hasDots (codeOf s) = false := fun s hs =>
    hasDots_eq_false fun hpart => hdots (hs ▸ infix_ink (by decide) hpart)
  refine .of_respaced hrespaced h.breakFree hcode ?_
  rw [hnone _ (hcode.trans h.ink_codeOf), hnone line h.ink_codeOf]

theorem rereads_command (hink : line.all isBlank = false) (composed : Composed line K)
    (command : isCommandLine line = true) (dots : ¬ "...".toList <:+: ink K.code) :
    Rereads width nest line .command (trim line) := by
  have hfree := composed.breakFree.newline_not_mem
  have hnote : isCommentLine line = false := by
    have hne : ∀ w ∈ commandWords, w.toList ≠ [] := by decide
    obtain ⟨w, hw, hfirst⟩ := (isCommandLine_iff hfree).1 command
    exact isCommentLine_of_firstWord fun hnil => hne w hw (List.prefix_nil.1 (hnil ▸ hfirst))
  have hbegins := beginsInk_trim hink
  have htrimmed : Form.command.Trimmed (trim line) := ⟨hbegins, trimEnd_trim line⟩
  refine ⟨.command (composed.sound hnote) command, htrimmed, fun n => ?_⟩
  have htrim : trim (behind n (trim line)) = trim line := by
    rw [trim_behind n hbegins, trimEnd_trim]
  have hechoes := composed.echoes_trim dots hink n
  have hcommand : isCommandLine (behind n (trim line)) = true := by
    rw [isCommandLine_iff hechoes.breakFree.newline_not_mem, skipBlanks_behind n hbegins, trim,
      firstWord_trimEnd, ← isCommandLine_iff hfree, command]
  have hread : Reads width nest (behind n (trim line)) .command (trim (behind n (trim line))) :=
    .command (hechoes.sound (composed.sound hnote)) hcommand
  rw [htrim] at hread
  refine ⟨trim line, hread, htrimmed, Or.inr hechoes.marks_eq,
    iff_of_true rfl (steady_of_operand_eq_nil ?_)⟩
  rw [operand, command, Bool.or_true]
  rfl

/-! ### Lines that are spaced as a whole -/

/-- A line without a keyword, or in a bracket. -/
def Form.whole (width : Int) (nest : Nest) (line : List Char) : Form :=
  (nest.within (codeOf line)).elim .plain fun b => .row b (turn b width (codeOf line))

theorem Form.written_whole (width : Int) (nest : Nest) (line text : List Char) :
    (Form.whole width nest line).written text = text := by
  rw [Form.whole]
  cases nest.within (codeOf line) <;> rfl

theorem reads_whole (sound : Sound line) (command : isCommandLine line = false)
    (head : ¬ Heads keywords (skipBlanks line)) :
    Reads width nest line (Form.whole width nest line) (trim (format line)) := by
  rw [Form.whole]
  cases hwithin : nest.within (codeOf line) with
  | none => exact .plain ⟨sound, command, hwithin⟩ (ofLine_plain head)
  | some b => exact .row sound command hwithin

/-- A composed line that lasts echoes itself once it has been spaced. -/
theorem Composed.echoes_format (h : Composed line K) (lasting : K.Lasting)
    (hink : line.all isBlank = false) (n : Nat) :
    Echoes line (behind n (trim (format line))) ∧
      trim (codeOf (behind n (trim (format line)))) = trim K.closed.spaced.joined := by
  have hfree := h.breakFree.newline_not_mem
  have hskip : (skipBlanks (format line)).all isBlank = false :=
    ((Spacing.respaced_format hfree).trans (Respaced.skipBlanks _)).all_isBlank_eq.trans hink
  have hspaces := QuotedLine.free_replicate n
  have htext : (K.written (List.replicate n ' ') hspaces).text = behind n (trim (format line)) := by
    rw [lasting.text_written, h.text_eq, trimEnd_append_of_ink hskip]
    rfl
  have hproper := lasting.proper_written hspaces (QuotedLine.isBeforeLiteral_replicate n)
  have hfirm := lasting.firm_written hspaces
  have hsingle := lasting.single_written hspaces
  have hdot : '.' ∉ List.replicate n ' ' := fun hmem =>
    absurd (List.eq_of_mem_replicate hmem) (by decide)
  constructor
  · refine h.echoes lasting.firm lasting.single
      (((Spacing.respaced_format hfree).trans (Respaced.trim _)).pad_left n) htext hproper hfirm
      hsingle ?_ (lasting.goesOn_written hspaces hdot)
    rw [QuotedLine.ink_code_written, ink_replicate_space, List.nil_append]
  · rw [← htext, hproper.trim_codeOf_text hfirm hsingle, K.trim_joined_written n]

/-- Once it has been spaced the line stands in the same bracket and gives the same levels. -/
theorem whole_format (composed : Composed line K) (lasting : K.Lasting)
    (hink : line.all isBlank = false)
    (kept : ∀ b ∈ nest.within K.code, 0 < b.change K.code →
      turn b width (codeOf (trim (format line))) = turn b width (codeOf line)) (n : Nat) :
    Form.whole width nest (behind n (trim (format line))) = Form.whole width nest line := by
  obtain ⟨hechoes, hcode⟩ := composed.echoes_format lasting hink n
  rw [Form.whole, Form.whole, hechoes.within_eq]
  cases hwithin : nest.within (codeOf line) with
  | none => rfl
  | some b =>
      rw [composed.within_eq] at hwithin
      have hchange := b.change_of_ink_eq composed.ink_codeOf
      refine congrArg (Form.row b) ?_
      by_cases hpos : 0 < b.change K.code
      · -- the column is that of the text without spaces in front
        obtain ⟨hechoes₀, hcode₀⟩ := composed.echoes_format lasting hink 0
        rw [← turn_trim b width (newline_not_mem_codeOf hechoes.breakFree.newline_not_mem), hcode,
          ← hcode₀, turn_trim b width (newline_not_mem_codeOf hechoes₀.breakFree.newline_not_mem)]
        exact kept b hwithin hpos
      · have hchange' := b.change_of_ink_eq hechoes.ink_code
        rw [turn, turn, hchange', hchange, if_neg hpos, if_neg hpos]

theorem unaryAt_zero {s : List Char} (h : inkAt isSign 0 s = false) :
    unaryAt 0 (filled s) = false := by
  rw [Spacing.unaryAt_filled]
  simp [unaryAt, h]

theorem rereads_whole (hink : line.all isBlank = false) (composed : Composed line K)
    (note : isCommentLine line = false) (command : isCommandLine line = false)
    (head : ¬ Heads keywords (skipBlanks line)) (lasting : K.Lasting)
    (unsigned : inkAt isSign 0 K.first.text = false)
    (kept : ∀ b ∈ nest.within K.code, 0 < b.change K.code →
      turn b width (codeOf (trim (format line))) = turn b width (codeOf line)) :
    Rereads width nest line (Form.whole width nest line) (trim (format line)) := by
  have htext := composed.text_eq
  have hfree := composed.breakFree.newline_not_mem
  have hnonblank : (format line).all isBlank = false :=
    (Spacing.respaced_format hfree).all_isBlank_eq.trans hink
  have hbegins := beginsInk_trim hnonblank
  have htrimmed : ∀ s : List Char, s.all isBlank = false →
      (Form.whole width nest line).Trimmed (trim s) := fun s hs => by
    rw [Form.Trimmed, Form.written_whole]
    exact ⟨beginsInk_trim hs, trimEnd_trim s⟩
  -- the operand is the line without the blanks in front, in which the signs are the same
  have hsteady : Steady line ↔ K.Steady := by
    have hoperand : K.unindented.text = operand line := by
      rw [K.text_unindented, htext, operand, note, command, if_neg (by simp), ofLine_plain head]
      rfl
    rw [steady_iff hoperand, QuotedLine.steady_unindented unsigned]
  refine ⟨reads_whole (composed.sound note) command head, htrimmed _ hnonblank, fun n => ?_⟩
  rw [Form.written_whole]
  obtain ⟨hechoes, -⟩ := composed.echoes_format lasting hink n
  have hfree' := hechoes.breakFree.newline_not_mem
  have hfirst : firstWord (skipBlanks (behind n (trim (format line)))) =
      firstWord (skipBlanks line) := by
    rw [skipBlanks_behind n hbegins, ← htext, lasting.firstWord_trim_format]
  have hcommand : isCommandLine (behind n (trim (format line))) = false := by
    rw [Bool.eq_false_iff, ne_eq, isCommandLine_iff hfree', hfirst, ← isCommandLine_iff hfree,
      command]
    simp
  have hhead : ¬ Heads keywords (skipBlanks (behind n (trim (format line)))) := by
    rwa [Heads, hfirst]
  have hread : Reads width nest (behind n (trim (format line))) _ _ :=
    reads_whole (hechoes.sound (composed.sound note)) hcommand hhead
  rw [whole_format composed lasting hink kept n] at hread
  refine ⟨_, hread, htrimmed _ ?_, Or.inr hechoes.marks_eq, ?_⟩
  · rw [(Spacing.respaced_format hfree').all_isBlank_eq]
    exact (((Spacing.respaced_format hfree).trans (Respaced.trim _)).pad_left
      n).all_isBlank_eq.trans hink
  · rw [hsteady, ← htext]
    exact lasting.trim_format_eq_iff (unaryAt_zero unsigned) n

end

/-! ### Lines with a keyword -/

theorem firstWord_ne_nil {s : List Char} (head : Heads keywords s) : firstWord s ≠ [] := by
  have hne : ∀ w ∈ keywords, w.toList ≠ [] := by decide
  obtain ⟨w, hw, hws⟩ := head
  exact hws ▸ hne w hw

theorem newline_not_mem_afterWord {line : List Char} (hline : '\n' ∉ line) :
    '\n' ∉ afterWord (skipBlanks line) :=
  fun hmem => (Respaced.skipBlanks line).newline_not_mem hline
    ((List.dropWhile_suffix isWord).mem hmem)

theorem head?_argument (s : List Char) : ∀ c ∈ (argument s).head?, c = ' ' := by
  intro c hc
  cases s with
  | nil => cases hc
  | cons d s => exact (Option.some.inj hc).symm

/-- The line is a keyword, perhaps a semicolon, and the text of `L` behind it. -/
structure Keyed (line mark : List Char) (L : QuotedLine) : Prop where
  head : Heads keywords (skipBlanks line)
  mark_eq : mark = [';'] ∨ mark = []
  exists_rest : ∃ rest, afterWord (skipBlanks line) = mark ++ rest ∧
    skipBlanks rest = skipBlanks L.text ∧ Respaced rest L.text

/-- The keyword of a line with what belongs to it. -/
def keyOf (line mark : List Char) : List Char := firstWord (skipBlanks line) ++ mark

namespace Keyed

variable {line mark : List Char} {K L : QuotedLine} (h : Keyed line mark L)

include h

theorem chars : ∀ c ∈ keyOf line mark, isWord c = true ∨ c = ';' := by
  intro c hc
  rcases List.mem_append.1 hc with hc | hc
  · exact Or.inl (isWord_of_mem_firstWord hc)
  · rcases h.mark_eq with rfl | rfl
    · exact Or.inr (List.mem_singleton.1 hc)
    · cases hc

theorem ne_nil : keyOf line mark ≠ [] :=
  fun hnil => firstWord_ne_nil h.head (List.append_eq_nil_iff.1 hnil).1

theorem isBlank_eq : ∀ c ∈ keyOf line mark, isBlank c = false := by
  intro c hc
  rcases h.chars c hc with hword | rfl
  · exact isBlank_of_isWord hword
  · decide

theorem ink_eq : ink (keyOf line mark) = keyOf line mark :=
  List.filter_eq_self.2 fun c hc => by simp [h.isBlank_eq c hc]

theorem free : ∀ c ∈ ['\'', '"', '%', '\n', '.'], c ∉ keyOf line mark := by
  have hmarks : ∀ c ∈ ['\'', '"', '%', '\n', '.'], (!isWord c && c != ';') = true :=
    List.all_eq_true.1 (by decide)
  intro c hc hmem
  have hmark := hmarks c hc
  rcases h.chars c hmem with hword | hsemicolon
  · simp [hword] at hmark
  · simp [hsemicolon] at hmark

/-- The keyword is ink in front of the text. -/
theorem exists_fronted (hfree : '\n' ∉ line) :
    ∃ u, ∃ hu : ∀ c ∈ ['\'', '"', '%', '\n'], c ∉ u,
      (L.fronted u hu).text = line ∧ ink u = keyOf line mark := by
  obtain ⟨rest, hafter, hrest, -⟩ := h.exists_rest
  have hline : skipBlanks line = keyOf line mark ++ rest := by
    rw [keyOf, List.append_assoc, ← hafter, firstWord_append_afterWord]
  have hmem : ∀ c ∈ rest, c ∈ line := fun c hc =>
    (skipBlanks_sublist line).mem (hline ▸ List.mem_append_right _ hc)
  have hblanks : ∀ s : List Char, '\n' ∉ s →
      ∀ c ∈ ['\'', '"', '%', '\n'], c ∉ s.takeWhile isBlank := by
    have hmarks : ∀ c ∈ ['\'', '"', '%', '\n'], (c == '\n' || !isBlank c) = true :=
      List.all_eq_true.1 (by decide)
    intro s hs c hc hc'
    have hmark := hmarks c hc
    rw [List.mem_takeWhile_imp hc', Bool.not_true, Bool.or_false, beq_iff_eq] at hmark
    exact hs (hmark ▸ (List.takeWhile_sublist isBlank).mem hc')
  refine ⟨line.takeWhile isBlank ++ (keyOf line mark ++ rest.takeWhile isBlank), ?_, ?_, ?_⟩
  · intro c hc hc'
    rcases List.mem_append.1 hc' with hc' | hc'
    · exact hblanks line hfree c hc hc'
    · rcases List.mem_append.1 hc' with hc' | hc'
      · exact h.free c (List.mem_append_left ['.'] hc) hc'
      · exact hblanks rest (fun hnewline => hfree (hmem _ hnewline)) c hc hc'
  · rw [QuotedLine.text_fronted, ← hrest, List.append_assoc, List.append_assoc, skipBlanks,
      List.takeWhile_append_dropWhile, ← hline, skipBlanks, List.takeWhile_append_dropWhile]
  · have hnone : ∀ s : List Char, ink (s.takeWhile isBlank) = [] := fun s =>
      (ink_eq_nil_iff _).2 (List.all_eq_true.2 fun c hc => List.mem_takeWhile_imp hc)
    rw [ink_append, ink_append, hnone, hnone, h.ink_eq, List.nil_append, List.append_nil]

/-- The word and what follows it are found again. -/
theorem firstWord_eq (text : List Char) :
    firstWord (keyOf line mark ++ argument text) = firstWord (skipBlanks line) ∧
      afterWord (keyOf line mark ++ argument text) = mark ++ argument text := by
  rw [keyOf, List.append_assoc]
  refine firstWord_of_boundary (fun c hc => isWord_of_mem_firstWord hc) fun c hc => ?_
  rcases h.mark_eq with rfl | rfl
  · cases hc
    decide
  · rw [head?_argument _ c hc]
    decide

/-- What is written begins and ends with ink. -/
theorem trimmed (text : List Char) :
    BeginsInk (keyOf line mark ++ argument (trim text)) ∧
      trimEnd (keyOf line mark ++ argument (trim text)) = keyOf line mark ++ argument (trim text) :=
  trimmed_keyword h.isBlank_eq h.ne_nil (trimEnd_trim text)

/-- A keyword with its text echoes itself once the text has been spaced. -/
theorem echoes (hline : Composed line K) (lasting : L.Lasting) (n : Nat) :
    Echoes line (behind n (keyOf line mark ++ argument (trim (format L.text)))) := by
  have hnewline := hline.breakFree.newline_not_mem
  obtain ⟨u, hu, htext, hink⟩ := h.exists_fronted hnewline
  obtain rfl : K = L.fronted u hu := QuotedLine.text_injective (hline.text_eq.trans htext.symm)
  have hdot : '.' ∉ u := fun hmem =>
    h.free '.' (by simp) (hink ▸ List.mem_filter.2 ⟨hmem, by decide⟩)
  -- what is written is the text behind the spaces, the keyword and a space
  let v := List.replicate n ' ' ++ (keyOf line mark ++ [' '])
  have hmem : ∀ {c}, c ∈ v → c = ' ' ∨ c ∈ keyOf line mark := fun hc => by
    rcases List.mem_append.1 hc with hc | hc
    · exact Or.inl (List.eq_of_mem_replicate hc)
    · exact (List.mem_append.1 hc).symm.imp_left List.mem_singleton.1
  have hv : ∀ c ∈ ['\'', '"', '%', '\n'], c ∉ v := fun c hc hcv => by
    rcases hmem hcv with rfl | hkey
    · exact absurd hc (by decide)
    · exact h.free c (List.mem_append_left ['.'] hc) hkey
  have hdot' : '.' ∉ v := fun hcv => (hmem hcv).elim (by decide) (h.free '.' (by simp))
  have hlast : ∀ c ∈ v.getLast?, Spacing.isBeforeLiteral c = true := by
    intro c hc
    have hspace : v = List.replicate n ' ' ++ keyOf line mark ++ [' '] :=
      (List.append_assoc _ _ _).symm
    rw [hspace, List.getLast?_concat] at hc
    cases hc
    decide
  have hwritten : (L.written v hv).text =
      behind n (keyOf line mark ++ argument (trim (format L.text))) := by
    obtain ⟨hbegins, hends⟩ := h.trimmed (format L.text)
    rw [lasting.text_written, ← trimEnd_append_congr (trimEnd_trim (format L.text)) v]
    have hend := trimEnd_keywordLine hbegins hends (List.replicate n ' ')
    simpa [v, behind] using hend
  have hrespaced :
      Respaced line (behind n (keyOf line mark ++ argument (trim (format L.text)))) := by
    obtain ⟨rest, hafter, -, htail⟩ := h.exists_rest
    have htail' := htail.trans ((Spacing.respaced_format
      (QuotedLine.newline_not_mem_text lasting.single)).trans (Respaced.trim _))
    have hsplit : skipBlanks line = keyOf line mark ++ rest := by
      rw [keyOf, List.append_assoc, ← hafter, firstWord_append_afterWord]
    exact ((Respaced.of_skipBlanks hsplit).trans ((Respaced.refl _).append
      (htail'.trans (respaced_argument _)))).pad_left n
  refine hline.echoes (lasting.firm.fronted hu) lasting.single hrespaced hwritten
    (lasting.proper_written hv hlast) (lasting.firm_written hv) (lasting.single_written hv) ?_ ?_
  · rw [QuotedLine.ink_code_written, QuotedLine.ink_code_fronted, hink, ink_append, ink_append,
      ink_replicate_space, h.ink_eq, ink_cons_of_isBlank (by decide), ink_nil, List.append_nil,
      List.nil_append]
  · rw [lasting.goesOn_written hv hdot', QuotedLine.goesOn_fronted hu hdot]

end Keyed

section

variable {width : Int} {nest : Nest} {line mark : List Char} {K L : QuotedLine}

/-- A line with a keyword, if its form is settled by the keyword and what is written behind it. -/
theorem rereads_keyword {f : Form} (keyed : Keyed line mark L)
    (hwritten : ∀ text, f.written text = keyOf line mark ++ argument text)
    (composed : Composed line K) (within : nest.within K.code = none) (lasting : L.Lasting)
    (hstart : unaryAt 0 (filled L.first.text) = false)
    (hoperand : (Statement.ofLine line).tail? = some L.text)
    (hread : Unbracketed nest line → Reads width nest line f (trim (format L.text)))
    (hagain : ∀ s, Unbracketed nest s → firstWord (skipBlanks s) = firstWord (skipBlanks line) →
      afterWord (skipBlanks s) = mark ++ argument (trim (format L.text)) →
      ∃ m, Reads width nest s f (trim (format (List.replicate m ' ' ++ trim (format L.text))))) :
    Rereads width nest line f (trim (format L.text)) := by
  have hnote := isCommentLine_of_firstWord (firstWord_ne_nil keyed.head)
  have hcommand := isCommandLine_eq_false keyed.head
  have hcode : Unbracketed nest line :=
    ⟨composed.sound hnote, hcommand, (composed.within_eq nest).trans within⟩
  have htrimmed : ∀ s, f.Trimmed (trim s) := fun s => by
    rw [Form.Trimmed, hwritten]
    exact keyed.trimmed s
  refine ⟨hread hcode, htrimmed _, fun n => ?_⟩
  have hechoes := keyed.echoes composed lasting n
  have hskip := skipBlanks_behind n (keyed.trimmed (format L.text)).1
  obtain ⟨hfirst, hafter⟩ := keyed.firstWord_eq (trim (format L.text))
  rw [hwritten]
  rw [← hskip] at hfirst hafter
  have hhead : Heads keywords
      (skipBlanks (behind n (keyOf line mark ++ argument (trim (format L.text))))) := by
    rw [Heads, hfirst]
    exact keyed.head
  obtain ⟨m, hreads⟩ := hagain _ ⟨hechoes.sound hcode.toSound, isCommandLine_eq_false hhead,
    (hechoes.within_eq nest).trans hcode.within⟩ hfirst hafter
  refine ⟨_, hreads, htrimmed _, Or.inr hechoes.marks_eq, ?_⟩
  rw [steady_iff (operand_of_tail hnote hcommand hoperand).symm]
  exact lasting.trim_format_eq_iff hstart m

/-! ### Expressions -/

theorem skipBlanks_expressionTail? {s tail : List Char} (hs : '\n' ∉ s)
    (h : expressionTail? s = some tail) : skipBlanks s = skipBlanks tail := by
  rcases expressionTail?_eq hs h with ⟨rfl, -⟩ | ⟨b, -, hb, rfl, -⟩
  · exact (skipBlanks_skipBlanks s).symm
  · have hblank : [b].all isBlank = true := by simpa using hb
    rw [← List.singleton_append, skipBlanks_append_of_blank hblank, skipBlanks_skipBlanks]

/-- A sign in front of an expression does not belong to the word behind it. -/
theorem unaryAt_expressionTail? {s : List Char} (hs : '\n' ∉ s)
    (h : expressionTail? s = some L.text) : unaryAt 0 (filled L.first.text) = false := by
  rw [Spacing.unaryAt_filled]
  cases hunary : unaryAt 0 L.first.text with
  | false => rfl
  | true =>
      simp only [unaryAt, Bool.and_eq_true, Nat.lt_irrefl, decide_false, Bool.false_and,
        Bool.or_false] at hunary
      obtain ⟨⟨⟨hsign, hword⟩, -⟩, hgap⟩ := hunary
      -- a blank in front is kept before a word or a single character only
      have hlt : 1 < (ink L.first.text).length := lt_of_inkAt hword
      have hfirst : gapAt 0 L.text = gapAt 0 L.first.text := by
        rw [L.text_eq_rest, gapAt_append_of_lt (by omega)]
      rw [← hfirst, (gapAt_expressionTail? hs h).1, ← (respaced_expressionTail? hs h).ink_eq,
        L.text_eq_rest, ink_append] at hgap
      cases hink : ink L.first.text with
      | nil =>
          rw [hink] at hlt
          cases hlt
      | cons c r =>
          rw [hink] at hgap hlt
          have hc : isSign c = true := by simpa [inkAt, hink] using hsign
          have hnot : isWord c = false := Spacing.isWord_of_isSign hc
          rw [List.length_cons] at hlt
          simp only [List.cons_append, List.head?_cons, Option.any_some, hnot, Bool.false_or,
            List.length_cons, List.length_append, decide_eq_true_eq] at hgap
          omega

/-- The expression that is read behind a keyword once it has been written. -/
theorem expressionTail?_written {s : List Char} (hs : '\n' ∉ s) :
    ∃ m, expressionTail? (argument (trim s)) = some (List.replicate m ' ' ++ trim s) := by
  cases hblank : s.all isBlank with
  | true =>
      rw [trim_eq_nil hblank]
      exact ⟨0, rfl⟩
  | false =>
      obtain ⟨c, r, hcons, hc⟩ := (beginsInk_trim hblank).exists_cons
      have hr : '\n' ∉ r := fun hmem =>
        (Respaced.trim s).newline_not_mem hs (by rw [hcons]; exact List.mem_cons_of_mem c hmem)
      have hdrop : (' ' :: c :: r).dropWhile isBlank = c :: r := by
        simp [show isBlank ' ' = true by decide, hc]
      have htake : (' ' :: c :: r).takeWhile isBlank = [' '] := by
        simp [show isBlank ' ' = true by decide, hc]
      rw [hcons]
      simp only [argument, expressionTail?, hdrop, htake, List.getLast?_singleton]
      split
      · exact ⟨0, by rw [Spacing.takeWhile_append_firstLine hr]; rfl⟩
      · exact ⟨1, by rw [firstLine_of_not_mem hr]; rfl⟩

/-- A keyword with an expression. -/
theorem keyed_expression (hline : '\n' ∉ line) (head : Heads keywords (skipBlanks line))
    (tail : expressionTail? (afterWord (skipBlanks line)) = some L.text) : Keyed line [] L where
  head := head
  mark_eq := Or.inr rfl
  exists_rest := ⟨afterWord (skipBlanks line), rfl,
    skipBlanks_expressionTail? (newline_not_mem_afterWord hline) tail,
    respaced_expressionTail? (newline_not_mem_afterWord hline) tail⟩

/-- A line with a keyword and an expression, if its form is settled by the ink of the expression. -/
theorem rereads_expression {f : Form}
    (hwritten : ∀ text, f.written text = firstWord (skipBlanks line) ++ argument text)
    (composed : Composed line K) (within : nest.within K.code = none)
    (head : Heads keywords (skipBlanks line))
    (tail : expressionTail? (afterWord (skipBlanks line)) = some L.text) (lasting : L.Lasting)
    (hoperand : (Statement.ofLine line).tail? = some L.text)
    (hread : ∀ s e, Unbracketed nest s → firstWord (skipBlanks s) = firstWord (skipBlanks line) →
      ink (afterWord (skipBlanks s)) = ink L.text →
      expressionTail? (afterWord (skipBlanks s)) = some e →
        Reads width nest s f (trim (format e))) :
    Rereads width nest line f (trim (format L.text)) := by
  have hfree := composed.breakFree.newline_not_mem
  have hafter := newline_not_mem_afterWord hfree
  have hink := (respaced_expressionTail? hafter tail).ink_eq
  have hspaced := Spacing.respaced_format (QuotedLine.newline_not_mem_text lasting.single)
  refine rereads_keyword (keyed_expression hfree head tail)
    (fun text => by rw [hwritten, keyOf, List.append_nil]) composed within lasting
    (unaryAt_expressionTail? hafter tail) hoperand
    (fun hcode => hread line _ hcode rfl hink.symm tail) fun s hs hfirst hargument => ?_
  rw [List.nil_append] at hargument
  obtain ⟨m, hwritten'⟩ := expressionTail?_written
    (hspaced.newline_not_mem (QuotedLine.newline_not_mem_text lasting.single))
  refine ⟨m, hread s _ hs hfirst ?_ (by rw [hargument, hwritten'])⟩
  rw [hargument, (respaced_argument _).ink_eq, (Respaced.trim _).ink_eq, hspaced.ink_eq]

theorem rereads_opening {kind : Kind} (composed : Composed line K)
    (within : nest.within K.code = none) (head : Heads kind.words (skipBlanks line))
    (tail : expressionTail? (afterWord (skipBlanks line)) = some L.text)
    (endless : ¬ "end".toList <:+: ink L.text) (lasting : L.Lasting) :
    Rereads width nest line (.opening kind (firstWord (skipBlanks line)))
      (trim (format L.text)) := by
  have hsubset : kind.words ⊆ keywords := by cases kind <;> decide
  -- no closing word comes with the spacing, since none is in the ink
  have hopening : ∀ s e, firstWord (skipBlanks s) = firstWord (skipBlanks line) →
      ink (afterWord (skipBlanks s)) = ink L.text →
      expressionTail? (afterWord (skipBlanks s)) = some e →
      Statement.ofLine s = kind.opening (firstWord (skipBlanks line)) e := by
    intro s e hfirst hink he
    have hhead : Heads kind.words (skipBlanks s) := by rwa [Heads, hfirst]
    rw [← hfirst]
    exact ofLine_opening hhead (shortBody?_eq_none (not_mem_words_of_letters fun h =>
      endless (hink ▸ infix_ink (by decide) h))) he
  have hfree := composed.breakFree.newline_not_mem
  refine rereads_expression (fun _ => rfl) composed within (head.of_subset hsubset) tail lasting ?_
    fun s e hs hfirst hink he => .opening hs (hopening s e hfirst hink he)
  have hink := (respaced_expressionTail? (newline_not_mem_afterWord hfree) tail).ink_eq
  rw [hopening line L.text rfl hink.symm tail]
  cases kind <;> rfl

theorem rereads_continuation (composed : Composed line K) (within : nest.within K.code = none)
    (head : Heads continuationWords (skipBlanks line))
    (tail : expressionTail? (afterWord (skipBlanks line)) = some L.text) (lasting : L.Lasting) :
    Rereads width nest line (.continuation (firstWord (skipBlanks line)))
      (trim (format L.text)) := by
  refine rereads_expression (fun _ => rfl) composed within (head.of_subset (by decide)) tail
    lasting ?_ fun s e hs hfirst _ he => ?_
  · rw [ofLine_continuation head tail]
    rfl
  · have hhead : Heads continuationWords (skipBlanks s) := by rwa [Heads, hfirst]
    have hline := ofLine_continuation hhead he
    rw [hfirst] at hline
    exact .continuation hs hline

/-! ### Closing words -/

/-- What is written behind a closing word is read as it is. -/
theorem closingTail?_argument {s : List Char} (hs : '\n' ∉ s) (hskip : skipBlanks s = s) :
    closingTail? (argument s) = some (argument s) := by
  cases s with
  | nil => rfl
  | cons c r =>
      have hc : isBlank c = false := isBlank_of_skipBlanks_eq_cons hskip
      have hspace : isBlank ' ' = true := by decide
      simp [argument, closingTail?, hspace, hc, firstLine_of_not_mem hs]

theorem rereads_closing {keyword : List Char} (composed : Composed line K)
    (within : nest.within K.code = none)
    (tail : closing? endWords (skipBlanks line) = some (keyword, L.text)) (lasting : L.Lasting)
    (unsigned : inkAt isSign 0 L.first.text = false) :
    Rereads width nest line (.closing keyword) (trim (format L.text)) := by
  have hfree := composed.breakFree.newline_not_mem
  have hfreeL := QuotedLine.newline_not_mem_text lasting.single
  obtain ⟨head, mark, rest, hmark, rfl, hafter, hclosing⟩ :=
    (closing?_eq_some_iff (by decide)).1 tail
  have hrest : L.text = rest := by
    refine closingTail?_eq (fun hmem => newline_not_mem_afterWord hfree ?_) hclosing
    rw [hafter]
    exact List.mem_append_right mark hmem
  have hkeyed : Keyed line mark L :=
    ⟨head.of_subset (by decide), hmark.imp_right And.left, rest,
      hafter, by rw [hrest], by rw [hrest]⟩
  refine rereads_keyword hkeyed (fun _ => rfl) composed within lasting (unaryAt_zero unsigned)
    (by rw [ofLine_closing tail]; rfl) (fun hcode => .closing hcode (ofLine_closing tail))
    fun s hs hfirst hargument => ?_
  have hfreeT : '\n' ∉ trim (format L.text) :=
    ((Spacing.respaced_format hfreeL).trans (Respaced.trim _)).newline_not_mem hfreeL
  -- the word, the semicolon and the text are found again
  have hread : closing? endWords (skipBlanks s) =
      some (firstWord (skipBlanks line) ++ mark, argument (trim (format L.text))) := by
    rw [closing?_eq_some_iff (by decide)]
    refine ⟨by rwa [Heads, hfirst], mark, _, hmark.imp_right fun h => ⟨h.1, ?_⟩, by rw [hfirst],
      hargument, closingTail?_argument hfreeT (skipBlanks_trim _)⟩
    intro c hc
    rw [head?_argument _ c hc]
    decide
  obtain ⟨m, hm⟩ : ∃ m, argument (trim (format L.text)) =
      List.replicate m ' ' ++ trim (format L.text) := by
    cases trim (format L.text) with
    | nil => exact ⟨0, rfl⟩
    | cons c r => exact ⟨1, rfl⟩
  refine ⟨m, ?_⟩
  rw [← hm]
  exact .closing hs (ofLine_closing hread)

end

end Pcode.Indent
