import Pcode.Proofs.Indent.Again
import Pcode.Proofs.Spacing.Descent

set_option autoImplicit false

/-! # Orderly lines

An *orderly* line is one whose form cannot change when its blanks are put in order: a comment, a
command, a line of code that begins with no sign, a keyword with an expression, or a closing word
with what follows it. There may be literals in the code and a comment behind it; the line may go on
on the next one, and it may be a row of a matrix or cell array.

Main statement: a line that has been written is read in the same form again, behind any number of
spaces, and with the same text if and only if no sign in its operand wavers (`Orderly.reads`).

## Why these conditions

* A line of code begins with no sign: behind blanks a sign belongs to the number or name after it,
  at the very start of a line it does not, and how many blanks there are is settled by the level.
* The expression behind an opening word has no `end` in its ink: one that spacing sets apart would
  close the block on the line that opens it.
* A row that leaves its bracket open gives the same levels once it has been spaced: they are taken
  from a column of the line as it is read. -/

namespace Pcode.Indent

open Pcode.Text
open Pcode.Spacing (QuotedLine format codeOf isSign)

/-- With the given brackets open, a line whose form does not hang on its blanks. If it leaves the
bracket in which it stands open, the levels inside that are the same once the line has been
spaced. -/
inductive Orderly (width : Int) (nest : Nest) (line : List Char) : Prop where
  | comment (note : isCommentLine line = true) (opens : opensComment line = false)
      (closes : closesComment line = false)
  | command {K : QuotedLine} (composed : Composed line K) (command : isCommandLine line = true)
      (dots : ¬ "...".toList <:+: ink K.code)
  | plain {K : QuotedLine} (composed : Composed line K) (note : isCommentLine line = false)
      (command : isCommandLine line = false) (head : ¬ Heads keywords (skipBlanks line))
      (lasting : K.Lasting) (unsigned : inkAt isSign 0 K.first.text = false)
      (kept : ∀ b ∈ nest.within K.code, 0 < b.change K.code →
        turn b width (codeOf (trim (format line))) = turn b width (codeOf line))
  | opening (kind : Kind) {K L : QuotedLine} (composed : Composed line K)
      (within : nest.within K.code = none) (head : Heads kind.words (skipBlanks line))
      (tail : expressionTail? (afterWord (skipBlanks line)) = some L.text)
      (endless : ¬ "end".toList <:+: ink L.text) (lasting : L.Lasting)
  | continuation {K L : QuotedLine} (composed : Composed line K)
      (within : nest.within K.code = none) (head : Heads continuationWords (skipBlanks line))
      (tail : expressionTail? (afterWord (skipBlanks line)) = some L.text) (lasting : L.Lasting)
  | closing {K L : QuotedLine} {keyword : List Char} (composed : Composed line K)
      (within : nest.within K.code = none)
      (tail : closing? endWords (skipBlanks line) = some (keyword, L.text)) (lasting : L.Lasting)
      (unsigned : inkAt isSign 0 L.first.text = false)

/-! ## Decidability -/

instance (b : Bracket) (width : Int) (line : List Char) :
    Decidable (turn b width (codeOf (trim (format line))) = turn b width (codeOf line)) :=
  decidable_of_iff (turn b width (Spacing.codeBounded (trim (Spacing.formatBounded line))) =
      turn b width (Spacing.codeBounded line))
    (by rw [Spacing.formatBounded_eq, Spacing.codeBounded_eq, Spacing.codeBounded_eq])

set_option synthInstance.maxSize 256 in
instance (width : Int) (nest : Nest) (line : List Char) : Decidable (Orderly width nest line) :=
  haveI : Decidable (BreakFree line) := List.decidableBAll (fun c => isLineBreak c = false) line
  decidable_of_iff
    ((isCommentLine line = true ∧ opensComment line = false ∧ closesComment line = false) ∨
      ∃ K ∈ QuotedLine.ofText? line, (K.Proper ∧ BreakFree line) ∧
        (isCommandLine line = true ∧ ¬ "...".toList <:+: ink K.code ∨
          (isCommentLine line = false ∧ isCommandLine line = false ∧
            ¬ Heads keywords (skipBlanks line) ∧ K.Lasting ∧ inkAt isSign 0 K.first.text = false ∧
            ∀ b ∈ nest.within K.code, 0 < b.change K.code →
              turn b width (codeOf (trim (format line))) = turn b width (codeOf line)) ∨
          nest.within K.code = none ∧
            ((∃ tail ∈ expressionTail? (afterWord (skipBlanks line)), ∃ L ∈ QuotedLine.ofText? tail,
                ((∃ kind ∈ [Kind.function, .control, .switch], Heads kind.words (skipBlanks line)) ∧
                  ¬ "end".toList <:+: ink L.text ∨ Heads continuationWords (skipBlanks line)) ∧
                L.Lasting) ∨
              ∃ p ∈ closing? endWords (skipBlanks line), ∃ L ∈ QuotedLine.ofText? p.2,
                L.Lasting ∧ inkAt isSign 0 L.first.text = false))) <| by
  constructor
  · rintro (⟨note, opens, closes⟩ | ⟨K, hK, ⟨proper, breakFree⟩, hform⟩)
    · exact .comment note opens closes
    · have composed : Composed line K := ⟨QuotedLine.text_of_ofText? hK, proper, breakFree⟩
      rcases hform with ⟨command, dots⟩ | ⟨note, command, head, lasting, unsigned, kept⟩ |
        ⟨within, ⟨tail, htail, L, hL, hhead, lasting⟩ | ⟨p, hp, L, hL, lasting, unsigned⟩⟩
      · exact .command composed command dots
      · exact .plain composed note command head lasting unsigned kept
      · obtain rfl := QuotedLine.text_of_ofText? hL
        rcases hhead with ⟨⟨kind, -, head⟩, endless⟩ | head
        · exact .opening kind composed within head htail endless lasting
        · exact .continuation composed within head htail lasting
      · obtain ⟨keyword, tail⟩ := p
        obtain rfl := QuotedLine.text_of_ofText? hL
        exact .closing composed within hp lasting unsigned
  · rintro (⟨note, opens, closes⟩ | ⟨composed, command, dots⟩ |
      ⟨composed, note, command, head, lasting, unsigned, kept⟩ |
      ⟨kind, composed, within, head, tail, endless, lasting⟩ |
      ⟨composed, within, head, tail, lasting⟩ | ⟨composed, within, tail, lasting, unsigned⟩)
    · exact .inl ⟨note, opens, closes⟩
    all_goals
      obtain ⟨rfl, proper, breakFree⟩ := composed
      refine .inr ⟨_, QuotedLine.ofText?_text _, ⟨proper, breakFree⟩, ?_⟩
    · exact .inl ⟨command, dots⟩
    · exact .inr (.inl ⟨note, command, head, lasting, unsigned, kept⟩)
    · have hkind : kind ∈ [Kind.function, .control, .switch] := by cases kind <;> simp
      exact .inr (.inr ⟨within, .inl ⟨_, tail, _, QuotedLine.ofText?_text _,
        .inl ⟨⟨kind, hkind, head⟩, endless⟩, lasting⟩⟩)
    · exact .inr (.inr ⟨within, .inl ⟨_, tail, _, QuotedLine.ofText?_text _, .inr head, lasting⟩⟩)
    · exact .inr (.inr ⟨within, .inr ⟨_, tail, _, QuotedLine.ofText?_text _, lasting, unsigned⟩⟩)

/-! ## Orderly lines read again -/

/-- **An orderly line is read in the same form again** once it has been written. With no block and
no bracket open it stands at the current level, unless it is a continuation. -/
theorem Orderly.reads {width : Int} {nest : Nest} {line : List Char} (h : Orderly width nest line)
    (hfree : '\n' ∉ line) (hink : line.all isBlank = false) :
    ∃ f text, Rereads width nest line f text ∧ (¬ Heads continuationWords (skipBlanks line) →
      ∀ st : State, st.blocks = {} → st.nest = {} → f.add st = 0) := by
  cases h with
  | comment note opens closes =>
      exact ⟨_, _, rereads_comment hfree hink note opens closes, fun _ _ _ _ => rfl⟩
  | command composed command dots =>
      exact ⟨_, _, rereads_command hink composed command dots, fun _ _ _ _ => rfl⟩
  | plain composed note command head lasting unsigned kept =>
      refine ⟨_, _, rereads_whole hink composed note command head lasting unsigned kept,
        fun _ st _ hnest => ?_⟩
      rw [Form.whole]
      cases nest.within (codeOf line) with
      | none => rfl
      | some b =>
          have hopen := st.isOpen_nest b
          rw [hnest] at hopen
          show st.levels b = 0
          cases b <;> simpa [Nest.isOpen] using hopen.symm
  | opening kind composed within head tail endless lasting =>
      exact ⟨_, _, rereads_opening composed within head tail endless lasting, fun _ _ _ _ => rfl⟩
  | continuation composed within head tail lasting =>
      exact ⟨_, _, rereads_continuation composed within head tail lasting,
        fun hnone => absurd head hnone⟩
  | closing composed within tail lasting unsigned =>
      refine ⟨_, _, rereads_closing composed within tail lasting unsigned,
        fun _ st hblocks _ => ?_⟩
      rw [Form.add, hblocks]
      rfl

/-! ## Blanks in front -/

theorem isCommentLine_skipBlanks (line : List Char) :
    isCommentLine (skipBlanks line) = isCommentLine line := by
  rw [isCommentLine, isCommentLine, skipBlanks_skipBlanks]

theorem isCommandLine_skipBlanks (line : List Char) :
    isCommandLine (skipBlanks line) = isCommandLine line := by
  rw [isCommandLine, isCommandLine, skipBlanks_skipBlanks]

theorem operand_skipBlanks (line : List Char) : operand (skipBlanks line) = operand line := by
  have hstatement : Statement.ofLine (skipBlanks line) = Statement.ofLine line := by
    rw [Statement.ofLine, Statement.ofLine, skipBlanks_skipBlanks]
  rw [operand, operand, isCommentLine_skipBlanks, isCommandLine_skipBlanks, hstatement,
    skipBlanks_skipBlanks]

theorem steady_skipBlanks (line : List Char) : Steady (skipBlanks line) ↔ Steady line := by
  rw [Steady, Steady, operand_skipBlanks]

/-- Without the blanks in front a line is composed of the same code. -/
theorem Composed.skipBlanks {line : List Char} {K : QuotedLine} (h : Composed line K) :
    Composed (skipBlanks line) K.unindented :=
  ⟨by rw [K.text_unindented, h.text_eq], h.proper.unindented,
    h.breakFree.respaced (Respaced.skipBlanks line)⟩

/-- Without the blanks in front an orderly line is orderly. -/
theorem Orderly.skipBlanks {width : Int} {nest : Nest} {line : List Char}
    (h : Orderly width nest line) : Orderly width nest (skipBlanks line) := by
  have hskip := skipBlanks_skipBlanks line
  have hwithin : ∀ K : QuotedLine, nest.within K.unindented.code = nest.within K.code := fun K =>
    nest.within_of_ink_eq K.ink_code_unindented
  cases h with
  | comment note opens closes =>
      refine .comment ?_ ?_ ?_
      · rwa [isCommentLine_skipBlanks]
      · rwa [opensComment, hskip]
      · rwa [closesComment, hskip]
  | command composed command dots =>
      exact .command composed.skipBlanks (by rwa [isCommandLine_skipBlanks])
        (by rwa [QuotedLine.ink_code_unindented])
  | plain composed note command head lasting unsigned kept =>
      rename_i K
      have hspaced : trim (format (Text.skipBlanks line)) = trim (format line) := by
        rw [← composed.text_eq, trim, trim, lasting.skipBlanks_format_skipBlanks unsigned]
      have hcode : trim (codeOf (Text.skipBlanks line)) = trim (codeOf line) := by
        have hunindented := lasting.unindented unsigned
        rw [← composed.text_eq, ← K.text_unindented,
          hunindented.proper.trim_codeOf_text hunindented.firm hunindented.single,
          lasting.proper.trim_codeOf_text lasting.firm lasting.single]
        exact QuotedLine.trim_joined_fronted _ rfl K
      have hfree := composed.breakFree.newline_not_mem
      refine .plain composed.skipBlanks (by rwa [isCommentLine_skipBlanks])
        (by rwa [isCommandLine_skipBlanks]) (by rwa [hskip]) (lasting.unindented unsigned)
        ((inkAt_of_ink_eq (ink_skipBlanks K.first.text) isSign 0).trans unsigned)
        fun b hb hpos => ?_
      rw [hwithin] at hb
      rw [b.change_of_ink_eq K.ink_code_unindented] at hpos
      rw [hspaced, kept b hb hpos, ← turn_trim b width (newline_not_mem_codeOf hfree), ← hcode,
        turn_trim b width (newline_not_mem_codeOf composed.skipBlanks.breakFree.newline_not_mem)]
  | opening kind composed within head tail endless lasting =>
      exact .opening kind composed.skipBlanks ((hwithin _).trans within) (by rwa [hskip])
        (by rwa [hskip]) endless lasting
  | continuation composed within head tail lasting =>
      exact .continuation composed.skipBlanks ((hwithin _).trans within) (by rwa [hskip])
        (by rwa [hskip]) lasting
  | closing composed within tail lasting unsigned =>
      exact .closing composed.skipBlanks ((hwithin _).trans within) (by rwa [hskip]) lasting
        unsigned

/-- The blanks in front of an orderly line do not change which brackets it leaves open. -/
theorem Orderly.after_skipBlanks {width : Int} {nest : Nest} {line : List Char}
    (h : Orderly width nest line) : nest.after (Text.skipBlanks line) = nest.after line := by
  have hcode : ∀ {K : QuotedLine}, Composed line K →
      nest.turned (codeOf (Text.skipBlanks line)) = nest.turned (codeOf line) := fun {K} composed =>
    nest.turned_of_ink_eq (by
      rw [composed.skipBlanks.ink_codeOf, K.ink_code_unindented, composed.ink_codeOf])
  rw [Nest.after, Nest.after, isCommentLine_skipBlanks, isCommandLine_skipBlanks]
  cases h with
  | comment note opens closes => rw [note, Bool.true_or, if_pos rfl, if_pos rfl]
  | command composed command dots => rw [hcode composed]
  | plain composed note command head lasting unsigned kept => rw [hcode composed]
  | opening kind composed within head tail endless lasting => rw [hcode composed]
  | continuation composed within head tail lasting => rw [hcode composed]
  | closing composed within tail lasting unsigned => rw [hcode composed]

/-! ## Lines one after the other -/

/-- Lines that are blank or orderly, each with the brackets open that the lines before it leave
open. -/
def OrderlyFrom (width : Int) : Nest → List (List Char) → Prop
  | _, [] => True
  | nest, line :: rest =>
      if line.all isBlank then OrderlyFrom width nest rest
      else Orderly width nest line ∧ OrderlyFrom width (nest.after line) rest

/-- The brackets that are open after a line, computed. -/
def Nest.afterBounded (nest : Nest) (line : List Char) : Nest :=
  if isCommentLine line || isCommandLine line then nest else nest.turned (Spacing.codeBounded line)

theorem Nest.afterBounded_eq (nest : Nest) (line : List Char) :
    nest.afterBounded line = nest.after line := by
  rw [Nest.afterBounded, Spacing.codeBounded_eq, Nest.after]

instance decidableOrderlyFrom (width : Int) :
    (nest : Nest) → (lines : List (List Char)) → Decidable (OrderlyFrom width nest lines)
  | _, [] => .isTrue trivial
  | nest, line :: rest =>
      haveI := decidableOrderlyFrom width nest rest
      haveI := decidableOrderlyFrom width (nest.afterBounded line) rest
      decidable_of_iff (if line.all isBlank then OrderlyFrom width nest rest
          else Orderly width nest line ∧ OrderlyFrom width (nest.afterBounded line) rest)
        (by rw [Nest.afterBounded_eq, OrderlyFrom])

end Pcode.Indent
