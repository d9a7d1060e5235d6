import Mathlib.Data.List.Forall2
import Pcode.Proofs.Indent.Document
import Pcode.Proofs.Spacing.Trailing.Tree

set_option autoImplicit false

/-! # A line with its line end

A line is laid out the same with its line end and without it. The keywords see different texts:
a closing word keeps the line end in its tail, other tails drop it. The texts made of the tails
are the same, since spacing does not depend on blanks at the end, and so are the brackets
counted in the code of the line.

Main statements: `State.layLine_lineEnd` for a line, and from it `State.layLines_lineEnd` for a run
over lines of which any may have their line ends. -/

namespace Pcode.Indent

open Pcode.Text
open Pcode.Spacing (Kept Trailing lastSplit lastSplit_append similar_append leaves_append
  firstLine_append)

theorem blank_lineEnd : ['\n'].all isBlank = true := by decide

/-- A line end is kept or dropped. -/
theorem eq_of_kept_lineEnd {kept : List Char} (h : Kept ['\n'] kept) :
    kept = [] ∨ kept = ['\n'] := by
  rcases h with rfl | rfl | rfl
  · exact Or.inl rfl
  · exact Or.inl rfl
  · exact Or.inr rfl

theorem all_lineEnd (s : List Char) : (s ++ ['\n']).all isBlank = s.all isBlank := by
  rw [List.all_append, blank_lineEnd, Bool.and_true]

/-- A blank line is blank with its line end. -/
theorem dropWhile_lineEnd {s : List Char} (hs : s.dropWhile isBlank = []) :
    (s ++ ['\n']).dropWhile isBlank = [] := by
  have hall : (s ++ ['\n']).all isBlank = true := by
    rw [all_lineEnd, (skipBlanks_eq_nil_iff s).1 hs]
  exact (skipBlanks_eq_nil_iff _).2 hall

theorem isOneLine_lineEnd {s : List Char} (hs : '\n' ∉ s) : isOneLine (s ++ ['\n']) = true := by
  rw [isOneLine, List.dropWhile_append_of_pos (bne_of_not_mem hs)]
  rfl

theorem firstLine_lineEnd {s : List Char} (hs : '\n' ∉ s) : firstLine (s ++ ['\n']) = s := by
  rw [firstLine_append hs, firstLine_of_not_mem hs]
  exact List.append_nil s

theorem isOneLine_of_kept {s kept : List Char} (hs : '\n' ∉ s) (h : Kept ['\n'] kept) :
    isOneLine (s ++ kept) = true := by
  rcases eq_of_kept_lineEnd h with rfl | rfl
  · rw [List.append_nil, isOneLine_of_not_mem hs]
  · exact isOneLine_lineEnd hs

theorem firstLine_of_kept {s kept : List Char} (hs : '\n' ∉ s) (h : Kept ['\n'] kept) :
    firstLine (s ++ kept) = s := by
  rcases eq_of_kept_lineEnd h with rfl | rfl
  · rw [List.append_nil, firstLine_of_not_mem hs]
  · exact firstLine_lineEnd hs

/-! ## Words and tails -/

theorem after?_lineEnd {w : List Char} (hw : '\n' ∉ w) (s : List Char) :
    after? w (s ++ ['\n']) = (after? w s).map (· ++ ['\n']) := by
  induction w generalizing s with
  | nil => rfl
  | cons c w ih =>
      have hc : c ≠ '\n' := fun heq => hw (heq ▸ List.mem_cons_self)
      cases s with
      | nil =>
          rw [List.nil_append, after?, if_neg hc]
          rfl
      | cons d s =>
          rw [List.cons_append, after?, after?, ih fun hmem => hw (List.mem_cons_of_mem c hmem)]
          split
          · rfl
          · rfl

theorem word?_lineEnd {β : Type} {extend : List Char → β → β} {words : List String}
    {tail? : List Char → Option β} (hwords : ∀ w ∈ words, '\n' ∉ w.toList)
    (htail : ∀ r, '\n' ∉ r → Trailing extend ['\n'] (tail? r) (tail? (r ++ ['\n'])))
    {s : List Char} (hs : '\n' ∉ s) :
    Trailing (fun kept q => (q.1, extend kept q.2)) ['\n'] (word? words tail? s)
      (word? words tail? (s ++ ['\n'])) := by
  apply Trailing.findSome?
  intro w hw
  rw [after?_lineEnd (hwords w hw)]
  cases hafter : after? w.toList s with
  | none => exact Trailing.none
  | some r =>
      have hr : '\n' ∉ r := fun hmem => hs (by
        rw [after?_eq_some hafter]
        exact List.mem_append_right _ hmem)
      obtain ⟨kept, hkept, hfound⟩ := htail r hr
      refine ⟨kept, hkept, ?_⟩
      simp only [Option.map_some, Option.bind_some, hfound, Option.map_map]
      rfl

/-- An expression is the same, whether its line ends or not. -/
theorem expressionTail?_lineEnd {r : List Char} (hr : '\n' ∉ r) :
    expressionTail? (r ++ ['\n']) = expressionTail? r := by
  rw [expressionTail?, expressionTail?]
  cases hskip : r.dropWhile isBlank with
  | nil =>
      rw [dropWhile_lineEnd hskip]
  | cons c t =>
      have ht : '\n' ∉ t := fun hmem => hr ((List.dropWhile_sublist isBlank).mem
        (hskip ▸ List.mem_cons_of_mem c hmem))
      obtain ⟨htake, hdrop⟩ := takeWhile_dropWhile_append hskip ['\n']
      rw [hdrop, htake]
      simp only [all_lineEnd]
      split
      · next hink =>
          have hall : t.all isBlank = false := by
            rw [Bool.and_eq_true] at hink
            simpa using hink.2
          obtain ⟨d, u, hd, -⟩ := (beginsInk_skipBlanks hall).exists_cons
          obtain ⟨htake', hdrop'⟩ :=
            takeWhile_dropWhile_append (show t.dropWhile isBlank = d :: u from hd) ['\n']
          have hdu : '\n' ∉ d :: u := (Respaced.of_skipBlanks hd).newline_not_mem ht
          rw [htake', hdrop', show t.dropWhile isBlank = d :: u from hd, firstLine_of_not_mem hdu,
            show firstLine (d :: (u ++ ['\n'])) = d :: u from firstLine_lineEnd hdu]
      · rw [firstLine_lineEnd ht, firstLine_of_not_mem ht]

theorem closingTail?_lineEnd {r : List Char} (hr : '\n' ∉ r) :
    Trailing (fun kept u => u ++ kept) ['\n'] (closingTail? r) (closingTail? (r ++ ['\n'])) := by
  rw [closingTail?, closingTail?]
  cases hskip : r.dropWhile isBlank with
  | nil =>
      rw [dropWhile_lineEnd hskip]
      exact Trailing.some (Kept.all _) rfl
  | cons c t =>
      have hct : '\n' ∉ c :: t := (Respaced.of_skipBlanks hskip).newline_not_mem hr
      obtain ⟨htake, hdrop⟩ := takeWhile_dropWhile_append hskip ['\n']
      rw [hdrop, htake]
      dsimp only
      split
      · exact Trailing.none
      · refine Trailing.some (Kept.none _) ?_
        rw [show firstLine (c :: (t ++ ['\n'])) = c :: t from firstLine_lineEnd hct,
          firstLine_of_not_mem hct, List.append_nil]

/-- More of the text in the tail of a closing word. -/
def extendTail (kept : List Char) (q : List Char × List Char) : List Char × List Char :=
  (q.1, q.2 ++ kept)

theorem closing?_lineEnd {words : List String} (hwords : ∀ w ∈ words, '\n' ∉ w.toList)
    {s : List Char} (hs : '\n' ∉ s) :
    Trailing extendTail ['\n'] (closing? words s) (closing? words (s ++ ['\n'])) := by
  apply Trailing.findSome?
  intro w hw
  rw [after?_lineEnd (hwords w hw)]
  cases hafter : after? w.toList s with
  | none => exact Trailing.none
  | some r =>
      have hr : '\n' ∉ r := fun hmem => hs (by
        rw [after?_eq_some hafter]
        exact List.mem_append_right _ hmem)
      simp only [Option.map_some, Option.bind_some]
      cases r with
      | nil => exact ⟨['\n'], Kept.all _, rfl⟩
      | cons c r =>
          by_cases hc : c = ';'
          · subst hc
            obtain ⟨kept, hkept, hfound⟩ := closingTail?_lineEnd fun hmem =>
              hr (List.mem_cons_of_mem ';' hmem)
            refine ⟨kept, hkept, ?_⟩
            simp only [List.cons_append, hfound, Option.map_map]
            rfl
          · obtain ⟨kept, hkept, hfound⟩ := closingTail?_lineEnd hr
            refine ⟨kept, hkept, ?_⟩
            rw [List.cons_append] at hfound ⊢
            simp only [List.cons.injEq, hc, false_and, imp_self, implies_true, hfound,
              Option.map_map]
            rfl

theorem shortBody?_lineEnd {r : List Char} (hr : '\n' ∉ r) :
    Trailing (fun kept q => (q.1, extendTail kept q.2)) ['\n'] (shortBody? r)
      (shortBody? (r ++ ['\n'])) := by
  cases r with
  | nil => exact Trailing.none
  | cons b t =>
      have ht : '\n' ∉ t := fun hmem => hr (List.mem_cons_of_mem b hmem)
      rw [List.cons_append, shortBody?, shortBody?]
      split
      · exact Trailing.none
      · cases hskip : t.dropWhile isBlank with
        | nil =>
            rw [dropWhile_lineEnd hskip]
            exact Trailing.none
        | cons c u =>
            have hu : '\n' ∉ u := fun hmem => ht ((List.dropWhile_sublist isBlank).mem
              (hskip ▸ List.mem_cons_of_mem c hmem))
            obtain ⟨htake, hdrop⟩ := takeWhile_dropWhile_append hskip ['\n']
            have hsplit : Trailing (fun kept q => (q.1, extendTail kept q.2)) ['\n']
                (lastSplit Spacing.isBreak (closing? shortEndWords) u)
                (lastSplit Spacing.isBreak (closing? shortEndWords) (u ++ ['\n'])) := by
              apply lastSplit_append hu
              -- no closing word begins in the line end itself
              · exact fun v hv => closing?_lineEnd (by decide) fun hmem => hu (hv.mem hmem)
              · intro v hv
                rcases List.suffix_cons_iff.1 hv with rfl | hv
                · rfl
                · rw [List.suffix_nil.1 hv]
                  rfl
            obtain ⟨kept, hkept, hfound⟩ := hsplit
            rw [hdrop, htake]
            refine ⟨kept, hkept, ?_⟩
            simp only [hfound, Option.map_map]
            rfl

/-! ## Statements -/

/-- The statement with more of the text in the tail of its closing word. -/
def Statement.extend (kept : List Char) : Statement → Statement
  | .short keyword body close tail => .short keyword body close (tail ++ kept)
  | .blockEnd close tail => .blockEnd close (tail ++ kept)
  | other => other

theorem skipBlanks_lineEnd {line : List Char} (hink : line.all isBlank = false) :
    skipBlanks (line ++ ['\n']) = skipBlanks line ++ ['\n'] := by
  obtain ⟨c, r, hskip, -⟩ := (beginsInk_skipBlanks hink).exists_cons
  have hdrop : line.dropWhile isBlank = c :: r := hskip
  rw [hskip]
  exact (takeWhile_dropWhile_append hdrop ['\n']).2

theorem trim_lineEnd (line : List Char) : trim (line ++ ['\n']) = trim line := by
  rw [trim_eq_skipBlanks_trimEnd, trim_eq_skipBlanks_trimEnd,
    trimEnd_append_of_blank (by decide)]

theorem opensComment_lineEnd (line : List Char) :
    opensComment (line ++ ['\n']) = opensComment line := by
  rw [Bool.eq_iff_iff, opensComment_iff, opensComment_iff, trim_lineEnd]

theorem closesComment_lineEnd (line : List Char) :
    closesComment (line ++ ['\n']) = closesComment line := by
  rw [Bool.eq_iff_iff, closesComment_iff, closesComment_iff, trim_lineEnd]

section

variable {line : List Char} (hline : '\n' ∉ line) (hink : line.all isBlank = false)

include hline hink

/-- **The statement of a line with its line end**, which at most the tail of a closing word
keeps. -/
theorem Statement.ofLine_lineEnd :
    ∃ kept, Kept ['\n'] kept ∧
      Statement.ofLine (line ++ ['\n']) = (Statement.ofLine line).extend kept := by
  have hs : '\n' ∉ skipBlanks line := (Respaced.skipBlanks line).newline_not_mem hline
  have hword : ∀ words : List String, (∀ w ∈ words, '\n' ∉ w.toList) →
      word? words expressionTail? (skipBlanks line ++ ['\n']) =
        word? words expressionTail? (skipBlanks line) := by
    intro words hwords
    have htail : ∀ r, '\n' ∉ r → Trailing (fun _ u => u) ['\n'] (expressionTail? r)
        (expressionTail? (r ++ ['\n'])) := by
      intro r hr
      exact ⟨[], Kept.none _, by rw [expressionTail?_lineEnd hr]; simp⟩
    obtain ⟨kept, -, hfound⟩ := word?_lineEnd hwords htail hs
    rw [hfound]
    simp
  have hshort : Trailing (fun kept q => (q.1, (q.2.1, extendTail kept q.2.2))) ['\n']
      (word? shortBlockWords shortBody? (skipBlanks line))
      (word? shortBlockWords shortBody? (skipBlanks line ++ ['\n'])) :=
    word?_lineEnd (by decide) (fun r hr => shortBody?_lineEnd hr) hs
  have hclosing : Trailing extendTail ['\n'] (closing? endWords (skipBlanks line))
      (closing? endWords (skipBlanks line ++ ['\n'])) := closing?_lineEnd (by decide) hs
  obtain ⟨kept, hkept, hshort⟩ := hshort
  obtain ⟨kept', hkept', hclosing⟩ := hclosing
  simp only [Statement.ofLine, skipBlanks_lineEnd hink, hshort, hclosing,
    hword functionWords (by decide), hword blockWords (by decide), hword switchWords (by decide),
    hword continuationWords (by decide)]
  -- the kinds in the order in which they are tried
  cases word? shortBlockWords shortBody? (skipBlanks line) with
  | some q => exact ⟨kept, hkept, rfl⟩
  | none =>
  cases word? functionWords expressionTail? (skipBlanks line) with
  | some q => exact ⟨[], Kept.none _, rfl⟩
  | none =>
  cases word? blockWords expressionTail? (skipBlanks line) with
  | some q => exact ⟨[], Kept.none _, rfl⟩
  | none =>
  cases word? switchWords expressionTail? (skipBlanks line) with
  | some q => exact ⟨[], Kept.none _, rfl⟩
  | none =>
  cases word? continuationWords expressionTail? (skipBlanks line) with
  | some q => exact ⟨[], Kept.none _, rfl⟩
  | none =>
  cases closing? endWords (skipBlanks line) with
  | some q => exact ⟨kept', hkept', rfl⟩
  | none => exact ⟨[], Kept.none _, rfl⟩

theorem isCommandLine_lineEnd : isCommandLine (line ++ ['\n']) = isCommandLine line := by
  have hs : '\n' ∉ skipBlanks line := (Respaced.skipBlanks line).newline_not_mem hline
  have htail : ∀ r, '\n' ∉ r → Trailing (fun _ u => u) ['\n']
      (if isOneLine r then some () else none)
      (if isOneLine (r ++ ['\n']) then some () else none) := by
    intro r hr
    rw [isOneLine_of_not_mem hr, isOneLine_lineEnd hr]
    exact ⟨[], Kept.none _, rfl⟩
  have hword : Trailing (fun _ q => (q.1, q.2)) ['\n']
      (word? commandWords (fun r => if isOneLine r then some () else none) (skipBlanks line))
      (word? commandWords (fun r => if isOneLine r then some () else none)
        (skipBlanks line ++ ['\n'])) := word?_lineEnd (by decide) htail hs
  obtain ⟨kept, -, hfound⟩ := hword
  rw [isCommandLine, isCommandLine, skipBlanks_lineEnd hink, hfound, Option.isSome_map]

theorem isCommentLine_lineEnd : isCommentLine (line ++ ['\n']) = isCommentLine line := by
  have hs : '\n' ∉ skipBlanks line := (Respaced.skipBlanks line).newline_not_mem hline
  obtain ⟨c, r, hskip, -⟩ := (beginsInk_skipBlanks hink).exists_cons
  have hr : '\n' ∉ r := fun hmem => hs (hskip ▸ List.mem_cons_of_mem c hmem)
  rw [isCommentLine, isCommentLine, skipBlanks_lineEnd hink, hskip, List.cons_append]
  by_cases hc : c = '%'
  · subst hc
    show isOneLine (r ++ ['\n']) = isOneLine r
    rw [isOneLine_lineEnd hr, isOneLine_of_not_mem hr]
  · simp [hc]

end

/-! ## What the layout reads of a line -/

namespace State

/-- Blanks after a text do not change it, put in order. -/
theorem space_append {s t : List Char} (hs : '\n' ∉ s) (ht : t.all isBlank = true) (st : State) :
    st.space (s ++ t) = st.space s := by
  obtain ⟨htext, hcomment⟩ := similar_append s t hs ht
  simp only [space, noteTree, hcomment, trim_eq_skipBlanks_trimEnd, htext]

theorem code_lineEnd {line : List Char} (hline : '\n' ∉ line) (st : State) :
    ∃ kept, Kept ['\n'] kept ∧
      st.code (line ++ ['\n']) = ((st.code line).1, (st.code line).2 ++ kept) := by
  obtain ⟨kept, hkept, hleaves, hcomment⟩ := leaves_append line ['\n'] hline blank_lineEnd
  refine ⟨kept, hkept, ?_⟩
  simp only [code, noteTree, hcomment, hleaves]

end State

section

variable {code kept : List Char} (hcode : '\n' ∉ code) (hkept : Kept ['\n'] kept)

include hcode hkept

theorem startsClosing_append : startsClosing (code ++ kept) = startsClosing code := by
  rw [startsClosing, startsClosing]
  rcases skipBlanks_append_cases (hkept.all_isBlank blank_lineEnd) code with
    ⟨hnil, hnil'⟩ | ⟨c, r, -, hskip, hskip'⟩
  · rw [hnil, hnil']
  · have hr : '\n' ∉ r := fun hmem =>
      (Respaced.of_skipBlanks hskip).newline_not_mem hcode (List.mem_cons_of_mem c hmem)
    rw [hskip, hskip']
    dsimp only
    rw [isOneLine_of_kept hr hkept, isOneLine_of_not_mem hr]

theorem isContinued_append : isContinued (code ++ kept) = isContinued code := by
  rw [isContinued, isContinued, firstLine_of_kept hcode hkept, firstLine_of_not_mem hcode,
    isOneLine_of_kept hcode hkept, isOneLine_of_not_mem hcode]

theorem column?_append (opening : Char) :
    column? opening (code ++ kept) = column? opening code := by
  rw [column?, column?]
  rcases skipBlanks_append_cases (hkept.all_isBlank blank_lineEnd) code with
    ⟨hnil, hnil'⟩ | ⟨c, r, -, hskip, hskip'⟩
  · rw [hnil, hnil']
  · have hcr : '\n' ∉ c :: r := (Respaced.of_skipBlanks hskip).newline_not_mem hcode
    rw [← List.cons_append] at hskip'
    simp only [hskip, hskip', isOneLine_of_kept hcr hkept, firstLine_of_kept hcr hkept,
      isOneLine_of_not_mem hcr, firstLine_of_not_mem hcr]

theorem trackBracket_append {opening closing : Char} (hopening : opening ≠ '\n')
    (hclosing : closing ≠ '\n') (width levels : Int) :
    trackBracket opening closing width levels (code ++ kept) =
      trackBracket opening closing width levels code := by
  have hcount : ∀ x, x ≠ '\n' → (code ++ kept).count x = code.count x := by
    intro x hx
    rcases eq_of_kept_lineEnd hkept with rfl | rfl
    · rw [List.append_nil]
    · rw [List.count_append, List.count_singleton]
      simp [hx.symm]
  have hbalance : balance opening closing (code ++ kept) = balance opening closing code := by
    rw [balance, balance, hcount opening hopening, hcount closing hclosing]
  simp only [trackBracket, hbalance, column?_append hcode hkept]

end

/-! ## Lines -/

namespace State

section

variable {line : List Char} (hline : '\n' ∉ line)

include hline

theorem trackMatrix_lineEnd (width : Int) (st : State) :
    st.trackMatrix width (line ++ ['\n']) = st.trackMatrix width line := by
  obtain ⟨kept, hkept, hcode⟩ := code_lineEnd hline st
  simp only [trackMatrix, hcode, trackBracket_append (newline_not_mem_code hline st) hkept
    (show '[' ≠ '\n' by decide) (show ']' ≠ '\n' by decide)]

theorem trackCell_lineEnd (width : Int) (st : State) :
    st.trackCell width (line ++ ['\n']) = st.trackCell width line := by
  obtain ⟨kept, hkept, hcode⟩ := code_lineEnd hline st
  simp only [trackCell, hcode, trackBracket_append (newline_not_mem_code hline st) hkept
    (show '{' ≠ '\n' by decide) (show '}' ≠ '\n' by decide)]

theorem trackContinuation_lineEnd (st : State) :
    st.trackContinuation (line ++ ['\n']) = st.trackContinuation line := by
  obtain ⟨kept, hkept, hcode⟩ := code_lineEnd hline { st with sawComment := false }
  have hno := newline_not_mem_code hline { st with sawComment := false }
  simp only [trackContinuation, hcode, startsClosing_append hno hkept, isContinued_append hno hkept]

variable (hink : line.all isBlank = false)

include hink

theorem trackComments_lineEnd (st : State) :
    st.trackComments (line ++ ['\n']) = st.trackComments line := by
  rw [trackComments, trackComments, isCommentLine_lineEnd hline hink, opensComment_lineEnd,
    closesComment_lineEnd]

theorem layStatement_lineEnd (style : Style) (st : State) :
    st.layStatement style (line ++ ['\n']) = st.layStatement style line := by
  obtain ⟨kept, hkept, hstatement⟩ := Statement.ofLine_lineEnd hline hink
  have hblank := hkept.all_isBlank blank_lineEnd
  have hno := (Statement.respaced_parts hline).newline_not_mem hline
  rw [layStatement, layStatement, hstatement]
  -- a tail that kept the line end is spaced, and loses it there
  cases hof : Statement.ofLine line with
  | short keyword body close tail =>
      rw [hof] at hno
      have htail : '\n' ∉ tail := fun hmem => hno (by simp [Statement.parts, hmem])
      simp only [Statement.extend, space_append htail hblank]
  | functionStart keyword tail => rfl
  | blockStart keyword tail => rfl
  | switchStart keyword tail => rfl
  | continuation keyword tail => rfl
  | blockEnd close tail =>
      rw [hof] at hno
      have htail : '\n' ∉ tail := fun hmem => hno (by simp [Statement.parts, hmem])
      simp only [Statement.extend, keywordLine, space_append htail hblank]
  | plain => simp only [Statement.extend, spaced, space_append hline blank_lineEnd]

theorem layCode_lineEnd (style : Style) (st : State) :
    st.layCode style (line ++ ['\n']) = st.layCode style line := by
  simp only [layCode, trackMatrix_lineEnd hline, trackCell_lineEnd hline, spaced,
    space_append hline blank_lineEnd, layStatement_lineEnd hline hink]

/-- **A line is laid out the same with its line end.** -/
theorem layLine_lineEnd (style : Style) (st : State) :
    st.layLine style (line ++ ['\n']) = st.layLine style line := by
  have htrimEnd : trimEnd (line ++ ['\n']) = trimEnd line := trimEnd_append_of_blank blank_lineEnd
  have htrim : trim (line ++ ['\n']) = trim line := by
    rw [trim_eq_skipBlanks_trimEnd, htrimEnd, ← trim_eq_skipBlanks_trimEnd]
  simp only [layLine, trackComments_lineEnd hline hink, trackContinuation_lineEnd hline,
    isCommandLine_lineEnd hline hink, layCode_lineEnd hline hink, htrimEnd, htrim]

end

end State

/-! ## Runs -/

/-- The line, with its line end or without it. -/
def EndedLine (ended line : List Char) : Prop :=
  '\n' ∉ line ∧ (ended = line ∨ ended = line ++ ['\n'])

theorem EndedLine.all_eq {ended line : List Char} (h : EndedLine ended line) :
    ended.all isBlank = line.all isBlank := by
  rcases h.2 with rfl | rfl
  · rfl
  · exact all_lineEnd line

theorem EndedLine.layLine_eq {ended line : List Char} (h : EndedLine ended line)
    (hink : line.all isBlank = false) (style : Style) (st : State) :
    st.layLine style ended = st.layLine style line := by
  rcases h.2 with rfl | rfl
  · rfl
  · exact State.layLine_lineEnd h.1 hink style st

namespace State

/-- **A run over lines is the same with their line ends.** -/
theorem layLines_lineEnd (style : Style) (st : State) (blank : Bool)
    {ended lines : List (List Char)} (h : List.Forall₂ EndedLine ended lines) :
    st.layLines style blank ended = st.layLines style blank lines := by
  induction h generalizing st blank with
  | nil => rfl
  | @cons e line es rest hline _ ih =>
      rw [layLines, layLines, hline.all_eq]
      split
      · rw [ih]
      · next hink =>
          rw [hline.layLine_eq (by simpa using hink)]
          simp only [ih]

/-- A document too, if its first line is not blank. -/
theorem layDocument_lineEnd (style : Style) (st : State) {first line : List Char}
    {ended rest : List (List Char)} (hfirst : EndedLine first line)
    (hink : line.all isBlank = false) (h : List.Forall₂ EndedLine ended rest) :
    st.layDocument style first ended = st.layDocument style line rest := by
  have hs : '\n' ∉ skipBlanks line := (Respaced.skipBlanks line).newline_not_mem hfirst.1
  obtain ⟨htake, hstart⟩ : first.takeWhile isBlank = line.takeWhile isBlank ∧
      firstLine (skipBlanks first) = firstLine (skipBlanks line) := by
    rcases hfirst.2 with rfl | rfl
    · exact ⟨rfl, rfl⟩
    · obtain ⟨c, r, hskip, -⟩ := (beginsInk_skipBlanks hink).exists_cons
      have hdrop : line.dropWhile isBlank = c :: r := hskip
      refine ⟨(takeWhile_dropWhile_append hdrop ['\n']).1, ?_⟩
      rw [skipBlanks_lineEnd hink, firstLine_lineEnd hs, firstLine_of_not_mem hs]
  have henter : st.enter style first = st.enter style line := by
    rw [enter, enter, htake]
  -- the first line is laid out without the blanks before it and without its line end
  have hlines : ∀ st' : State, st'.layLines style true (firstLine (skipBlanks line) :: ended) =
      st'.layLines style true (firstLine (skipBlanks line) :: rest) := by
    intro st'
    rw [firstLine_of_not_mem hs]
    exact layLines_lineEnd style st' true (List.Forall₂.cons ⟨hs, Or.inl rfl⟩ h)
  simp only [layDocument, henter, hstart, hlines]

end State

end Pcode.Indent
