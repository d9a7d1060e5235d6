import Mathlib
import Pcode.Proofs.Indent.Bare
import Pcode.Proofs.Indent.Level

set_option autoImplicit false

/-! # When a text has a layout, and what its lines look like

Laying out a text fails only where a level is asked for with no blanks per level, which is at the
first line. No other failure is left: the column of an open bracket is found wherever it is looked
for (`column?_spec`).

A step of the layout writes a line of spaces and ink, or copies a line of a block comment
(`State.layLine_shape`), and puts empty lines around it only where there is none yet. So a run of
steps writes no two empty lines side by side (`State.layLines_laid`), and dropping those at the end
leaves lines that begin and end with a line that is not blank.

Main statements: when there is no layout (`layText_fails_iff`), and the shape of the lines of a
layout (`layText_lines`). -/

namespace Pcode.Text

/-- Spaces, then ink. -/
def Indented (s : List Char) : Prop :=
  ∃ n c r, s = List.replicate n ' ' ++ c :: r ∧ isBlank c = false

theorem codeLines_eq_nil_iff (ls : List (List Char)) :
    codeLines ls = [] ↔ ∀ l ∈ ls, l.all isBlank = true := by
  rw [codeLines, List.map_eq_nil_iff, List.filter_eq_nil_iff]
  simp

theorem BeginsInk.indented {s : List Char} (h : BeginsInk s) (n : Nat) :
    Indented (List.replicate n ' ' ++ s) := by
  obtain ⟨c, r, rfl, hc⟩ := h.exists_cons
  exact ⟨n, c, r, rfl, hc⟩

theorem Indented.trimEnd {s : List Char} (h : Indented s) : Indented (trimEnd s) := by
  obtain ⟨n, c, r, rfl, hc⟩ := h
  rw [trimEnd_append_of_ink (by simp [hc]), trimEnd_cons_of_ink hc]
  exact ⟨n, c, Text.trimEnd r, rfl, hc⟩

/-- A text without its trailing blanks does not end in a blank. -/
theorem isBlank_of_trimEnd_eq_concat {s v : List Char} {c : Char} (h : trimEnd s = v ++ [c]) :
    isBlank c = false := by
  have hne : s.rdropWhile isBlank ≠ [] := by
    rw [← trimEnd_eq_rdropWhile, h]
    simp
  have hlast := List.rdropWhile_last_not isBlank s hne
  simp only [← trimEnd_eq_rdropWhile, h, List.getLast_append_singleton] at hlast
  simpa using hlast

end Pcode.Text

namespace Pcode.Indent

open Pcode.Text

/-! ## The column of an open bracket -/

theorem beforeLast?_eq_some {x : Char} {s t : List Char} (h : beforeLast? x s = some t) :
    ∃ r, s = t ++ x :: r ∧ x ∉ r := by
  induction s generalizing t with
  | nil => cases h
  | cons c s ih =>
      rw [beforeLast?] at h
      cases hrest : beforeLast? x s with
      | some u =>
          simp only [hrest] at h
          cases h
          obtain ⟨r, rfl, hr⟩ := ih hrest
          exact ⟨r, rfl, hr⟩
      | none =>
          simp only [hrest] at h
          split at h
          · next hc =>
              cases h
              refine ⟨s, by rw [hc]; rfl, fun hmem => ?_⟩
              obtain ⟨u, hu⟩ := beforeLast?_of_mem hmem
              rw [hrest] at hu
              cases hu
          · cases h

/-- The column is looked for where there are more opening than closing brackets, and there it is the
place of the last opening one, counted from the first ink. -/
theorem column?_spec {opening closing : Char} {code : List Char} (hink : isBlank opening = false)
    (hcode : '\n' ∉ code) (h : 0 < balance opening closing code) :
    ∃ s r, skipBlanks code = s ++ opening :: r ∧ opening ∉ r ∧
      column? opening code = some s.length := by
  obtain ⟨n, hn⟩ := column?_of_mem (mem_of_balance_pos h) hink hcode
  have hline : '\n' ∉ skipBlanks code := (Respaced.skipBlanks code).newline_not_mem hcode
  have hcolumn := hn
  rw [column?] at hcolumn
  simp only [isOneLine_of_not_mem hline, firstLine_of_not_mem hline, if_true] at hcolumn
  obtain ⟨s, hs, rfl⟩ := Option.map_eq_some_iff.1 hcolumn
  obtain ⟨r, hr, hlast⟩ := beforeLast?_eq_some hs
  exact ⟨s, r, hr, hlast, hn⟩

namespace State

theorem layText_of_zero (separate : Bool) (functions : FunctionIndent) (st : State)
    {source : List Char} {start : Int} {stop : Option Int}
    (h : selection start stop (splitLines source) ≠ []) :
    st.layText ⟨0, separate, functions⟩ source start stop = (st, .error .levelOfZeroWidth) := by
  cases hlines : selection start stop (splitLines source) with
  | nil => exact absurd hlines h
  | cons first rest =>
      simp only [layText, hlines, layDocument, enter, if_true]
      rfl

theorem layText_of_nil (style : Style) (st : State) {source : List Char} {start : Int}
    {stop : Option Int} (h : selection start stop (splitLines source) = []) :
    st.layText style source start stop = (st, .ok []) := by
  rw [layText, h]

end State

/-- **A layout fails only for want of a width.** Whatever the state: with no blanks per level and
some line selected, the level of the first line is the failure, and the state is left as it was. In
every other case there is a layout. And wherever a line without line end has more opening than
closing brackets, the column of the last opening one is found. -/
theorem layText_fails_iff (width : Int) (separate : Bool) (mode : Int) (st : State)
    (source : List Char) (start : Int) (stop : Option Int) :
    let style : Style := ⟨width, separate, .ofInt mode⟩
    let lines := selection start stop (splitLines source)
    (∀ e, (st.layText style source start stop).2 = .error e ↔
      (width = 0 ∧ lines ≠ []) ∧ e = .levelOfZeroWidth) ∧
    (width = 0 ∧ lines ≠ [] →
      st.layText style source start stop = (st, .error .levelOfZeroWidth)) ∧
    (¬(width = 0 ∧ lines ≠ []) → ∃ text, (st.layText style source start stop).2 = .ok text) ∧
    ∀ (st' : State) (line : List Char), '\n' ∉ line →
      ∀ brackets ∈ [('[', ']'), ('{', '}')], 0 < balance brackets.1 brackets.2 (st'.code line).2 →
        ∃ s r, skipBlanks (st'.code line).2 = s ++ brackets.1 :: r ∧ brackets.1 ∉ r ∧
          column? brackets.1 (st'.code line).2 = some s.length := by
  intro style lines
  have hzero : width = 0 ∧ lines ≠ [] →
      st.layText style source start stop = (st, .error .levelOfZeroWidth) := by
    rintro ⟨rfl, hne⟩
    exact st.layText_of_zero separate (.ofInt mode) hne
  have hok : ¬(width = 0 ∧ lines ≠ []) →
      ∃ text, (st.layText style source start stop).2 = .ok text := by
    intro h
    by_cases hwidth : width = 0
    · have hnil : lines = [] := by
        by_contra hne
        exact h ⟨hwidth, hne⟩
      exact ⟨[], by rw [st.layText_of_nil style hnil]⟩
    · obtain ⟨out, hout, -⟩ := State.layText_ok (Style.proper_ofInt hwidth separate mode) st source
        start stop
      exact ⟨_, hout⟩
  refine ⟨fun e => ⟨fun herror => ?_, ?_⟩, hzero, hok, ?_⟩
  · by_cases h : width = 0 ∧ lines ≠ []
    · rw [hzero h] at herror
      exact ⟨h, (Except.error.inj herror).symm⟩
    · obtain ⟨text, htext⟩ := hok h
      rw [htext] at herror
      cases herror
  · rintro ⟨h, rfl⟩
    rw [hzero h]
  · intro st' line hline brackets hbrackets hpos
    have hink : isBlank brackets.1 = false := by
      rcases List.mem_cons.1 hbrackets with rfl | hbrackets
      · decide
      · rw [List.mem_singleton.1 hbrackets]
        decide
    exact column?_spec hink (State.newline_not_mem_code hline st') hpos

/-- No width and a line, no width and none, and a negative width with open brackets, from a state in
which a block and a matrix are open. -/
theorem layText_fails_iff_widths :
    let st : State := { matrix := 2, blocks := { control := [2] } }
    st.layText ⟨0, true, .ofInt 1⟩ "x".toList 1 none = (st, .error .levelOfZeroWidth) ∧
      Error.levelOfZeroWidth.message = "integer division or modulo by zero" ∧
      (∃ text, (st.layText ⟨0, true, .ofInt 1⟩ "x".toList 2 none).2 = .ok text) ∧
      ∃ text, (st.layText ⟨-4, true, .ofInt (-1)⟩ "  a = [\x7b1".toList 1 none).2 = .ok text :=
  ⟨(layText_fails_iff 0 true 1 _ _ 1 none).2.1 (by decide +kernel), rfl,
    (layText_fails_iff 0 true 1 _ _ 2 none).2.2.1 (by decide +kernel),
    (layText_fails_iff (-4) true (-1) _ _ 1 none).2.2.1 (by decide +kernel)⟩

/-! ## One line -/

/-- The keyword or closing word of a statement. -/
def Statement.keyword? : Statement → Option (List Char)
  | .short keyword _ _ _ => some keyword
  | .functionStart keyword _ => some keyword
  | .blockStart keyword _ => some keyword
  | .switchStart keyword _ => some keyword
  | .continuation keyword _ => some keyword
  | .blockEnd close _ => some close
  | .plain => none

theorem beginsInk_of_word? {β : Type} {words : List String} {tail? : List Char → Option β}
    {s w : List Char} {t : β} (hwords : ∀ w ∈ words, BeginsInk w.toList)
    (h : word? words tail? s = some (w, t)) : BeginsInk w := by
  obtain ⟨v, hv, hvt⟩ := List.exists_of_findSome?_eq_some h
  obtain ⟨r, -, hr⟩ := Option.bind_eq_some_iff.1 hvt
  obtain ⟨u, -, hpair⟩ := Option.map_eq_some_iff.1 hr
  cases hpair
  exact hwords v hv

theorem beginsInk_of_closing? {words : List String} {s close tail : List Char}
    (hwords : ∀ w ∈ words, BeginsInk w.toList) (h : closing? words s = some (close, tail)) :
    BeginsInk close := by
  obtain ⟨v, hv, hvt⟩ := List.exists_of_findSome?_eq_some h
  obtain ⟨r, -, hr⟩ := Option.bind_eq_some_iff.1 hvt
  split at hr
  · obtain ⟨u, -, hpair⟩ := Option.map_eq_some_iff.1 hr
    cases hpair
    exact (hwords v hv).append [';']
  · obtain ⟨u, -, hpair⟩ := Option.map_eq_some_iff.1 hr
    cases hpair
    exact hwords v hv

theorem Statement.beginsInk_keyword (line : List Char) :
    ∀ w ∈ (Statement.ofLine line).keyword?, BeginsInk w := by
  simp only [Statement.ofLine]
  -- the kinds in the order in which they are tried
  split
  · next hword =>
      rintro w ⟨⟩
      exact beginsInk_of_word? (by decide) hword
  split
  · next hword =>
      rintro w ⟨⟩
      exact beginsInk_of_word? (by decide) hword
  split
  · next hword =>
      rintro w ⟨⟩
      exact beginsInk_of_word? (by decide) hword
  split
  · next hword =>
      rintro w ⟨⟩
      exact beginsInk_of_word? (by decide) hword
  split
  · next hword =>
      rintro w ⟨⟩
      exact beginsInk_of_word? (by decide) hword
  split
  · next hclose =>
      rintro w ⟨⟩
      exact beginsInk_of_closing? (by decide) hclose
  · rintro w ⟨⟩

namespace State

@[simp] theorem blockComment_noteTree (st : State) (t : Spacing.Tree) :
    (st.noteTree t).blockComment = st.blockComment := by
  rw [noteTree]
  split
  · rfl
  · rfl

@[simp] theorem blockComment_closeBlock (st : State) :
    st.closeBlock.1.blockComment = st.blockComment := by
  rw [closeBlock]
  split
  · rfl
  · split
    · rfl
    · rfl

theorem blockComment_trackMatrix (st : State) (width : Int) (line : List Char) :
    (st.trackMatrix width line).1.blockComment = st.blockComment := by
  simp only [trackMatrix, code]
  split
  · simp
  · simp

theorem blockComment_trackCell (st : State) (width : Int) (line : List Char) :
    (st.trackCell width line).1.blockComment = st.blockComment := by
  simp only [trackCell, code]
  split
  · simp
  · simp

/-- An outcome that leaves the note on block comments alone; a line, if there is one, is spaces and
ink. -/
def WritesIndented (st : State) (outcome : State × Except Error Line) : Prop :=
  outcome.1.blockComment = st.blockComment ∧ ∀ l, outcome.2 = .ok l → Indented l.text

section

variable {line : List Char} (hline : '\n' ∉ line) (hink : line.all isBlank = false)

include hline hink

theorem writesIndented_spaced (st : State) (width add : Int) :
    WritesIndented st ((st.spaced width add line).1, .ok (st.spaced width add line).2) := by
  refine ⟨st.blockComment_noteTree _, ?_⟩
  rintro l ⟨⟩
  exact (st.beginsInk_space hline hink).indented _

omit hline hink in
theorem writesIndented_keywordLine {st st₁ : State} (hnote : st₁.blockComment = st.blockComment)
    (width offset add : Int) {keyword : List Char} (hkeyword : BeginsInk keyword)
    (tail : List Char) :
    WritesIndented st ((st₁.keywordLine width offset add keyword tail).1,
      .ok (st₁.keywordLine width offset add keyword tail).2) := by
  refine ⟨(st₁.blockComment_noteTree _).trans hnote, ?_⟩
  rintro l ⟨⟩
  show Indented (st₁.indent width add ++ keyword ++ ' ' :: (st₁.space tail).2)
  rw [List.append_assoc]
  exact (hkeyword.append _).indented _

theorem layStatement_indented (style : Style) (st : State) :
    WritesIndented st (st.layStatement style line) := by
  have hkeyword := Statement.beginsInk_keyword line
  rw [layStatement]
  cases hstmt : Statement.ofLine line with
  | short keyword body close tail =>
      rw [hstmt] at hkeyword
      refine ⟨by simp [space], ?_⟩
      rintro l ⟨⟩
      simp only [List.append_assoc]
      exact ((hkeyword keyword rfl).append _).indented _
  | functionStart keyword tail =>
      rw [hstmt] at hkeyword
      -- a function can fail, and then no line is written
      cases hoffset : st.openFunction.functionOffset style with
      | ok offset =>
          simp only [hoffset]
          exact writesIndented_keywordLine rfl _ _ _ (hkeyword keyword rfl) _
      | error e =>
          simp only [hoffset]
          refine ⟨rfl, ?_⟩
          rintro l ⟨⟩
  | blockStart keyword tail =>
      rw [hstmt] at hkeyword
      exact writesIndented_keywordLine rfl _ _ _ (hkeyword keyword rfl) _
  | switchStart keyword tail =>
      rw [hstmt] at hkeyword
      exact writesIndented_keywordLine rfl _ _ _ (hkeyword keyword rfl) _
  | continuation keyword tail =>
      rw [hstmt] at hkeyword
      exact writesIndented_keywordLine rfl _ _ _ (hkeyword keyword rfl) _
  | blockEnd close tail =>
      rw [hstmt] at hkeyword
      exact writesIndented_keywordLine st.blockComment_closeBlock _ _ _ (hkeyword close rfl) _
  | plain => exact writesIndented_spaced hline hink st style.width 0

theorem layCode_indented (style : Style) (st : State) :
    WritesIndented st (st.layCode style line) := by
  have hmatrix := st.blockComment_trackMatrix style.width line
  cases htrack : st.trackMatrix style.width line with
  | mk st₁ result =>
  rw [htrack] at hmatrix
  cases result with
  | error e =>
      simp only [layCode, htrack]
      refine ⟨hmatrix, ?_⟩
      rintro l ⟨⟩
  | ok change =>
  simp only [layCode, htrack]
  -- in brackets of a matrix, then in those of a cell, and else as a statement
  split
  · obtain ⟨hnote, htext⟩ := writesIndented_spaced hline hink st₁ style.width st.matrix
    exact ⟨hnote.trans hmatrix, htext⟩
  · have hcell := (st₁.blockComment_trackCell style.width line).trans hmatrix
    cases htrack' : st₁.trackCell style.width line with
    | mk st₂ result =>
    rw [htrack'] at hcell
    cases result with
    | error e =>
        refine ⟨hcell, ?_⟩
        rintro l ⟨⟩
    | ok change =>
        simp only
        split
        · obtain ⟨hnote, htext⟩ := writesIndented_spaced hline hink st₂ style.width st₁.cell
          exact ⟨hnote.trans hcell, htext⟩
        · obtain ⟨hnote, htext⟩ := layStatement_indented hline hink style st₂
          exact ⟨hnote.trans hcell, htext⟩

/-- The state says whether a line has been taken as part of a block comment: such a line is copied
but for the blanks at its end, and any other one is written as spaces and ink. -/
theorem layLine_shape {style : Style} {st st' : State} {l : Line}
    (h : st.layLine style line = (st', .ok l)) :
    (st'.blockComment = .outside ∧ Indented l.text) ∨
      st'.blockComment ≠ .outside ∧ l.text = trimEnd line := by
  simp only [layLine] at h
  split at h
  · next hinside =>
      cases h
      exact Or.inr ⟨by simpa using hinside, rfl⟩
  · next houtside =>
      have hnote : ((st.trackComments line).trackContinuation line).blockComment = .outside := by
        simpa using houtside
      split at h
      · cases h
        exact Or.inl ⟨hnote, (beginsInk_trim hink).indented _⟩
      · have hcode := layCode_indented hline hink style
          ((st.trackComments line).trackContinuation line)
        rw [h] at hcode
        exact Or.inl ⟨hcode.1.trans hnote, hcode.2 l rfl⟩

end

/-- What each visit of a run has written. -/
theorem visits_shape {style : Style} (st : State) {lines : List (List Char)}
    (hlines : ∀ l ∈ lines, BreakFree l) :
    ∀ v ∈ st.visits style lines, (v.1.blockComment = .outside ∧ Indented v.2.text) ∨
      v.1.blockComment ≠ .outside ∧ ∃ line ∈ lines, v.2.text = trimEnd line := by
  induction lines generalizing st with
  | nil =>
      intro v hv
      cases hv
  | cons line rest ih =>
      have hrest : ∀ l ∈ rest, BreakFree l := fun l hl => hlines l (by simp [hl])
      -- what the induction gives is about the rest of the lines, from any state
      have hlater : ∀ st' : State, ∀ v ∈ st'.visits style rest,
          (v.1.blockComment = .outside ∧ Indented v.2.text) ∨
            v.1.blockComment ≠ .outside ∧ ∃ l ∈ line :: rest, v.2.text = trimEnd l := by
        intro st' v hv
        rcases ih st' hrest v hv with hwritten | ⟨hinside, l, hl, htext⟩
        · exact Or.inl hwritten
        · exact Or.inr ⟨hinside, l, List.mem_cons_of_mem line hl, htext⟩
      rw [visits]
      split
      · exact hlater st
      · next hink =>
          split
          · intro v hv
            cases hv
          · next st' l hlay =>
              intro v hv
              rcases List.mem_cons.1 hv with rfl | hv
              · rcases layLine_shape (hlines line (by simp)).newline_not_mem (by simpa using hink)
                  hlay with hwritten | ⟨hinside, htext⟩
                · exact Or.inl hwritten
                · exact Or.inr ⟨hinside, line, by simp, htext⟩
              · exact hlater _ v hv

end State

/-! ## Lines side by side -/

/-- Lines as they are laid out: empty ones, never two of them side by side, and lines that are not
blank and do not end in a blank. If an empty line has just been written, or nothing yet, as `blank`
says, the first one is not empty. -/
structure Laid (blank : Bool) (out : List (List Char)) : Prop where
  lines : ∀ l ∈ out, l = [] ∨ (l.all isBlank = false ∧ trimEnd l = l)
  pairs : out.IsChain fun l m => l ≠ [] ∨ m ≠ []
  first : blank = true → ∀ l ∈ out.head?, l ≠ []

namespace Laid

variable {out : List (List Char)}

theorem nil (blank : Bool) : Laid blank [] :=
  ⟨by simp, List.isChain_nil, by simp⟩

/-- An empty line may come before what begins with another one. -/
theorem cons_empty (h : Laid true out) : Laid false ([] :: out) where
  lines := by
    intro l hl
    rcases List.mem_cons.1 hl with rfl | hl
    · exact Or.inl rfl
    · exact h.lines l hl
  pairs := List.isChain_cons.2 ⟨fun l hl => Or.inr (h.first rfl l hl), h.pairs⟩
  first := by simp

/-- An empty line is put in front only if none has just been written. -/
theorem before (h : Laid true out) {blank b : Bool} (hb : b = true → blank = false) :
    Laid blank (State.gap b ++ out) := by
  cases b with
  | false => exact ⟨h.lines, h.pairs, fun _ => h.first rfl⟩
  | true =>
      rw [hb rfl]
      exact h.cons_empty

theorem after {b : Bool} (h : Laid b out) : Laid false (State.gap b ++ out) := by
  cases b with
  | false => exact h
  | true => exact h.cons_empty

/-- A line that is not blank may come before anything. -/
theorem cons {blank : Bool} {l : List Char} (h : Laid blank out) (hink : l.all isBlank = false)
    (htrim : trimEnd l = l) : Laid true (l :: out) := by
  have hne : l ≠ [] := by
    rintro rfl
    cases hink
  refine ⟨?_, List.isChain_cons.2 ⟨fun _ _ => Or.inl hne, h.pairs⟩, ?_⟩
  · intro m hm
    rcases List.mem_cons.1 hm with rfl | hm
    · exact Or.inr ⟨hink, htrim⟩
    · exact h.lines m hm
  · rintro - m ⟨⟩
    exact hne

/-- Without the empty lines at the end. -/
theorem dropLastEmpty (h : Laid true out) : Laid true (out.reverse.dropWhile List.isEmpty).reverse ∧
    ∀ l ∈ (out.reverse.dropWhile List.isEmpty).reverse.getLast?, l ≠ [] := by
  have hfront : out.rdropWhile List.isEmpty <+: out := List.rdropWhile_prefix _ _
  change Laid true (out.rdropWhile List.isEmpty) ∧
    ∀ l ∈ (out.rdropWhile List.isEmpty).getLast?, l ≠ []
  refine ⟨⟨fun l hl => h.lines l (hfront.subset hl), List.IsChain.prefix h.pairs hfront,
    fun _ l hl => ?_⟩, ?_⟩
  · apply h.first rfl l
    obtain ⟨rest, hrest⟩ := hfront
    rw [← hrest]
    exact List.mem_head?_append_of_mem_head? hl
  · intro l hl
    have hne : out.rdropWhile List.isEmpty ≠ [] := by
      intro hnil
      rw [hnil] at hl
      cases hl
    have hlast := List.rdropWhile_last_not List.isEmpty out hne
    rw [List.getLast?_eq_some_getLast hne] at hl
    cases hl
    simpa using hlast

end Laid

namespace State

/-- **A run of steps writes no two empty lines side by side.** -/
theorem layLines_laid {style : Style} (hstyle : style.Proper) (st : State) (blank : Bool)
    {lines : List (List Char)} (hlines : ∀ l ∈ lines, BreakFree l) {out : List (List Char)}
    (h : (st.layLines style blank lines).2 = .ok out) : Laid blank out := by
  induction lines generalizing st blank out with
  | nil =>
      cases h
      exact Laid.nil blank
  | cons line rest ih =>
      have hrest : ∀ l ∈ rest, BreakFree l := fun l hl => hlines l (by simp [hl])
      by_cases hblank : line.all isBlank = true
      · obtain ⟨inner, hinner, -⟩ := layLines_ok hstyle st true hrest
        rw [layLines_cons_of_blank hblank, hinner] at h
        cases h
        exact (ih st true hrest hinner).before (by simp)
      · obtain ⟨l, hl, hkept⟩ := layLine_ok hstyle st (hlines line (by simp)).newline_not_mem
        have hlay : st.layLine style line = ((st.layLine style line).1, .ok l) := Prod.ext rfl hl
        have hink : (trimEnd l.text).all isBlank = false := by
          rw [(hkept.trans (Respaced.trimEnd _)).all_isBlank_eq]
          simpa using hblank
        obtain ⟨inner, hinner, -⟩ := layLines_ok hstyle
          ((st.layLine style line).1.shift l.offset) (gapAfter style l) hrest
        rw [layLines_cons_of_layLine (by simpa using hblank) hlay, hinner] at h
        cases h
        -- the line stands between its gaps, and the flag says what the gap after it has written
        refine ((ih _ _ hrest hinner).after.cons hink ?_).before ?_
        · exact List.rdropWhile_idempotent isBlank l.text
        · intro hgap
          simp only [gapBefore, Bool.and_eq_true, Bool.not_eq_true'] at hgap
          exact hgap.1.2

/-- The visits of the lines of a document, the first one without the blanks that give the level. -/
def documentVisits (style : Style) (st : State) : List (List Char) → List (State × Line)
  | [] => []
  | first :: rest => (st.entered style first).visits style (firstLine (skipBlanks first) :: rest)

/-- The lines of a layout, which are joined to its text. -/
theorem layText_eq_lines {style : Style} (hstyle : style.Proper) (st : State) {source : List Char}
    {start : Int} {stop : Option Int} {first : List Char} {rest : List (List Char)}
    (hlines : selection start stop (splitLines source) = first :: rest) :
    ∃ st' out, st.layText style source start stop = (st', .ok (['\n'].intercalate out)) ∧
      Laid true out ∧ (∀ l ∈ out.getLast?, l ≠ []) ∧ (∀ l ∈ out, BreakFree l) ∧
      codeLines out = codeLines (first :: rest) ∧
      inkedLines out = (st.documentVisits style (first :: rest)).map fun v => trimEnd v.2.text := by
  have hfree : ∀ l ∈ first :: rest, BreakFree l := fun l hl =>
    breakFree_of_mem_selection (by rw [hlines]; exact hl)
  have hlaid := breakFree_document hfree
  obtain ⟨-, out, hout, htexts⟩ := layLines_eq_visits hstyle (st.entered style first) true hlaid
  have hrun : (st.entered style first).layLines style true (skipBlanks first :: rest) =
      (_, .ok out) := Prod.ext rfl hout
  have hdocument := layDocument_of_layLines hstyle (hfree first (by simp)) hrun
  obtain ⟨hshape, hlast⟩ := (layLines_laid hstyle _ true hlaid hout).dropLastEmpty
  obtain ⟨out', hout', hcode, hbreaks⟩ := layDocument_ok hstyle st hfree
  rw [hdocument] at hout'
  obtain rfl := Except.ok.inj hout'
  refine ⟨(st.layDocument style first rest).1, _, ?_, hshape, hlast, hbreaks, hcode, ?_⟩
  · simp only [layText, hlines, hdocument]
    rfl
  · rw [inkedLines_dropLastEmpty, htexts, documentVisits,
      firstLine_skipBlanks (hfree first (by simp))]

theorem documentVisits_shape {style : Style} (st : State) {lines : List (List Char)}
    (hlines : ∀ l ∈ lines, BreakFree l) :
    ∀ v ∈ st.documentVisits style lines,
      (v.1.blockComment = .outside ∧ Indented (trimEnd v.2.text)) ∨
      v.1.blockComment ≠ .outside ∧
        ∃ line ∈ lines, trimEnd v.2.text = trimEnd line ∨ trimEnd v.2.text = trim line := by
  cases lines with
  | nil =>
      intro v hv
      cases hv
  | cons first rest =>
      intro v hv
      rw [documentVisits, firstLine_skipBlanks (hlines first (by simp))] at hv
      rcases visits_shape _ (breakFree_document hlines) v hv with
        ⟨houtside, htext⟩ | ⟨hinside, line, hline, htext⟩
      · exact Or.inl ⟨houtside, htext.trimEnd⟩
      · have hcopy : trimEnd v.2.text = trimEnd line := by
          rw [htext]
          exact List.rdropWhile_idempotent isBlank line
        rcases List.mem_cons.1 hline with rfl | hline
        · exact Or.inr ⟨hinside, first, by simp, Or.inr hcopy⟩
        · exact Or.inr ⟨hinside, line, by simp [hline], Or.inl hcopy⟩

end State

namespace Laid

variable {out : List (List Char)}

theorem all_isBlank_iff {blank : Bool} (h : Laid blank out) {l : List Char} (hl : l ∈ out) :
    l.all isBlank = true ↔ l = [] := by
  rcases h.lines l hl with rfl | ⟨hink, -⟩
  · simp
  · constructor
    · intro hblank
      rw [hink] at hblank
      cases hblank
    · rintro rfl
      rfl

theorem intercalate_eq_nil_iff (h : Laid true out) : ['\n'].intercalate out = [] ↔ out = [] := by
  cases out with
  | nil => simp
  | cons l rest =>
      have hne : l ≠ [] := h.first rfl l rfl
      cases rest with
      | nil => simpa using hne
      | cons m rest => simp

/-- Lines that begin with one that is not blank say something. -/
theorem codeLines_eq_nil_iff (h : Laid true out) : codeLines out = [] ↔ out = [] := by
  rw [Text.codeLines_eq_nil_iff]
  cases out with
  | nil => simp
  | cons l rest =>
      have hne : l ≠ [] := h.first rfl l rfl
      refine ⟨fun hall => absurd (hall l (by simp)) ?_, fun hnil => by cases hnil⟩
      rwa [h.all_isBlank_iff (by simp)]

end Laid

/-- **What a layout looks like.** With blanks per level, whatever the state: the layout is empty if
and only if no selected line has any ink. Otherwise the first and the last of its lines are not
blank, no two blank lines are side by side and no line ends in a blank. The lines that are not blank
are those of the visits, in order; a line that was not taken as part of a block comment is spaces
and ink, and any other one is a selected line without the blanks at its end. -/
theorem layText_lines (width : Int) (hwidth : width ≠ 0) (separate : Bool) (mode : Int) (st : State)
    (source : List Char) (start : Int) (stop : Option Int) :
    let style : Style := ⟨width, separate, .ofInt mode⟩
    let selected := selection start stop (splitLines source)
    ∃ st' text, st.layText style source start stop = (st', .ok text) ∧
      (text = [] ↔ ∀ l ∈ selected, l.all isBlank = true) ∧
      (text ≠ [] →
        let lines := text.splitOn '\n'
        (∀ l ∈ lines.head?, l.all isBlank = false) ∧ (∀ l ∈ lines.getLast?, l.all isBlank = false) ∧
        (lines.IsChain fun l m => ¬(l.all isBlank = true ∧ m.all isBlank = true)) ∧
        (∀ l ∈ lines, ∀ v c, l = v ++ [c] → isBlank c = false) ∧
        inkedLines lines = (st.documentVisits style selected).map (fun v => trimEnd v.2.text) ∧
        ∀ v ∈ st.documentVisits style selected,
          (v.1.blockComment = .outside ∧ Indented (trimEnd v.2.text)) ∨
            v.1.blockComment ≠ .outside ∧ ∃ line ∈ selected,
              trimEnd v.2.text = trimEnd line ∨ trimEnd v.2.text = trim line) := by
  intro style selected
  have hproper : style.Proper := Style.proper_ofInt hwidth separate mode
  have hfree : ∀ l ∈ selected, BreakFree l := fun l hl =>
    breakFree_of_mem_splitLines (mem_of_mem_selection hl)
  cases hselected : selected with
  | nil =>
      refine ⟨st, [], st.layText_of_nil style hselected, by simp, fun hne => absurd rfl hne⟩
  | cons first rest =>
      obtain ⟨st', out, hlay, hlaid, hlast, hbreaks, hcode, htexts⟩ :=
        State.layText_eq_lines hproper st hselected
      have hink : ∀ l ∈ out, l ≠ [] → l.all isBlank = false := by
        intro l hl hne
        rwa [← Bool.not_eq_true, hlaid.all_isBlank_iff hl]
      refine ⟨st', _, hlay, ?_, fun hne => ?_⟩
      · rw [hlaid.intercalate_eq_nil_iff, ← hlaid.codeLines_eq_nil_iff, hcode, codeLines_eq_nil_iff]
      · have hout : out ≠ [] := fun hnil => hne (hlaid.intercalate_eq_nil_iff.2 hnil)
        have hsplit : (['\n'].intercalate out).splitOn '\n' = out :=
          List.splitOn_intercalate '\n' (fun l hl => (hbreaks l hl).newline_not_mem) hout
        rw [hselected] at hfree
        simp only [hsplit]
        refine ⟨fun l hl => ?_, fun l hl => ?_, ?_, fun l hl v c hlc => ?_, htexts,
          st.documentVisits_shape hfree⟩
        · exact hink l (List.mem_of_head? hl) (hlaid.first rfl l hl)
        · exact hink l (List.mem_of_getLast? hl) (hlast l hl)
        · rw [List.isChain_iff_forall_rel_of_append_cons_cons]
          rintro l m u v rfl ⟨hl, hm⟩
          rw [hlaid.all_isBlank_iff (by simp)] at hl hm
          have hpair := List.isChain_iff_forall_rel_of_append_cons_cons.1 hlaid.pairs rfl
          exact hpair.elim (absurd hl) (absurd hm)
        · rcases hlaid.lines l hl with rfl | ⟨-, htrim⟩
          · simp at hlc
          · exact isBlank_of_trimEnd_eq_concat (htrim.trans hlc)

/-- A block comment, blank lines at the ends and in between, a block and a matrix over two lines,
with a negative width and a state in which a block is open. -/
def spreadSource : List Char :=
  " \n  x=1 \n\n\t\n%\x7b\n \ta  \n%\x7d\nif y\nz = [1,\n  2]\nend\n \n".toList

theorem layText_lines_spread :
    (-2 : Int) ≠ 0 ∧ ∃ st' text,
      ({ blocks := { control := [2] } } : State).layText ⟨-2, true, .ofInt 1⟩ spreadSource 1 none =
        (st', .ok text) ∧ text ≠ [] ∧
      (∀ l ∈ (text.splitOn '\n').head?, l.all isBlank = false) ∧
      ∀ l ∈ text.splitOn '\n', ∀ v c, l = v ++ [c] → isBlank c = false := by
  obtain ⟨st', text, hlay, hempty, hlines⟩ :=
    layText_lines (-2) (by decide) true 1 { blocks := { control := [2] } } spreadSource 1 none
  have hne : text ≠ [] := fun hnil => absurd (hempty.1 hnil) (by decide +kernel)
  obtain ⟨hfirst, -, -, hends, -⟩ := hlines hne
  exact ⟨by decide, st', text, hlay, hne, hfirst, hends⟩

end Pcode.Indent
