import Pcode.Command.Format
import Pcode.Proofs.Indent.LineEnd

set_option autoImplicit false

/-! # Printing a file is laying out its text

The command lays out the lines of a file with their line ends, and prints line after line. A
source text is laid out by lines without line ends, which are joined again. For a text with no
other line break than `\n` the two divide the text in the same places (`endedLine_fileLines`).

Main statement: the command prints the layout of the text and one line end
(`print_eq_layText`). -/

namespace Pcode.Command.Format

open Pcode.Text
open Pcode.Indent (State Style EndedLine selection slice warnings)

/-! ## Lines of files and of texts -/

/-- The text has no other line break than `\n`. -/
def PlainBreaks (s : List Char) : Prop := ∀ c ∈ s, isLineBreak c = true → c = '\n'

instance (s : List Char) : Decidable (PlainBreaks s) :=
  List.decidableBAll (fun c => isLineBreak c = true → c = '\n') s

theorem universal_eq {s : List Char} (hs : PlainBreaks s) : universal s = s := by
  induction s with
  | nil => rfl
  | cons c s ih =>
      have hc : c ≠ '\r' := fun heq => absurd (hs c (by simp) (by rw [heq]; decide)) (by
        rw [heq]
        decide)
      have hrest : PlainBreaks s := fun d hd => hs d (by simp [hd])
      rw [universal]
      · rw [ih hrest]
        simp [hc]
      · exact fun _ heq => absurd heq hc

theorem endedLine_fileLinesFrom {s line : List Char} (hs : PlainBreaks s) (hline : '\n' ∉ line) :
    List.Forall₂ EndedLine (fileLinesFrom line s) (splitLinesFrom line s) := by
  have hreverse : ∀ l : List Char, '\n' ∉ l → '\n' ∉ l.reverse := by simp
  induction s generalizing line with
  | nil =>
      rw [fileLinesFrom, splitLinesFrom]
      split
      · exact List.Forall₂.nil
      · exact List.Forall₂.cons ⟨hreverse line hline, Or.inl rfl⟩ List.Forall₂.nil
  | cons c s ih =>
      have hrest : PlainBreaks s := fun d hd => hs d (by simp [hd])
      rw [fileLinesFrom]
      by_cases hc : c = '\n'
      · subst hc
        rw [if_pos (by decide), splitLinesFrom_newline]
        refine List.Forall₂.cons ⟨hreverse line hline, Or.inr ?_⟩ (ih hrest List.not_mem_nil)
        rw [List.reverse_cons]
      · have hbreak : isLineBreak c = false := by
          cases h : isLineBreak c with
          | false => rfl
          | true => exact absurd (hs c (by simp) h) hc
        rw [if_neg (by simpa using hc), splitLinesFrom_cons hbreak]
        apply ih hrest
        intro hmem
        rcases List.mem_cons.1 hmem with heq | hmem
        · exact hc heq.symm
        · exact hline hmem

/-- **A text is divided in the same places**, with or without line ends. -/
theorem endedLine_fileLines {text : List Char} (h : PlainBreaks text) :
    List.Forall₂ EndedLine (fileLines (universal text)) (splitLines text) := by
  rw [universal_eq h]
  exact endedLine_fileLinesFrom h List.not_mem_nil

theorem forall₂_selection {α β : Type} {R : α → β → Prop} {xs : List α} {ys : List β}
    (h : List.Forall₂ R xs ys) (start : Int) (stop : Option Int) :
    List.Forall₂ R (selection start stop xs) (selection start stop ys) := by
  unfold selection slice
  rw [h.length_eq]
  exact List.forall₂_take _ (List.forall₂_drop _ h)

/-! ## Printing -/

/-- Lines printed one by one are the lines joined, and a line end. -/
theorem join_lines {out : List (List Char)} (hout : out ≠ []) :
    String.join (out.map fun l => String.ofList l ++ "\n") =
      String.ofList (['\n'].intercalate out) ++ "\n" := by
  induction out with
  | nil => exact absurd rfl hout
  | cons l out ih =>
      rw [List.map_cons, String.join_cons]
      cases out with
      | nil =>
          rw [List.map_nil, String.join_nil, List.intercalate_singleton]
          exact String.append_empty
      | cons m out =>
          rw [ih (by simp), List.intercalate_cons_cons, String.ofList_append, String.ofList_append]
          simp only [String.append_assoc]

/-- Lines as the command prints them: without any, an empty one. -/
theorem join_printed (out : List (List Char)) :
    String.join ((if out.isEmpty then [[]] else out).map fun l => String.ofList l ++ "\n") =
      String.ofList (['\n'].intercalate out) ++ "\n" := by
  cases out with
  | nil => rfl
  | cons l out => exact join_lines (by simp)

/-- The layout of the lines of a file, against that of the text. -/
theorem layFile_eq_layText {style : Style} (hstyle : style.Proper) (st : State) {text : List Char}
    (hbreaks : PlainBreaks text) (start : Int) (stop : Option Int)
    (hfirst : ∀ l ∈ (selection start stop (splitLines text)).head?, l.all isBlank = false) :
    ∃ st₁ st₂ out laid, st.layFile style (fileLines (universal text)) start stop = (st₁, .ok out) ∧
      st.layText style text start stop = (st₂, .ok laid) ∧
      String.join (out.map fun l => String.ofList l ++ "\n") = String.ofList laid ++ "\n" ∧
      st₁.blocks = st₂.blocks ∧ st₁.excessEnds = st₂.excessEnds := by
  have hlines := forall₂_selection (endedLine_fileLines hbreaks) start stop
  have hfree : ∀ l ∈ selection start stop (splitLines text), BreakFree l := fun _ =>
    Indent.breakFree_of_mem_selection
  rw [State.layFile, State.layText]
  cases hselected : selection start stop (splitLines text) with
  | nil =>
      -- nothing is selected: an empty line stands for the file
      rw [hselected] at hlines
      rw [List.forall₂_nil_right_iff.1 hlines]
      have hempty : st.layDocument style [] [] =
          ({ st with level := Int.fdiv 0 style.width }, .ok []) := by
        rw [State.layDocument, State.enter, if_neg hstyle.width_ne]
        rfl
      refine ⟨{ st with level := Int.fdiv 0 style.width }, st, [[]], [], ?_, rfl, rfl, rfl, rfl⟩
      simp only [hempty]
      rfl
  | cons line rest =>
      rw [hselected] at hlines hfree hfirst
      obtain ⟨ended, others, hline, hrest, hended⟩ := List.forall₂_cons_right_iff.1 hlines
      have hink : line.all isBlank = false := hfirst line rfl
      obtain ⟨out, hout, -⟩ := State.layDocument_ok hstyle st hfree
      have hsame : st.layDocument style ended others = st.layDocument style line rest :=
        State.layDocument_lineEnd style st hline hink hrest
      rw [hended]
      simp only [hsame]
      refine ⟨_, _, _, _, by rw [hout]; rfl, by rw [hout]; rfl, join_printed out, rfl, rfl⟩

/-- **The command prints the layout of its text.** For a text, read from a file or from the
input, with no other line break than `\n`, and any lines of it of which the first is not blank:
the command prints the layout of those lines of the text and one line end, warns of as many closing
words, and leaves the same blocks open, from whatever state it starts. -/
theorem print_eq_layText (width : Int) (hwidth : 1 ≤ width) (separate : Bool) (mode : Int)
    (st : State) (fs : Files) (input : List Char) (name : String) (text : List Char)
    (hread : readText fs input name = .ok text) (hbreaks : PlainBreaks text) (start : Int)
    (stop : Option Int)
    (hfirst : ∀ l ∈ (selection start stop (splitLines text)).head?, l.all isBlank = false) :
    ∃ st₁ st₂ laid, st.layText ⟨width, separate, .ofInt mode⟩ text start stop = (st₁, .ok laid) ∧
      print fs input ⟨width, separate, .ofInt mode⟩ st name start stop =
        (st₂, { output := String.ofList laid ++ "\n",
                errors := warnings (st₁.excessEnds - st.excessEnds) }) ∧
      st₂.blocks = st₁.blocks := by
  have hstyle := Style.proper_ofInt (show width ≠ 0 by omega) separate mode
  obtain ⟨st₂, st₁, out, laid, hfile, htext, hprinted, hblocks, hexcess⟩ :=
    layFile_eq_layText hstyle st hbreaks start stop hfirst
  refine ⟨st₁, st₂, laid, htext, ?_, hblocks⟩
  simp only [print, hread, hfile, hprinted, hexcess]

/-- A literal before a line end, a closing word in excess with a blank after it, and a matrix over
two lines with a comment in it. -/
def inputText : List Char := "x='a'\nend \n y=[1,2 % two\n3]\n\n".toList

theorem print_eq_layText_input :
    PlainBreaks inputText ∧
      (selection 1 none (splitLines inputText)).head? = some "x='a'".toList ∧
      ∃ st₁ st₂ laid, ({} : State).layText ⟨3, true, .ofInt 1⟩ inputText 1 none = (st₁, .ok laid) ∧
        print {} inputText ⟨3, true, .ofInt 1⟩ {} "-" 1 none =
          (st₂, { output := String.ofList laid ++ "\n",
                  errors := warnings (st₁.excessEnds - 0) }) ∧
        st₂.blocks = st₁.blocks := by
  have hbreaks : PlainBreaks inputText := by decide +kernel
  have hfirst : (selection 1 none (splitLines inputText)).head? = some "x='a'".toList := by
    decide +kernel
  refine ⟨hbreaks, hfirst, ?_⟩
  apply print_eq_layText 3 (by decide) true 1 {} {} inputText "-" inputText rfl hbreaks 1 none
  intro l hl
  rw [hfirst] at hl
  cases hl
  decide

end Pcode.Command.Format
