import Pcode.Proofs.Indent.Bare
import Pcode.Proofs.Spacing.Lasting

set_option autoImplicit false

/-! # A line as it is written

A line that lasts is written with its segments spaced, without the blanks at its end and behind
other text: the blanks of its level, or those and a keyword (`QuotedLine.written`). That is a line
with the same literals again.

Main statements: what is read of it besides its spacing is what is read of the line, namely its
first word (`QuotedLine.Lasting.firstWord_trim_format`) and whether there is a continuation mark in
its code (`QuotedLine.Lasting.goesOn_written`). -/

namespace Pcode.Text

/-! ## First words -/

theorem firstWord_cons_of_word {c : Char} (hc : isWord c = true) (s : List Char) :
    firstWord (c :: s) = c :: firstWord s := by
  rw [firstWord, List.takeWhile_cons_of_pos hc, firstWord]

theorem firstWord_eq_nil {s : List Char} (h : ∀ c ∈ s.head?, isWord c = false) :
    firstWord s = [] := by
  cases s with
  | nil => rfl
  | cons c s => simp [firstWord, h c rfl]

/-- A word at the start of a text is at its first place, with no gap in front. -/
theorem isWord_head_iff {s : List Char} :
    (∃ c ∈ s.head?, isWord c = true) ↔ inkAt isWord 0 s = true ∧ gapAt 0 s = false := by
  cases s with
  | nil => simp [inkAt]
  | cons c s =>
      cases hblank : isBlank c with
      | true =>
          simp [isWord_of_isBlank hblank, gapAt, hblank]
      | false =>
          simp [inkAt, ink_cons_of_ink hblank, gapAt, hblank]

theorem isWord_head_congr {s t : List Char} (hink : ink s = ink t)
    (hgap : inkAt isWord 0 s = true → gapAt 0 s = gapAt 0 t) :
    (∃ c ∈ s.head?, isWord c = true) ↔ ∃ c ∈ t.head?, isWord c = true := by
  rw [isWord_head_iff, isWord_head_iff, ← inkAt_of_ink_eq hink]
  exact and_congr_right fun hfirst => by rw [hgap hfirst]

/-- The first word of a text depends on its ink and on the gaps between characters of words. -/
theorem firstWord_congr {s t : List Char} (hink : ink s = ink t)
    (hgap : ∀ j, inkAt isWord j s = true → (0 < j → inkAt isWord (j - 1) s = true) →
      gapAt j s = gapAt j t) : firstWord s = firstWord t := by
  induction s generalizing t with
  | nil =>
      have hblank : t.all isBlank = true := by rw [← ink_eq_nil_iff, ← hink, ink_nil]
      rw [firstWord_eq_nil (s := t) fun c hc =>
        isWord_of_isBlank (List.all_eq_true.1 hblank c (List.mem_of_mem_head? hc))]
      rfl
  | cons c s ih =>
      -- a word stands at the start of both texts or of none
      have hstart := isWord_head_congr hink fun hfirst =>
        hgap 0 hfirst fun hpos => absurd hpos (Nat.lt_irrefl 0)
      by_cases hword : isWord c = true
      · obtain ⟨d, hd, hother⟩ := hstart.1 ⟨c, rfl, hword⟩
        obtain ⟨t, rfl⟩ := List.head?_eq_some_iff.1 hd
        have hc := isBlank_of_isWord hword
        rw [ink_cons_of_ink hc, ink_cons_of_ink (isBlank_of_isWord hother)] at hink
        obtain ⟨rfl, hrest⟩ := List.cons.inj hink
        have hshift : ∀ (p : Char → Bool) (j : Nat), inkAt p (j + 1) (c :: s) = inkAt p j s :=
          fun p j => by rw [inkAt, inkAt, ink_cons_of_ink hc, List.getElem?_cons_succ]
        rw [firstWord_cons_of_word hword, firstWord_cons_of_word hword,
          ih hrest fun j hj hbefore => ?_]
        have hplace := hgap (j + 1) (by rw [hshift, hj]) fun _ => ?_
        · rwa [gapAt, gapAt, past_cons_of_ink hc, past_cons_of_ink hc] at hplace
        · cases j with
          | zero => exact (isWord_head_iff.1 ⟨c, rfl, hword⟩).1
          | succ j =>
              rw [Nat.add_sub_cancel, hshift]
              exact hbefore (Nat.succ_pos j)
      · have hnone : ¬∃ d ∈ t.head?, isWord d = true := hstart.not.1 (by simpa using hword)
        rw [firstWord_eq_nil (s := c :: s) (by simpa using hword),
          firstWord_eq_nil (s := t) (by simpa using hnone)]

theorem firstWord_trimEnd (s : List Char) : firstWord (trimEnd s) = firstWord s := by
  apply firstWord_congr (ink_trimEnd s)
  intro j hword _
  have hlt := lt_of_inkAt hword
  rw [ink_trimEnd] at hlt
  exact gapAt_trimEnd hlt

theorem firstWord_append {s t : List Char} (ht : ∀ c ∈ t.head?, isWord c = false) :
    firstWord (s ++ t) = firstWord s := by
  induction s with
  | nil => exact firstWord_eq_nil ht
  | cons c s ih =>
      cases hc : isWord c with
      | true => rw [List.cons_append, firstWord_cons_of_word hc, firstWord_cons_of_word hc, ih]
      | false =>
          rw [firstWord_eq_nil (s := c :: s) (by simpa using hc),
            firstWord_eq_nil (s := c :: s ++ t) (by simpa using hc)]

end Pcode.Text

namespace Pcode.Indent

open Pcode.Text

/-! ## Rows of dots -/

theorem hasDots_append_cons {c : Char} (hc : c ≠ '.') (s t : List Char) :
    hasDots (s ++ c :: t) = (hasDots s || hasDots t) := by
  have hnot : c ∉ "...".toList := by simpa using hc
  cases hparts : hasDots s || hasDots t with
  | false =>
      rw [Bool.or_eq_false_iff, Bool.eq_false_iff, Bool.eq_false_iff, ne_eq, ne_eq, hasDots_iff,
        hasDots_iff] at hparts
      exact hasDots_eq_false (not_infix_append_cons hnot hparts.1 hparts.2)
  | true =>
      rw [Bool.or_eq_true, hasDots_iff, hasDots_iff] at hparts
      rw [hasDots_iff]
      rcases hparts with hs | ht
      · exact hs.trans (List.prefix_append s _).isInfix
      · exact ht.trans ((List.suffix_cons c t).trans (List.suffix_append s _)).isInfix

theorem hasDots_append_of_not_mem {b : List Char} (hb : '.' ∉ b) (s : List Char) :
    hasDots (b ++ s) = hasDots s := by
  induction b with
  | nil => rfl
  | cons c b ih =>
      have hc : c ≠ '.' := fun heq => hb (heq ▸ List.mem_cons_self)
      rw [List.cons_append, ← List.nil_append (c :: (b ++ s)), hasDots_append_cons hc,
        ih fun hmem => hb (List.mem_cons_of_mem c hmem)]
      rfl

/-- Blanks at the ends of a text make no difference. -/
theorem hasDots_trim (s : List Char) : hasDots (trim s) = hasDots s := by
  have hblank : ∀ b : List Char, b.all isBlank = true → '.' ∉ b := fun b hb hmem =>
    absurd (List.all_eq_true.1 hb _ hmem) (by decide)
  have hskip : hasDots (skipBlanks s) = hasDots s := by
    have hparts : s = s.takeWhile isBlank ++ skipBlanks s := List.takeWhile_append_dropWhile.symm
    rw [hparts, hasDots_append_of_not_mem, ← hparts]
    exact hblank _ (List.all_eq_true.2 fun c hc => List.mem_takeWhile_imp hc)
  obtain ⟨b, hb, hall⟩ := exists_trimEnd_append (skipBlanks s)
  rw [← hskip, trim]
  nth_rw 2 [hb]
  cases b with
  | nil => rw [List.append_nil]
  | cons c b =>
      have hdot := hblank _ hall
      have hrest := hasDots_append_of_not_mem (fun hmem => hdot (List.mem_cons_of_mem c hmem)) []
      rw [List.append_nil] at hrest
      rw [hasDots_append_cons fun heq => hdot (heq ▸ List.mem_cons_self), hrest]
      exact (Bool.or_false _).symm

end Pcode.Indent

namespace Pcode.Spacing

open Pcode.Text

/-! ## Code -/

section

variable {s : List Char}

/-- Between characters of words spacing changes no gap. -/
theorem Clear.gapAt_format_between (hs : Clear s) {j : Nat} (hprev : inkAt isWord j s = true)
    (hword : inkAt isWord (j + 1) s = true) : gapAt (j + 1) (format s) = gapAt (j + 1) s := by
  refine hs.gapAt_format (j + 1) ⟨fun _ => ?_, ?_, fun hdot => ?_⟩
  · by_contra habsorbs
    rw [inkAt_eq_false (fun c => isWord_of_absorbsBehind) (by simpa using habsorbs)] at hprev
    cases hprev
  · by_contra habsorbs
    rw [inkAt_eq_false (fun c => isWord_of_absorbsBefore) (by simpa using habsorbs)] at hword
    cases hword
  · rw [inkAt_eq_false (fun c hc => by rw [beq_iff_eq.1 hc]; decide) hdot] at hword
    cases hword

theorem Docile.gapAt_format_between (hs : Docile s) {j : Nat} (hprev : inkAt isWord j s = true)
    (hword : inkAt isWord (j + 1) s = true) : gapAt (j + 1) (format s) = gapAt (j + 1) s := by
  cases hm : isMarked s with
  | false =>
      have htame := hs.tame
      rw [filled_of_not hm] at htame
      exact htame.toClear.gapAt_format_between hprev hword
  | true =>
      obtain ⟨i, hi⟩ := exists_dotted hm
      -- no character of a word is behind the beginning of the mark
      have hlt : j + 1 < i.length := by
        by_contra hge
        obtain ⟨c, hc, hcword⟩ := inkAt_iff.1 hword
        rw [hi.mark, List.getElem?_append_right (by omega)] at hc
        have hdots : ['.', '.', '.'].all (fun c => !isWord c) = true := by decide
        have hdot := List.all_eq_true.1 hdots c (List.mem_of_getElem? hc)
        rw [hcword] at hdot
        cases hdot
      rw [(hs.marked hi).gap _ hlt, hi.gap _ hlt]
      have hsame : ∀ k, k < i.length → inkAt isWord k (filled s) = inkAt isWord k s := by
        intro k hk
        rw [inkAt, inkAt, hi.name, hi.mark, List.getElem?_append_left hk,
          List.getElem?_append_left hk]
      exact hs.tame.toClear.gapAt_format_between (by rw [hsame j (by omega), hprev])
        (by rw [hsame _ hlt, hword])

/-- Spacing leaves the first word alone. -/
theorem Docile.firstWord_trim_format (hs : Docile s) :
    firstWord (trim (format s)) = firstWord (Text.skipBlanks s) := by
  have hink : ink (trim (format s)) = ink s := by rw [(Respaced.trim _).ink_eq, ink_format hs.code]
  apply firstWord_congr
  · rw [hink, ink_skipBlanks]
  · intro j hword hbefore
    rw [inkAt_of_ink_eq hink] at hword
    have hlt := lt_of_inkAt hword
    cases j with
    | zero => rw [gapAt_trim_end (Or.inl rfl), gapAt_zero_skipBlanks]
    | succ j =>
        have hprev := hbefore (Nat.succ_pos j)
        rw [inkAt_of_ink_eq hink, Nat.add_sub_cancel] at hprev
        rw [gapAt_trim (Nat.succ_pos j) (by rwa [ink_format hs.code]), hs.gapAt_format_between hprev
          hword, gapAt_skipBlanks]

/-- The only row of dots in docile code is its mark. -/
theorem Docile.infix_dots_iff (hs : Docile s) : ['.', '.', '.'] <:+: s ↔ isMarked s = true := by
  cases hm : isMarked s with
  | false =>
      have htame := hs.tame
      rw [filled_of_not hm] at htame
      exact iff_of_false htame.toClear.dots.not_dots (by simp)
  | true =>
      obtain ⟨u, b, hu, -⟩ := exists_of_isMarked hm
      exact iff_of_true ⟨u, b, by rw [hu, List.append_assoc]⟩ rfl

/-- Spacing keeps the mark. -/
theorem Docile.infix_dots_format (hs : Docile s) :
    ['.', '.', '.'] <:+: format s ↔ ['.', '.', '.'] <:+: s := by
  rw [hs.infix_dots_iff]
  cases hm : isMarked s with
  | false =>
      have htame := hs.tame
      rw [filled_of_not hm] at htame
      have hdots := htame.toClear.dots
      rw [Lacks, ← ink_format hs.code] at hdots
      exact iff_of_false (Lacks.not_dots hdots) (by simp)
  | true =>
      obtain ⟨i, hi⟩ := exists_dotted hm
      exact iff_of_true ((hs.marked hi).infix_dots (by rw [ink_format hs.code, hi.mark])) rfl

end

namespace QuotedLine

open Pcode.Indent (hasDots hasDots_iff hasDots_trim hasDots_append_cons hasDots_append_of_not_mem)

variable {line : QuotedLine}

/-! ## The first word of a line -/

/-- The first word of a line stands in its first segment. -/
theorem firstWord_skipBlanks_text (line : QuotedLine) :
    firstWord (skipBlanks line.text) = firstWord (skipBlanks line.first.text) := by
  rw [skipBlanks_text]
  apply firstWord_append
  have hquote : ∀ d, isWord (quoteOf d) = false := by decide
  intro c hc
  cases hpieces : line.pieces with
  | cons p v =>
      rw [rest, hpieces] at hc
      obtain rfl : quoteOf p.1.double = c := by simpa [Literal.text] using hc
      exact hquote _
  | nil =>
      cases hr : line.remark with
      | none => simp [rest, ending, hpieces, hr] at hc
      | some r =>
          obtain rfl : '%' = c := by simpa [rest, ending, hpieces, hr] using hc
          decide

theorem Lasting.firstWord_trim_format (h : line.Lasting) :
    firstWord (trim (format line.text)) = firstWord (skipBlanks line.text) := by
  have hfirst := (forall_mem_segments.1 (docile_closed h.docile)).1
  have hclosed : trim line.closed.first.text = trim line.first.text :=
    (List.cons.inj line.trims_closed).1
  rw [trim, h.skipBlanks_format_text, firstWord_trimEnd, firstWord_skipBlanks_text,
    ← firstWord_trimEnd, line.firstWord_skipBlanks_text, ← firstWord_trimEnd
      (skipBlanks line.first.text)]
  change firstWord (trim (format line.closed.first.text)) = firstWord (trim line.first.text)
  rw [hfirst.firstWord_trim_format, ← hclosed, trim, firstWord_trimEnd]

/-! ## What is written -/

/-- What is written of the line behind other text. -/
def written (line : QuotedLine) (u : List Char) (hu : ∀ c ∈ ['\'', '"', '%', '\n'], c ∉ u) :
    QuotedLine :=
  (line.closed.spaced.fronted u hu).trimmed

section

variable {u : List Char} (hu : ∀ c ∈ ['\'', '"', '%', '\n'], c ∉ u)

theorem ink_code_written (line : QuotedLine) :
    ink (line.written u hu).code = ink u ++ ink line.code := by
  rw [written, ink_code_trimmed, ink_code_fronted, ink_code_spaced]

namespace Lasting

variable (h : line.Lasting)

include h

theorem text_written : (line.written u hu).text = trimEnd (u ++ skipBlanks (format line.text)) := by
  rw [written, text_trimmed, text_fronted, h.skipBlanks_format_text]

theorem proper_written (hlast : ∀ c ∈ u.getLast?, isBeforeLiteral c = true) :
    (line.written u hu).Proper :=
  (h.proper_again.fronted hu fun _ _ => hlast).trimmed

theorem firm_written : (line.written u hu).Firm := (h.firm.again.fronted hu).trimmed

theorem single_written : (line.written u hu).Single :=
  (show (line.closed.spaced.fronted u hu).Single from h.single_again).trimmed

end Lasting

end

/-! ## Continuation marks -/

/-- There is a continuation mark in the code of the line. -/
def goesOn (line : QuotedLine) : Bool := line.trims.any hasDots

theorem joined_cons (s : Segment) (p : Literal × Segment) (v : List (Literal × Segment))
    (r : Option Remark) :
    joined ⟨s, p :: v, r⟩ = s.text ++ ' ' :: joined ⟨p.2, v, r⟩ := by
  simp [joined]

theorem hasDots_joined (line : QuotedLine) : hasDots line.joined = line.goesOn := by
  obtain ⟨s, v, r⟩ := line
  induction v generalizing s with
  | nil =>
      have hjoined : joined ⟨s, [], r⟩ = s.text := List.append_nil _
      rw [hjoined, ← hasDots_trim]
      exact (Bool.or_false _).symm
  | cons p v ih =>
      rw [joined_cons, hasDots_append_cons (by decide), ih p.2, ← hasDots_trim s.text]
      rfl

/-- The code of a firm line goes on if one of its segments does. -/
theorem Proper.hasDots_codeOf (hproper : line.Proper) (hfirm : line.Firm) (hsingle : line.Single) :
    hasDots (codeOf line.text) = line.goesOn := by
  rw [← hasDots_trim, hproper.trim_codeOf_text hfirm hsingle, hasDots_trim, hasDots_joined]

theorem goesOn_fronted {u : List Char} (hu : ∀ c ∈ ['\'', '"', '%', '\n'], c ∉ u) (hdot : '.' ∉ u)
    (line : QuotedLine) : (line.fronted u hu).goesOn = line.goesOn := by
  have hfirst :
      hasDots (trim (u ++ skipBlanks line.first.text)) = hasDots (trim line.first.text) := by
    rw [hasDots_trim, hasDots_append_of_not_mem hdot, ← hasDots_trim, trim_skipBlanks]
  exact congrArg (· || _) hfirst

theorem Lasting.goesOn_written (h : line.Lasting) {u : List Char}
    (hu : ∀ c ∈ ['\'', '"', '%', '\n'], c ∉ u) (hdot : '.' ∉ u) :
    (line.written u hu).goesOn = line.goesOn := by
  have hspaced : line.closed.spaced.goesOn = line.closed.goesOn := by
    have hsegments : line.closed.spaced.segments = line.closed.segments.map Segment.spaced := by
      simp [segments, spaced]
    have htrims : line.closed.spaced.trims.map hasDots = line.closed.trims.map hasDots := by
      rw [trims, trims, hsegments, List.map_map, List.map_map, List.map_map]
      refine List.map_congr_left fun s hs => ?_
      show hasDots (trim (format s.text)) = hasDots (trim s.text)
      rw [hasDots_trim, hasDots_trim, Bool.eq_iff_iff, hasDots_iff, hasDots_iff]
      exact (docile_closed h.docile s hs).infix_dots_format
    have hany : ∀ l : QuotedLine, l.goesOn = (l.trims.map hasDots).any id := fun l => by
      rw [goesOn, List.any_map]
      rfl
    rw [hany, hany, htrims]
  rw [written, goesOn, trims_trimmed]
  exact (goesOn_fronted hu hdot _).trans
    (hspaced.trans (congrArg (List.any · hasDots) line.trims_closed))

/-! ## Columns -/

theorem trimEnd_joined_trimmed (line : QuotedLine) :
    trimEnd line.trimmed.joined = trimEnd line.joined := by
  have hpad : ∀ (s : Segment) (v : List (Literal × Segment)) (r : Option Remark),
      trimEnd (joined ⟨(mapLast Segment.trimEnd s v).1, (mapLast Segment.trimEnd s v).2, r⟩) =
        trimEnd (joined ⟨s, v, r⟩) := by
    intro s v r
    induction v generalizing s with
    | nil =>
        have hjoined : ∀ t : Segment, joined ⟨t, [], r⟩ = t.text := fun t => List.append_nil _
        rw [mapLast, hjoined, hjoined]
        exact trimEnd_trimEnd s.text
    | cons p v ih =>
        rw [mapLast, joined_cons, joined_cons]
        exact trimEnd_append_congr (trimEnd_append_congr (ih p.2) [' ']) s.text
  rw [trimmed]
  split
  · exact hpad _ _ _
  · rfl

/-- Blanks in front of a line are blanks in front of its code. -/
theorem trim_joined_fronted {u : List Char} (hu : ∀ c ∈ ['\'', '"', '%', '\n'], c ∉ u)
    (hblank : u.all isBlank = true) (line : QuotedLine) :
    trim (line.fronted u hu).joined = trim line.joined := by
  refine congrArg trimEnd ?_
  show skipBlanks (u ++ skipBlanks line.first.text ++ _) = skipBlanks (line.first.text ++ _)
  apply skipBlanks_append_congr
  rw [skipBlanks_append_of_blank hblank, skipBlanks_skipBlanks]

/-- The code of what is written, but for blanks at its ends. -/
theorem trim_joined_written (line : QuotedLine) (n : Nat) :
    trim (line.written (List.replicate n ' ') (free_replicate n)).joined =
      trim line.closed.spaced.joined := by
  rw [← trim_trimEnd, written, trimEnd_joined_trimmed, trim_trimEnd,
    trim_joined_fronted _ (all_isBlank_replicate n)]

end QuotedLine

end Pcode.Spacing
