import Pcode.Proofs.Spacing.Bracket

set_option autoImplicit false

/-! # Spacing a text again

A text whose blanks are spaces, one in each gap, is given by its ink and its gaps
(`Tight.eq_of_gapAt`). So a text that has been spaced is left alone by a second pass if it is alike
to the text it came from, and that is a matter of the signs of words only: each of them is found
again unless the first pass has taken the gap in front of it away.

Main statements: tame code that carries the spacing of a text is spaced with the same gaps if no
sign in it wavers (`Carries.gapAt_format_eq`), and only if none does (`Carries.not_wavers`). -/

namespace Pcode.Text

/-! ## Blanks that are spaces -/

/-- The blanks of the text are spaces. -/
def Spaces (s : List Char) : Prop := ∀ c ∈ s, isBlank c = true → c = ' '

instance (s : List Char) : Decidable (Spaces s) :=
  -- by going through the text, not through all characters
  List.decidableBAll (fun c => isBlank c = true → c = ' ') s

theorem Spaces.respaced {s t : List Char} (hs : Spaces s) (h : Respaced s t) : Spaces t := by
  intro c hc hblank
  rcases h.mem c hc with hmem | hspace
  · exact hs c hmem hblank
  · exact hspace

theorem Spaces.tail {c : Char} {s : List Char} (hs : Spaces (c :: s)) : Spaces s :=
  fun d hd => hs d (List.mem_cons_of_mem c hd)

/-! ## Gaps of a trimmed text -/

section

variable {s : List Char} {k : Nat}

theorem gapAt_trimEnd (hk : k < (ink s).length) : gapAt k (trimEnd s) = gapAt k s := by
  obtain ⟨b, hb, -⟩ := exists_trimEnd_append s
  have happend := gapAt_append_of_lt (s := trimEnd s) (by rwa [ink_trimEnd]) b
  rw [← happend, ← hb]

theorem gapAt_trimEnd_end (s : List Char) : gapAt (ink s).length (trimEnd s) = false := by
  by_cases hs : s.all isBlank = true
  · rw [(trimEnd_eq_nil_iff s).2 hs, gapAt_nil]
  · obtain ⟨v, b, rfl, ⟨u, c, rfl, hc⟩, hb⟩ :=
      Spacing.exists_endsInk_append (by simpa using hs)
    have hone : trimEnd [c] = [c] := trimEnd_cons_of_ink hc []
    have hlength : (ink (u ++ [c] ++ b)).length = (ink u).length + (0 + 1) := by
      rw [ink_append, ink_append, ink_cons_of_ink hc, (ink_eq_nil_iff b).2 hb]
      simp
    rw [trimEnd_append_of_blank hb, trimEnd_append_of_ink (by simp [hc]), hone, hlength,
      gapAt_append_of_gt]
    exact gapAt_of_ink (by simpa using hc) _

theorem gapAt_trim (hpos : 0 < k) (hk : k < (ink s).length) : gapAt k (trim s) = gapAt k s := by
  obtain ⟨j, rfl⟩ : ∃ j, k = j + 1 := ⟨k - 1, by omega⟩
  rw [trim_eq_skipBlanks_trimEnd, gapAt_skipBlanks, gapAt_trimEnd hk]

/-- A trimmed text has no gap at its ends. -/
theorem gapAt_trim_end (h : k = 0 ∨ (ink s).length ≤ k) : gapAt k (trim s) = false := by
  rcases Nat.eq_zero_or_pos k with rfl | hpos
  · rw [trim_eq_skipBlanks_trimEnd, gapAt_zero_skipBlanks]
  · obtain ⟨j, rfl⟩ : ∃ j, k = j + 1 := ⟨k - 1, by omega⟩
    rw [trim_eq_skipBlanks_trimEnd, gapAt_skipBlanks]
    rcases Nat.lt_or_ge (ink s).length (j + 1) with hgt | hle
    · exact gapAt_of_gt (by rwa [ink_trimEnd])
    · rw [show j + 1 = (ink s).length by omega, gapAt_trimEnd_end]

end

end Pcode.Text

namespace Pcode.Spacing

open Pcode.Text

/-! ## A text by its ink and its gaps -/

theorem Tight.tail {c : Char} {s : List Char} (h : Tight (c :: s)) : Tight s :=
  List.IsChain.tail h

/-- In a tight text no gap follows a blank. -/
theorem Tight.gapAt_zero_tail {c : Char} {s : List Char} (h : Tight (c :: s))
    (hc : isBlank c = true) : gapAt 0 s = false := by
  cases s with
  | nil => rfl
  | cons d s =>
      have hpair := tight_iff.1 h [] s c d rfl
      rw [hc, Bool.true_eq_false, false_or] at hpair
      simp [gapAt, hpair]

theorem Tight.skipBlanks {s : List Char} (h : Tight s) : Tight (skipBlanks s) :=
  List.IsChain.suffix h (List.dropWhile_suffix isBlank)

/-- **The ink and the gaps make the text**, if all blanks are spaces and no two stand side by
side. -/
theorem Tight.eq_of_gapAt {s t : List Char} (hs : Tight s) (ht : Tight t) (hsp : Spaces s)
    (htp : Spaces t) (hink : ink s = ink t) (hgap : ∀ k, gapAt k s = gapAt k t) : s = t := by
  induction s generalizing t with
  | nil =>
      have hblank : t.all isBlank = true := by rw [← ink_eq_nil_iff, ← hink, ink_nil]
      have hzero := hgap 0
      rw [gapAt_nil, gapAt_zero_of_blank hblank] at hzero
      cases t with
      | nil => rfl
      | cons d t => cases hzero
  | cons c s ih =>
      have hzero := hgap 0
      by_cases hc : isBlank c = true
      · -- both begin with a space
        obtain ⟨d, t, rfl, hd⟩ : ∃ d t', t = d :: t' ∧ isBlank d = true := by
          cases t with
          | nil => simp [gapAt, hc] at hzero
          | cons d t => exact ⟨d, t, rfl, by simpa [gapAt, hc] using hzero.symm⟩
        rw [hsp c (by simp) hc, htp d (by simp) hd]
        rw [ink_cons_of_isBlank hc, ink_cons_of_isBlank hd] at hink
        refine congrArg (' ' :: ·) (ih hs.tail ht.tail hsp.tail htp.tail hink fun k => ?_)
        cases k with
        | zero => rw [hs.gapAt_zero_tail hc, ht.gapAt_zero_tail hd]
        | succ k =>
            have hplace := hgap (k + 1)
            rwa [gapAt, gapAt, past_cons_of_blank hc, past_cons_of_blank hd] at hplace
      · have hc : isBlank c = false := by simpa using hc
        obtain ⟨d, t, rfl, hd⟩ : ∃ d t', t = d :: t' ∧ isBlank d = false := by
          cases t with
          | nil => simp [ink, hc] at hink
          | cons d t => exact ⟨d, t, rfl, by simpa [gapAt, hc] using hzero.symm⟩
        rw [ink_cons_of_ink hc, ink_cons_of_ink hd] at hink
        obtain ⟨rfl, hrest⟩ := List.cons.inj hink
        refine congrArg (c :: ·) (ih hs.tail ht.tail hsp.tail htp.tail hrest fun k => ?_)
        have hplace := hgap (k + 1)
        rwa [gapAt, gapAt, past_cons_of_ink hc, past_cons_of_ink hd] at hplace

/-! ## Texts with the same ink -/

section

variable {s t : List Char}

/-- The signs of words depend on the gaps in front of ink. At the start of a text that begins with a
word the gap does not matter. -/
theorem unaryAt_congr (hink : ink s = ink t)
    (hgap : ∀ j, 0 < j → j < (ink s).length → gapAt j s = gapAt j t)
    (hstart : inkAt isSign 0 s = false ∨ gapAt 0 s = gapAt 0 t) (k : Nat) :
    unaryAt k s = unaryAt k t := by
  rw [unaryAt, unaryAt, ← inkAt_of_ink_eq hink, ← inkAt_of_ink_eq hink, ← inkAt_of_ink_eq hink]
  cases hword : inkAt isWord (k + 1) s with
  | false => simp only [Bool.and_false, Bool.false_and]
  | true =>
      have hlt := lt_of_inkAt hword
      rw [hgap (k + 1) (Nat.succ_pos k) hlt]
      rcases Nat.eq_zero_or_pos k with rfl | hpos
      · rcases hstart with hsign | hzero
        · simp only [hsign, Bool.false_and]
        · rw [hzero]
      · rw [hgap k hpos (by omega)]

theorem wavers_congr (hink : ink s = ink t) {k : Nat} (hunary : unaryAt k s = unaryAt k t) :
    wavers k s = wavers k t := by
  simp only [wavers, hunary, inkAt_of_ink_eq hink]

/-- Where a sign wavers no operand is called for. -/
theorem inkAt_isBeforeSign_of_wavers {k : Nat} (h : wavers k s = true) :
    inkAt isBeforeSign (k - 1) s = false := by
  simp only [wavers, Bool.and_eq_true, Bool.or_eq_true] at h
  rcases h.2 with htight | ⟨-, hsign⟩
  · refine inkAt_eq_false (fun c hc => ?_) htight
    simp only [isTightened, Bool.or_eq_true, beq_iff_eq] at hc
    rcases hc with (rfl | rfl) | rfl <;> decide
  · refine inkAt_eq_false (fun c hc => ?_) hsign
    simp only [isSign, Bool.or_eq_true, beq_iff_eq] at hc
    rcases hc with rfl | rfl <;> decide

theorem Clear.of_ink_eq (hs : Clear s) (ht : Code t) (hink : ink s = ink t) : Clear t := by
  have hlacks : ∀ ps, Lacks ps s → Lacks ps t := fun ps h => by rwa [Lacks, ← hink]
  exact ⟨ht, hlacks _ hs.exponent, hlacks _ hs.quotient, hlacks _ hs.dots⟩

theorem Tame.of_unaryAt_eq (hs : Tame s) (ht : Code t) (hink : ink s = ink t)
    (hunary : ∀ k, unaryAt k s = unaryAt k t) : Tame t where
  toClear := hs.toClear.of_ink_eq ht hink
  marks := fun k hk => by
    rw [← hunary, ← inkAt_of_ink_eq hink]
    apply hs.marks
    rwa [crowded, hink]
  dotSign := by
    have hlacks := hs.dotSign
    rwa [Lacks, hink] at hlacks

/-! ## Blanks at the end -/

theorem trimEnd_format_trimEnd (hs : '\n' ∉ s) :
    trimEnd (format (trimEnd s)) = trimEnd (format s) := by
  obtain ⟨b, hb, hblank⟩ := exists_trimEnd_append s
  have hline : '\n' ∉ trimEnd s := (Respaced.trimEnd s).newline_not_mem hs
  have hsimilar := (similar_append (trimEnd s) b hline hblank).1
  rw [← hb] at hsimilar
  exact hsimilar.symm

theorem trim_format_trimEnd (hs : '\n' ∉ s) : trim (format (trimEnd s)) = trim (format s) := by
  rw [trim_eq_skipBlanks_trimEnd, trim_eq_skipBlanks_trimEnd, trimEnd_format_trimEnd hs]

section

variable (hs : Code s) (h : Respaced s t) (hspaces : Spaces s)

include hs h hspaces

/-- Two texts that come out with the same gaps come out the same; what becomes of the blanks in
front hangs on those that were there. -/
theorem skipBlanks_format_eq_of_gapAt
    (hgap : ∀ j, 0 < j → gapAt j (format t) = gapAt j (format s)) :
    skipBlanks (format t) = skipBlanks (format s) := by
  have ht : Code t := hs.respaced h
  have hspaced : ∀ u, Code u → Respaced s u → Spaces (skipBlanks (format u)) := fun u hu hsu =>
    hspaces.respaced
      ((hsu.trans (respaced_format hu.newline_not_mem)).trans (Respaced.skipBlanks _))
  refine (tight_format ht).skipBlanks.eq_of_gapAt (tight_format hs).skipBlanks (hspaced t ht h)
    (hspaced s hs (Respaced.refl s)) ?_ fun k => ?_
  · rw [ink_skipBlanks, ink_skipBlanks, ink_format ht, ink_format hs, h.ink_eq]
  · cases k with
    | zero => rw [gapAt_zero_skipBlanks, gapAt_zero_skipBlanks]
    | succ k => rw [gapAt_skipBlanks, gapAt_skipBlanks, hgap _ (Nat.succ_pos k)]

theorem format_eq_of_gapAt (hgap : ∀ j, gapAt j (format t) = gapAt j (format s)) :
    format t = format s := by
  have ht : Code t := hs.respaced h
  have hspaced : ∀ u, Code u → Respaced s u → Spaces (format u) := fun u hu hsu =>
    hspaces.respaced (hsu.trans (respaced_format hu.newline_not_mem))
  refine (tight_format ht).eq_of_gapAt (tight_format hs) (hspaced t ht h)
    (hspaced s hs (Respaced.refl s)) ?_ hgap
  rw [ink_format ht, ink_format hs, h.ink_eq]

end

/-! ## The second pass -/

/-- The text `t` carries the spacing of the text `s`: it has its ink, and between the ink the gaps
that spacing gives. What is known of its ends is what the second pass needs: the sign of a word that
begins the text has a gap in front of it again, a gap at the end is kept unless the ink takes it in,
and with `front` the gap at the start is the one that spacing gives. -/
structure Carries (front : Bool) (s t : List Char) : Prop where
  respaced : Respaced s t
  inner : ∀ j, 0 < j → j < (ink s).length → gapAt j t = gapAt j (format s)
  start : unaryAt 0 s = true → gapAt 0 t = true
  last : ink s ≠ [] → Plain (ink s).length s → gapAt (ink s).length t = gapAt (ink s).length s
  front : front = true → gapAt 0 t = gapAt 0 (format s)

namespace Carries

variable {front : Bool} (h : Carries front s t) (hs : Tame s)

include h

theorem ink_eq : ink s = ink t := h.respaced.ink_eq.symm

include hs

theorem code : Code t := hs.code.respaced h.respaced

/-- **The signs of words are found again**, if none wavers. -/
theorem unaryAt_eq (hsteady : ∀ j, wavers j s = false) (k : Nat) :
    unaryAt k s = unaryAt k t := by
  have hink := h.ink_eq
  by_cases hplace : inkAt isSign k s = true ∧ inkAt isWord (k + 1) s = true
  · obtain ⟨hsign, hword⟩ := hplace
    have hlt := lt_of_inkAt hword
    have hnext := h.inner (k + 1) (Nat.succ_pos k) hlt
    -- in front of the sign there is a gap again, or ink that calls for an operand
    have hfront : unaryAt k s = true →
        (gapAt k t || (decide (0 < k) && inkAt isBeforeSign (k - 1) t)) = true := by
      intro hunary
      rcases Nat.eq_zero_or_pos k with rfl | hpos
      · rw [h.start hunary]
        rfl
      · rw [h.inner k hpos (by omega), ← inkAt_of_ink_eq hink, decide_eq_true hpos, Bool.true_and]
        cases hbefore : inkAt isBeforeSign (k - 1) s with
        | true => rw [Bool.or_true]
        | false => rw [hs.toClear.gapAt_format_sign k hunary (hsteady k) hbefore, Bool.true_or]
    cases hunary : unaryAt k s with
    | true =>
        rw [unaryAt, ← inkAt_of_ink_eq hink, ← inkAt_of_ink_eq hink, hsign, hword, hnext,
          hs.toClear.gapAt_format_word k hunary, hfront hunary]
        rfl
    | false =>
        -- a sign that belongs to no word has been set apart from it
        rcases hs.toClear.gapAt_format_loose k hsign hword hunary with hgap | ⟨-, hcrowded⟩
        · rw [unaryAt, hnext, hgap, Bool.not_true, Bool.and_false, Bool.false_and]
        · rcases hs.marks k hcrowded with htrue | hnot
          · rw [hunary] at htrue
            cases htrue
          · rw [inkAt_eq_false (fun c => isNegation_of_isSign) hsign] at hnot
            cases hnot
  · have hnone : ∀ u, ink s = ink u → unaryAt k u = false := by
      intro u hu
      rw [unaryAt, ← inkAt_of_ink_eq hu, ← inkAt_of_ink_eq hu, Bool.eq_false_iff.2 (fun htrue =>
        hplace (by simpa using htrue) : (inkAt isSign k s && inkAt isWord (k + 1) s) ≠ true)]
      rfl
    rw [hnone s rfl, hnone t hink]

/-- So the text that has been spaced is alike to the one it came from. -/
theorem alike (hsteady : ∀ j, wavers j s = false) : Alike front s t where
  ink_eq := h.ink_eq
  gap := by
    intro k hk hplain
    rcases Nat.eq_zero_or_pos k with rfl | hpos
    · rw [h.front (hk.resolve_right (Nat.lt_irrefl 0)), hs.toClear.gapAt_format 0 hplain]
    · rcases Nat.lt_trichotomy k (ink s).length with hlt | rfl | hgt
      · rw [h.inner k hpos hlt, hs.toClear.gapAt_format k hplain]
      · rw [h.last (List.length_pos_iff.1 hpos) hplain]
      · rw [gapAt_of_gt hgt, gapAt_of_gt (by rwa [← h.ink_eq])]
  unary := h.unaryAt_eq hs hsteady

/-- **Spaced again, tame code keeps its gaps** if no sign in it wavers. -/
theorem gapAt_format_eq (hsteady : ∀ j, wavers j s = false) {j : Nat} (hj : front = true ∨ 0 < j) :
    gapAt j (format t) = gapAt j (format s) := by
  have htame : Tame t := hs.of_unaryAt_eq (h.code hs) h.ink_eq (h.unaryAt_eq hs hsteady)
  exact (Alike.gapAt_format_of hs t front (Or.inr frontFree) htame (h.alike hs hsteady) j hj).symm

/-- A sign that wavers is set apart when the code is spaced again: where a second pass keeps the
gaps beside the signs of words, none does. -/
theorem not_wavers
    (hkept : ∀ j, unaryAt j s = true →
      (0 < j → gapAt j (format t) = gapAt j (format s)) ∧
        gapAt (j + 1) (format t) = gapAt (j + 1) (format s)) (j : Nat) :
    wavers j s = false := by
  have hink := h.ink_eq
  by_contra hwavers
  rw [Bool.not_eq_false] at hwavers
  have hunary := unaryAt_of_wavers hwavers
  have hword := inkAt_word_of_unaryAt hunary
  have hlt := lt_of_inkAt hword
  have hpos := pos_of_wavers hwavers
  -- nothing is written around the sign
  have hbefore : gapAt j (format s) = false := hs.toClear.gapAt_format_of_wavers j hwavers
  have hbehind : gapAt (j + 1) (format s) = false := hs.toClear.gapAt_format_word j hunary
  -- so the sign is no longer one of a word, and is set apart
  have hlost : unaryAt j t = false := by
    have hcalls := inkAt_isBeforeSign_of_wavers hwavers
    rw [unaryAt, h.inner j hpos (by omega), hbefore, ← inkAt_of_ink_eq hink isBeforeSign, hcalls,
      Bool.and_false, Bool.or_false, Bool.and_false]
  have hclear : Clear t := hs.toClear.of_ink_eq (h.code hs) hink
  have hsign : inkAt isSign j t = true := by
    rw [← inkAt_of_ink_eq hink]
    exact inkAt_sign_of_unaryAt hunary
  rcases hclear.gapAt_format_loose j hsign
    (by rwa [← inkAt_of_ink_eq hink]) hlost with hgap | ⟨hgap, -⟩
  · rw [(hkept j hunary).2, hbehind] at hgap
    cases hgap
  · rw [(hkept j hunary).1 hpos, hbefore] at hgap
    cases hgap

end Carries

/-- A text that has been spaced carries its spacing. -/
theorem carries_format (hs : Clear s) : Carries true s (format s) where
  respaced := respaced_format hs.code.newline_not_mem
  inner := fun _ _ _ => rfl
  start := hs.gapAt_format_start
  last := fun _ => hs.gapAt_format _
  front := fun _ => rfl

/-- So it does behind other blanks, unless it begins with the sign of a word. -/
theorem Carries.behind {front : Bool} (h : Carries front s t) (hstart : unaryAt 0 s = false)
    (n : Nat) :
    Carries false s (List.replicate n ' ' ++ skipBlanks t) where
  respaced := (h.respaced.trans (Respaced.skipBlanks t)).pad_left n
  inner := by
    intro j hj hlt
    obtain ⟨i, rfl⟩ : ∃ i, j = i + 1 := ⟨j - 1, by omega⟩
    rw [gapAt, past_blank_append (all_isBlank_replicate n), ← h.inner _ hj hlt]
    exact gapAt_skipBlanks i t
  start := fun hunary => by
    rw [hstart] at hunary
    cases hunary
  last := by
    intro hne hplain
    obtain ⟨i, hi⟩ : ∃ i, (ink s).length = i + 1 :=
      ⟨(ink s).length - 1, by have := List.length_pos_iff.2 hne; omega⟩
    rw [← h.last hne hplain, hi, gapAt, past_blank_append (all_isBlank_replicate n)]
    exact gapAt_skipBlanks i t
  front := fun hfront => absurd hfront Bool.false_ne_true

end

end Pcode.Spacing
