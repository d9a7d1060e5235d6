import Pcode.Proofs.Spacing.Ellipsis
import Pcode.Proofs.Spacing.Segments

set_option autoImplicit false

/-! # Code that may go on

Code of a line may end with a continuation mark. What is said about spacing is then said of the code
with a name in place of the mark (`filled`), and handed over to the code itself: its blanks go where
they go in the other text (`Docile.marked`).

Main statements: such code, spaced once and written behind other blanks or with one blank at its
end, is spaced to the same text again if no sign in it wavers (`Relays.gapAt_format_eq`), and only
if none does (`Relays.not_wavers`). -/

namespace Pcode.Text

theorem gapAt_spaceEnd {s : List Char} {k : Nat} (hk : k < (ink s).length) :
    gapAt k (spaceEnd s) = gapAt k s := by
  rw [spaceEnd, gapAt_append_of_lt (by rwa [ink_trimEnd]), gapAt_trimEnd hk]

theorem gapAt_spaceEnd_end (s : List Char) : gapAt (ink s).length (spaceEnd s) = true := by
  have hend := gapAt_append_of_eq (trimEnd s) [' ']
  have hspace : gapAt 0 [' '] = true := by decide
  rw [ink_trimEnd, hspace, Bool.or_true] at hend
  exact hend

/-- In front of ink a number of spaces is a gap, unless it is none. -/
theorem gapAt_zero_replicate {s : List Char} (hs : BeginsInk s) (n : Nat) :
    gapAt 0 (List.replicate n ' ' ++ s) = decide (0 < n) := by
  cases n with
  | zero => exact gapAt_zero_of_beginsInk hs
  | succ n => rfl

end Pcode.Text

namespace Pcode.Spacing

open Pcode.Text

/-! ## A name for the mark -/

/-- The code ends with a continuation mark. -/
def isMarked (s : List Char) : Bool := ['.', '.', '.'].isSuffixOf (trimEnd s)

/-- The code with a name in place of a continuation mark at its end. -/
def filled (s : List Char) : List Char :=
  if isMarked s then (trimEnd s).take ((trimEnd s).length - 3) ++ [' ', 'x'] else s

theorem filled_of_not {s : List Char} (h : isMarked s = false) : filled s = s := by
  rw [filled, h, if_neg Bool.false_ne_true]

/-- Code with a mark at its end, taken apart. -/
theorem exists_of_isMarked {s : List Char} (h : isMarked s = true) :
    ∃ u b, s = u ++ (['.', '.', '.'] ++ b) ∧ b.all isBlank = true ∧
      trimEnd s = u ++ ['.', '.', '.'] ∧
      filled s = u ++ [' ', 'x'] := by
  obtain ⟨u, hu⟩ := List.isSuffixOf_iff_suffix.1 h
  obtain ⟨b, hb, hblank⟩ := exists_trimEnd_append s
  refine ⟨u, b, by rw [← List.append_assoc, hu, ← hb], hblank, hu.symm, ?_⟩
  rw [filled, h, if_pos rfl, ← hu, List.length_append]
  simp

theorem isMarked_of_eq {s u b : List Char} (hs : s = u ++ (['.', '.', '.'] ++ b))
    (hb : b.all isBlank = true) : isMarked s = true := by
  have htrim : trimEnd s = u ++ ['.', '.', '.'] := by
    rw [hs, ← List.append_assoc, trimEnd_append_of_blank hb,
      trimEnd_append_of_ink (show (['.', '.', '.'] : List Char).all isBlank = false by decide)]
    rfl
  rw [isMarked, htrim]
  exact List.isSuffixOf_iff_suffix.2 ⟨u, rfl⟩

/-- The mark and the name are what they are taken for. -/
theorem exists_dotted {s : List Char} (h : isMarked s = true) :
    ∃ i, Dotted i s (filled s) := by
  obtain ⟨u, b, hs, hb, -, hfilled⟩ := exists_of_isMarked h
  have hinner : ∀ j, gapAt (j + 1) (['.', '.', '.'] ++ b) = gapAt j ('.' :: '.' :: b) := fun j => by
    rw [gapAt, gapAt]
    exact congrArg (fun t : List Char => t.head?.any isBlank) (past_cons_of_ink (by decide) j _)
  have hend : gapAt (ink u).length (filled s) = true := by
    have hspace : gapAt 0 [' ', 'x'] = true := by decide
    rw [hfilled, gapAt_append_of_eq, hspace, Bool.or_true]
  refine ⟨ink u, ?_, ?_, fun j hj => ?_, ⟨?_, ?_⟩, Or.inl hend⟩
  · rw [hs, ink_append, ink_append, (ink_eq_nil_iff b).2 hb, List.append_nil]
    rfl
  · rw [hfilled, ink_append]
    rfl
  · rw [hfilled, gapAt_append_of_lt hj, hs, gapAt_append_of_lt hj]
  · rw [hs, gapAt_append_of_gt 0, hinner]
    rfl
  · rw [hs, gapAt_append_of_gt 1, hinner, gapAt, past_cons_of_ink (by decide)]
    rfl

/-- Both may be moved behind other blanks. -/
theorem Dotted.behind {i x y : List Char} (h : Dotted i x y) (n : Nat) :
    Dotted i (List.replicate n ' ' ++ skipBlanks x) (List.replicate n ' ' ++ skipBlanks y) := by
  have hbegins : ∀ u r, ink u = i ++ r → r ≠ [] → BeginsInk (skipBlanks u) := by
    intro u r hu hr
    apply beginsInk_skipBlanks
    rw [Bool.eq_false_iff, ne_eq, ← ink_eq_nil_iff, hu]
    simp [hr]
  have hgap : ∀ u j, gapAt (j + 1) (List.replicate n ' ' ++ skipBlanks u) = gapAt (j + 1) u :=
    fun u j => by
      rw [gapAt, past_blank_append (all_isBlank_replicate n)]
      exact gapAt_skipBlanks j u
  refine ⟨?_, ?_, fun j hj => ?_, ⟨?_, ?_⟩, ?_⟩
  · rw [ink_append, ink_replicate_space, ink_skipBlanks, List.nil_append, h.mark]
  · rw [ink_append, ink_replicate_space, ink_skipBlanks, List.nil_append, h.name]
  · cases j with
    | zero =>
        rw [gapAt_zero_replicate (hbegins x _ h.mark (by simp)),
          gapAt_zero_replicate (hbegins y _ h.name (by simp))]
    | succ j => rw [hgap, hgap, h.gap _ hj]
  · rw [hgap, h.joined.1]
  · rw [hgap, h.joined.2]
  · rcases Nat.eq_zero_or_pos i.length with hzero | hpos
    · rw [List.length_eq_zero_iff.1 hzero]
      exact Or.inr fun c hc => by cases hc
    · obtain ⟨m, hm⟩ : ∃ m, i.length = m + 1 := ⟨i.length - 1, by omega⟩
      refine h.loose.imp_left fun htrue => ?_
      rw [hm, hgap, ← hm, htrue]

/-- Code without a row of four dots that is tame once the mark at its end has a name. -/
structure Docile (s : List Char) : Prop where
  code : Code s
  tame : Tame (filled s)
  row : Lacks [(· == '.'), (· == '.'), (· == '.'), (· == '.')] s

theorem docile_iff {s : List Char} : Docile s ↔
    Code s ∧ Tame (filled s) ∧ Lacks [(· == '.'), (· == '.'), (· == '.'), (· == '.')] s :=
  ⟨fun h => ⟨h.code, h.tame, h.row⟩, fun h => ⟨h.1, h.2.1, h.2.2⟩⟩

instance (s : List Char) : Decidable (Docile s) := decidable_of_iff _ docile_iff.symm

/-- In front of the mark of docile code stands no dot. -/
theorem Docile.getLast?_ne {i s : List Char} (hs : Docile s) (h : ink s = i ++ ['.', '.', '.']) :
    i.getLast? ≠ some '.' := by
  intro hlast
  obtain ⟨u, rfl⟩ := List.getLast?_eq_some_iff.1 hlast
  have hfits := hs.row.fits_eq u.length
  rw [h, List.append_assoc, List.drop_left] at hfits
  cases hfits

theorem Docile.marked {i s : List Char} (hs : Docile s) (h : Dotted i s (filled s)) :
    Marked i (format s) (format (filled s)) :=
  h.marked hs.code hs.tame.toClear (hs.getLast?_ne h.mark)

/-- No sign belongs to the name. -/
theorem unaryAt_filled (s : List Char) (k : Nat) : unaryAt k (filled s) = unaryAt k s := by
  cases hs : isMarked s with
  | false => rw [filled_of_not hs]
  | true =>
      obtain ⟨i, hi⟩ := exists_dotted hs
      rw [hi.unaryAt_eq]

/-! ## Other blanks -/

/-- Texts with the same ink and the same gaps between it are filled alike. -/
theorem ink_filled_eq {s t : List Char} (hmarked : isMarked s = isMarked t) (hink : ink s = ink t) :
    ink (filled s) = ink (filled t) := by
  cases hs : isMarked s with
  | false => rw [filled_of_not hs, filled_of_not (hmarked ▸ hs), hink]
  | true =>
      obtain ⟨i, hi⟩ := exists_dotted hs
      obtain ⟨i', hi'⟩ := exists_dotted (hmarked ▸ hs)
      have hsame : i = i' := List.append_cancel_right (hi.mark.symm.trans (hink.trans hi'.mark))
      rw [hi.name, hi'.name, hsame]

section

variable {s t : List Char} (hmarked : isMarked s = isMarked t) (h : Respaced s t)
  (hunary : ∀ k, unaryAt k (filled s) = unaryAt k (filled t))

include hmarked h hunary

theorem Docile.respaced (hs : Docile s) : Docile t := by
  have hink := h.ink_eq.symm
  have hcode : Code (filled t) := by
    have ht : Code t := hs.code.respaced h
    cases hm : isMarked t with
    | false => rwa [filled_of_not hm]
    | true =>
        obtain ⟨u, b, rfl, -, -, hfilled⟩ := exists_of_isMarked hm
        rw [hfilled]
        intro c hc hmem
        rcases List.mem_append.1 hmem with hmem | hmem
        · exact ht c hc (List.mem_append_left _ hmem)
        · have hother : ∀ c ∈ ['\'', '"', '%', '\n'], (!List.contains [' ', 'x'] c) = true :=
            List.all_eq_true.1 (by decide)
          have hnone := hother c hc
          rw [List.contains_iff_mem.2 hmem] at hnone
          cases hnone
  refine ⟨hs.code.respaced h, hs.tame.of_unaryAt_eq hcode (ink_filled_eq hmarked hink) hunary, ?_⟩
  have hrow := hs.row
  rwa [Lacks, hink] at hrow

theorem wavers_filled_eq (j : Nat) : wavers j (filled s) = wavers j (filled t) :=
  wavers_congr (ink_filled_eq hmarked h.ink_eq.symm) (hunary j)

end

section

variable {s : List Char}

theorem isMarked_spaceEnd (s : List Char) : isMarked s = isMarked (spaceEnd s) := by
  rw [isMarked, isMarked, trimEnd_spaceEnd]

theorem unaryAt_filled_spaceEnd (s : List Char) (k : Nat) :
    unaryAt k (filled s) = unaryAt k (filled (spaceEnd s)) := by
  rw [unaryAt_filled, unaryAt_filled]
  refine unaryAt_congr (ink_spaceEnd s).symm (fun j _ hj => (gapAt_spaceEnd hj).symm) ?_ k
  by_cases hnil : ink s = []
  · exact Or.inl (by simp [inkAt, hnil])
  · exact Or.inr (gapAt_spaceEnd (List.length_pos_iff.2 hnil)).symm

theorem Docile.spaceEnd (hs : Docile s) : Docile (spaceEnd s) :=
  .respaced (isMarked_spaceEnd s) (respaced_spaceEnd s) (unaryAt_filled_spaceEnd s) hs

theorem isMarked_skipBlanks (s : List Char) : isMarked s = isMarked (skipBlanks s) := by
  cases hs : isMarked s with
  | true =>
      obtain ⟨u, b, rfl, hb, -, -⟩ := exists_of_isMarked hs
      have hskip : ∃ w, skipBlanks (u ++ (['.', '.', '.'] ++ b)) = w ++ (['.', '.', '.'] ++ b) := by
        cases hu : u.all isBlank with
        | true =>
            refine ⟨[], ?_⟩
            rw [skipBlanks_append_of_blank hu]
            exact BeginsInk.skipBlanks_eq ⟨'.', rfl, by decide⟩
        | false => exact ⟨skipBlanks u, skipBlanks_append_of_ink hu _⟩
      obtain ⟨w, hw⟩ := hskip
      exact (isMarked_of_eq hw hb).symm
  | false =>
      by_contra hne
      obtain ⟨u, b, hskip, hb, -, -⟩ := exists_of_isMarked (s := skipBlanks s) (by simpa using hne)
      have hparts : s = s.takeWhile isBlank ++ skipBlanks s := List.takeWhile_append_dropWhile.symm
      rw [hskip, ← List.append_assoc] at hparts
      rw [isMarked_of_eq hparts hb] at hs
      cases hs

variable (hsign : inkAt isSign 0 s = false)

include hsign

theorem unaryAt_filled_skipBlanks (k : Nat) :
    unaryAt k (filled s) = unaryAt k (filled (skipBlanks s)) := by
  rw [unaryAt_filled, unaryAt_filled]
  refine unaryAt_congr (ink_skipBlanks s).symm (fun j hj _ => ?_) (Or.inl hsign) k
  obtain ⟨i, rfl⟩ : ∃ i, j = i + 1 := ⟨j - 1, by omega⟩
  exact (gapAt_skipBlanks i s).symm

theorem Docile.skipBlanks (hs : Docile s) : Docile (skipBlanks s) :=
  .respaced (isMarked_skipBlanks s) (Respaced.skipBlanks s) (unaryAt_filled_skipBlanks hsign) hs

theorem Tame.gapAt_format_skipBlanks (hs : Tame s) {j : Nat} (hj : 0 < j) :
    gapAt j (format (skipBlanks s)) = gapAt j (format s) := by
  have hink := (ink_skipBlanks s).symm
  have hgap : ∀ k, 0 < k → gapAt k s = gapAt k (skipBlanks s) := fun k hk => by
    obtain ⟨i, rfl⟩ : ∃ i, k = i + 1 := ⟨k - 1, by omega⟩
    exact (gapAt_skipBlanks i s).symm
  have hunary : ∀ k, unaryAt k s = unaryAt k (skipBlanks s) :=
    unaryAt_congr hink (fun k hk _ => hgap k hk) (Or.inl hsign)
  have halike : Alike false s (skipBlanks s) :=
    ⟨hink, fun k hk _ => hgap k (hk.resolve_left Bool.false_ne_true), hunary⟩
  exact (halike.gapAt_format hs
    (hs.of_unaryAt_eq (hs.code.respaced (Respaced.skipBlanks s)) hink hunary) hj).symm

/-- Where no sign begins the code, the blanks in front of it change nothing behind them. -/
theorem Docile.skipBlanks_format_skipBlanks (hs : Docile s) (hspaces : Spaces s) :
    Text.skipBlanks (format (Text.skipBlanks s)) = Text.skipBlanks (format s) := by
  have hrespaced := Respaced.skipBlanks s
  have hcode := hs.code.respaced hrespaced
  refine skipBlanks_format_eq_of_gapAt hs.code hrespaced hspaces fun j hj => ?_
  cases hm : isMarked s with
  | false =>
      have htame := hs.tame
      rw [filled_of_not hm] at htame
      exact htame.gapAt_format_skipBlanks hsign hj
  | true =>
      obtain ⟨i, hi⟩ := exists_dotted hm
      have hfilled : inkAt isSign 0 (filled s) = false := by
        rw [← (hi.inkAt_eq (p := isSign) (by decide) (by decide) 0).1, hsign]
      have hagain : Dotted i (Text.skipBlanks s) (Text.skipBlanks (filled s)) := hi.behind 0
      have hclear := hs.tame.toClear.of_ink_eq (hs.tame.code.respaced (Respaced.skipBlanks _))
        (ink_skipBlanks _).symm
      exact (hagain.marked hcode hclear (hs.getLast?_ne hi.mark)).gapAt_eq (hs.marked hi)
        (by rw [ink_format hcode, hagain.mark]) (by rw [ink_format hs.code, hi.mark])
        fun _ => hs.tame.gapAt_format_skipBlanks hfilled hj

end

/-! ## The second pass -/

/-- A sign in front of the name is set apart from it. -/
theorem Dotted.gapAt_format_last {i x y : List Char} (h : Dotted i x y) (hy : Tame y) {c : Char}
    (hc : i.getLast? = some c) (hsign : isSign c = true) : gapAt i.length (format y) = true := by
  obtain ⟨u, rfl⟩ := List.getLast?_eq_some_iff.1 hc
  have hlength : (u ++ [c]).length = u.length + 1 := by simp
  have hplace : inkAt isSign u.length y = true := by
    rw [inkAt, h.name, List.append_assoc, List.getElem?_append_right (Nat.le_refl _), Nat.sub_self]
    exact hsign
  have hword : inkAt isWord (u.length + 1) y = true := by
    rw [inkAt, h.name, List.getElem?_append_right (by rw [hlength]), hlength, Nat.sub_self]
    decide
  have hunary := h.unaryAt_last hlength.symm
  rw [hlength]
  rcases hy.toClear.gapAt_format_loose u.length hplace hword hunary with hgap | ⟨-, hcrowded⟩
  · exact hgap
  · rcases hy.marks _ hcrowded with htrue | hnot
    · rw [hunary] at htrue
      cases htrue
    · rw [inkAt_eq_false (fun c => isNegation_of_isSign) hplace] at hnot
      cases hnot

/-- A text with a gap at its end carries its spacing with any other gap there. -/
theorem Carries.spaceEnd {front : Bool} {s t : List Char} (h : Carries front s t) (hs : Clear s)
    (hend : gapAt (ink s).length s = true) : Carries front s (spaceEnd t) where
  respaced := h.respaced.trans (respaced_spaceEnd t)
  inner := fun j hj hlt => by rw [gapAt_spaceEnd (by rwa [← h.ink_eq]), h.inner j hj hlt]
  start := fun hunary => by
    have hlt := lt_of_inkAt (inkAt_sign_of_unaryAt hunary)
    rw [gapAt_spaceEnd (by rwa [← h.ink_eq]), h.start hunary]
  last := fun _ _ => by
    rw [hend, h.ink_eq]
    exact gapAt_spaceEnd_end t
  front := fun hfront => by
    by_cases hblank : ink s = []
    · have hzero : (ink s).length = 0 := by rw [hblank]; rfl
      have hplain := plain_zero_of_nil hblank
      rw [hs.gapAt_format 0 hplain, ← hzero, hend, h.ink_eq]
      exact gapAt_spaceEnd_end t
    · rw [gapAt_spaceEnd (by rw [← h.ink_eq]; exact List.length_pos_iff.2 hblank), h.front hfront]

/-- The text `t` is what the second pass gets of the text `s`: it carries the spacing of `s`, or
what is in front of its mark carries the spacing of what is in front of a name in `s`. -/
inductive Relays (front : Bool) (s t : List Char) : Prop where
  | plain (unmarked : isMarked s = false) (carries : Carries front s t)
  | marked {i y : List Char} (dotted : Dotted i s (filled s)) (again : Dotted i t y)
      (respaced : Respaced s t) (carries : Carries front (filled s) y)

/-- A text that has been spaced is one of them. -/
theorem relays_format {s : List Char} (hs : Docile s) : Relays true s (format s) := by
  cases hm : isMarked s with
  | false =>
      have htame := hs.tame
      rw [filled_of_not hm] at htame
      exact .plain hm (carries_format htame.toClear)
  | true =>
      obtain ⟨i, hi⟩ := exists_dotted hm
      have hmarked := hs.marked hi
      refine .marked hi ⟨?_, ?_, hmarked.gap, hmarked.joined, ?_⟩
        (respaced_format hs.code.newline_not_mem) (carries_format hs.tame.toClear)
      · rw [ink_format hs.code, hi.mark]
      · rw [ink_format hs.tame.code, hi.name]
      · cases hlast : i.getLast? with
        | none => exact Or.inr fun c hc => by cases hc
        | some c =>
            cases hsign : isSign c with
            | false =>
                refine Or.inr fun d hd => ?_
                cases hd
                exact hsign
            | true => exact Or.inl (hi.gapAt_format_last hs.tame hlast hsign)

namespace Relays

variable {front : Bool} {s t : List Char}

theorem respaced (h : Relays front s t) : Respaced s t := by
  cases h with
  | plain _ carries => exact carries.respaced
  | marked _ _ respaced _ => exact respaced

/-- So is what stands behind other blanks, unless it begins with the sign of a word. -/
theorem behind (h : Relays front s t) (hstart : unaryAt 0 (filled s) = false) (n : Nat) :
    Relays false s (List.replicate n ' ' ++ skipBlanks t) := by
  cases h with
  | plain unmarked carries =>
      rw [filled_of_not unmarked] at hstart
      exact .plain unmarked (carries.behind hstart n)
  | @marked i y dotted again respaced carries =>
      exact .marked dotted (again.behind n) ((respaced.trans (Respaced.skipBlanks t)).pad_left n)
        (carries.behind hstart n)

/-- So is what gets another blank at its end, if the text has one. -/
theorem spaceEnd (h : Relays front s t) (hs : Docile s) (hend : gapAt (ink s).length s = true) :
    Relays front s (spaceEnd t) := by
  cases h with
  | plain unmarked carries =>
      have htame := hs.tame
      rw [filled_of_not unmarked] at htame
      exact .plain unmarked (carries.spaceEnd htame.toClear hend)
  | @marked i y dotted again respaced carries =>
      have hlength : (ink t).length = i.length + 3 := by rw [again.mark]; simp
      refine .marked dotted ⟨?_, again.name, fun j hj => ?_, ⟨?_, ?_⟩, again.loose⟩
        (respaced.trans (respaced_spaceEnd t)) carries
      · rw [ink_spaceEnd, again.mark]
      · rw [gapAt_spaceEnd (by omega), again.gap j hj]
      · rw [gapAt_spaceEnd (by omega), again.joined.1]
      · rw [gapAt_spaceEnd (by omega), again.joined.2]

variable (h : Relays front s t) (hs : Docile s)

include h hs

theorem code : Code t := hs.code.respaced h.respaced

/-- **Spaced again, docile code keeps its gaps** if no sign in it wavers. -/
theorem gapAt_format_eq (hsteady : ∀ j, wavers j (filled s) = false) {j : Nat}
    (hj : front = true ∨ 0 < j) : gapAt j (format t) = gapAt j (format s) := by
  have ht := h.code hs
  cases h with
  | plain unmarked carries =>
      have htame := hs.tame
      rw [filled_of_not unmarked] at htame hsteady
      exact carries.gapAt_format_eq htame hsteady hj
  | @marked i y dotted again respaced carries =>
      have hclear : Clear y := hs.tame.toClear.of_ink_eq (carries.code hs.tame) carries.ink_eq
      have hfirst := hs.marked dotted
      have hsecond := again.marked ht hclear (hs.getLast?_ne dotted.mark)
      exact hsecond.gapAt_eq hfirst (by rw [ink_format ht, again.mark])
        (by rw [ink_format hs.code, dotted.mark])
        fun _ => carries.gapAt_format_eq hs.tame hsteady hj

/-- **Where docile code comes out as before, no sign in it wavers.** -/
theorem not_wavers (htrim : trim (format t) = trim (format s)) (j : Nat) :
    wavers j (filled s) = false := by
  have ht := h.code hs
  have hlength : (ink (format t)).length = (ink (format s)).length := by
    rw [ink_format ht, ink_format hs.code, h.respaced.ink_eq]
  have hgap : ∀ k, 0 < k → k < (ink s).length → gapAt k (format t) = gapAt k (format s) := by
    intro k hk hlt
    rw [← ink_format hs.code] at hlt
    rw [← gapAt_trim hk (by rwa [hlength]), htrim, gapAt_trim hk hlt]
  cases h with
  | plain unmarked carries =>
      have htame := hs.tame
      rw [filled_of_not unmarked] at htame ⊢
      refine carries.not_wavers htame (fun k hunary => ?_) j
      have hlt := lt_of_inkAt (inkAt_word_of_unaryAt hunary)
      exact ⟨fun hpos => hgap k hpos (by omega), hgap (k + 1) (Nat.succ_pos k) hlt⟩
  | @marked i y dotted again respaced carries =>
      have hclear : Clear y := hs.tame.toClear.of_ink_eq (carries.code hs.tame) carries.ink_eq
      have hfirst := hs.marked dotted
      have hsecond := again.marked ht hclear (hs.getLast?_ne dotted.mark)
      have hink : (ink s).length = i.length + 3 := by rw [dotted.mark]; simp
      have hkept :
          ∀ k, 0 < k → k < i.length → gapAt k (format y) = gapAt k (format (filled s)) := by
        intro k hk hlt
        rw [← hsecond.gap k hlt, hgap k hk (by omega), hfirst.gap k hlt]
      refine carries.not_wavers hs.tame (fun k hunary => ?_) j
      -- the sign belongs to a word in front of the mark
      have hlt : k + 1 < i.length := by
        have hword := lt_of_inkAt (inkAt_word_of_unaryAt hunary)
        rw [dotted.name, List.length_append, List.length_singleton] at hword
        have hne : k + 1 ≠ i.length := by
          intro hlast
          rw [dotted.unaryAt_last hlast] at hunary
          cases hunary
        omega
      exact ⟨fun hpos => hkept k hpos (by omega), hkept (k + 1) (Nat.succ_pos k) hlt⟩

end Relays

end Pcode.Spacing
