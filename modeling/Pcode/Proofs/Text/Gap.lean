import Pcode.Proofs.Text.Blank

set_option autoImplicit false

/-! # Gaps

A gap is a place of a text where a blank stands; it is named by the ink before it and the ink after
it (`Gap`). So the gaps of two texts with the same ink can be compared, wherever their blanks are.
A gap of a text in two parts is a gap of one of them (`Gap.of_append`), and stays one when parts are
put around it (`Gap.append_right`, `Gap.append_left`) or blanks into the text (`Gap.insert`). -/

namespace Pcode.Text

/-- A blank stands in `s` between the ink `p` and the ink `q`. -/
def Gap (p q s : List Char) : Prop :=
  ∃ u c v, s = u ++ c :: v ∧ isBlank c = true ∧ ink u = p ∧ ink v = q

theorem ink_cons_of_ink {c : Char} (h : isBlank c = false) (s : List Char) :
    ink (c :: s) = c :: ink s := by
  simp [ink, h]

namespace Gap

variable {p q s t : List Char}

theorem ink_eq (h : Gap p q s) : ink s = p ++ q := by
  obtain ⟨u, c, v, rfl, hc, rfl, rfl⟩ := h
  rw [ink_append, ink_cons_of_isBlank hc]

theorem cons {c : Char} (hc : isBlank c = true) (s : List Char) : Gap [] (ink s) (c :: s) :=
  ⟨[], c, s, rfl, hc, rfl, rfl⟩

theorem append_right (h : Gap p q s) (t : List Char) : Gap p (q ++ ink t) (s ++ t) := by
  obtain ⟨u, c, v, rfl, hc, rfl, rfl⟩ := h
  exact ⟨u, c, v ++ t, by simp, hc, rfl, ink_append v t⟩

theorem append_left (h : Gap p q t) (s : List Char) : Gap (ink s ++ p) q (s ++ t) := by
  obtain ⟨u, c, v, rfl, hc, rfl, rfl⟩ := h
  exact ⟨s ++ u, c, v, by simp, hc, ink_append s u, rfl⟩

/-- A gap of two parts is a gap of one of them. -/
theorem of_append (h : Gap p q (s ++ t)) :
    (∃ q', q = q' ++ ink t ∧ Gap p q' s) ∨ ∃ p', p = ink s ++ p' ∧ Gap p' q t := by
  obtain ⟨u, c, v, hsplit, hc, rfl, rfl⟩ := h
  rcases List.append_eq_append_iff.1 hsplit with ⟨w, rfl, rfl⟩ | ⟨w, rfl, hrest⟩
  · exact Or.inr ⟨ink w, ink_append s w, w, c, v, rfl, hc, rfl, rfl⟩
  · -- the blank is the first character after `u`, in `s` if that goes on and else in `t`
    cases w with
    | nil =>
        rw [List.nil_append] at hrest
        exact Or.inr ⟨[], by simp, [], c, v, hrest.symm, hc, rfl, rfl⟩
    | cons d w =>
        obtain ⟨rfl, rfl⟩ := List.cons.inj hrest
        exact Or.inl ⟨ink w, ink_append w t, u, c, w, rfl, hc, rfl, rfl⟩

/-- Before a gap of a text that begins with ink stands that ink. -/
theorem of_cons {c : Char} (hc : isBlank c = false) (h : Gap p q (c :: s)) :
    ∃ p', p = c :: p' ∧ Gap p' q s := by
  rcases of_append (s := [c]) h with ⟨q', -, u, d, v, hsplit, hd, -⟩ | ⟨p', rfl, hgap⟩
  · have hmem : d ∈ [c] := by
      rw [hsplit]
      exact List.mem_append_right u List.mem_cons_self
    rw [List.mem_singleton.1 hmem, hc] at hd
    cases hd
  · exact ⟨p', by rw [ink_cons_of_ink hc]; rfl, hgap⟩

/-- The blanks at the start of a text are no gap after ink. -/
theorem skipBlanks (h : Gap p q s) (hp : p ≠ []) : Gap p q (skipBlanks s) := by
  have hblank : ink (s.takeWhile isBlank) = [] :=
    (ink_eq_nil_iff _).2 (List.all_eq_true.2 fun c hc => List.mem_takeWhile_imp hc)
  rw [← List.takeWhile_append_dropWhile (p := isBlank) (l := s)] at h
  rcases h.of_append with ⟨q', -, hgap⟩ | ⟨p', hp', hgap⟩
  · rw [hgap.ink_eq] at hblank
    exact absurd (List.append_eq_nil_iff.1 hblank).1 hp
  · rw [hblank, List.nil_append] at hp'
    rw [hp']
    exact hgap

/-- A text that begins with ink has no gap at its start. -/
theorem not_of_beginsInk (hs : BeginsInk s) : ¬Gap [] q s := by
  intro h
  obtain ⟨c, r, rfl, hc⟩ := hs.exists_cons
  obtain ⟨p', hp', -⟩ := h.of_cons hc
  cases hp'

/-- A text without blanks has no gap. -/
theorem not_of_ink (hs : ∀ c ∈ s, isBlank c = false) : ¬Gap p q s := by
  rintro ⟨u, c, v, rfl, hc, -⟩
  rw [hs c (by simp)] at hc
  cases hc

/-- Blanks put into a text leave its gaps. -/
theorem insert {m : List Char} (h : Gap p q (s ++ t)) (hm : ink m = []) :
    Gap p q (s ++ m ++ t) := by
  rcases h.of_append with ⟨q', rfl, hgap⟩ | ⟨p', rfl, hgap⟩
  · have := (hgap.append_right m).append_right t
    rwa [hm, List.append_nil] at this
  · have := hgap.append_left (s ++ m)
    rwa [ink_append, hm, List.append_nil] at this

end Gap

/-- The characters `x` and `y`, with the ink `p` before them and the ink `q` after them, are apart
in `s`: between them stand blanks, at least one, and nothing else. -/
def Apart (p : List Char) (x y : Char) (q s : List Char) : Prop :=
  ∃ a g b, s = a ++ x :: (g ++ y :: b) ∧ g ≠ [] ∧ g.all isBlank = true ∧ ink a = p ∧ ink b = q

/-- A text that has ink, taken apart at its first one. -/
theorem exists_of_ink_eq_cons {s q : List Char} {y : Char} (h : ink s = y :: q) :
    ∃ g b, s = g ++ y :: b ∧ g.all isBlank = true ∧ ink b = q := by
  cases hskip : skipBlanks s with
  | nil =>
      rw [← ink_skipBlanks, hskip] at h
      cases h
  | cons c r =>
      have hc := isBlank_of_skipBlanks_eq_cons hskip
      rw [← ink_skipBlanks, hskip, ink_cons_of_ink hc] at h
      obtain ⟨rfl, rfl⟩ := List.cons.inj h
      refine ⟨s.takeWhile isBlank, r, ?_, ?_, rfl⟩
      · rw [← hskip, skipBlanks, List.takeWhile_append_dropWhile]
      · exact List.all_eq_true.2 fun c hc => List.mem_takeWhile_imp hc

/-- A text that has ink, taken apart at its last one. -/
theorem exists_of_ink_eq_concat {s p : List Char} {x : Char} (h : ink s = p ++ [x]) :
    ∃ a g, s = a ++ x :: g ∧ g.all isBlank = true ∧ ink a = p := by
  have hrev : ink s.reverse = x :: p.reverse := by
    rw [ink_reverse, h, List.reverse_append]
    rfl
  obtain ⟨g, b, hs, hg, hb⟩ := exists_of_ink_eq_cons hrev
  refine ⟨b.reverse, g.reverse, ?_, by rwa [List.all_reverse], ?_⟩
  · rw [← List.reverse_reverse s, hs]
    simp
  · rw [ink_reverse, hb, List.reverse_reverse]

/-- Two characters are apart where there is a gap between them. -/
theorem gap_iff_apart {p q s : List Char} {x y : Char} (hx : isBlank x = false)
    (hy : isBlank y = false) : Gap (p ++ [x]) (y :: q) s ↔ Apart p x y q s := by
  constructor
  · rintro ⟨u, c, v, rfl, hc, hu, hv⟩
    obtain ⟨a, g, rfl, hg, rfl⟩ := exists_of_ink_eq_concat hu
    obtain ⟨g', b, rfl, hg', rfl⟩ := exists_of_ink_eq_cons hv
    exact ⟨a, g ++ c :: g', b, by simp, by simp, by simp [hg, hg', hc], rfl, rfl⟩
  · rintro ⟨a, g, b, rfl, hne, hg, rfl, rfl⟩
    cases g with
    | nil => exact absurd rfl hne
    | cons c g =>
        obtain ⟨hc, hg⟩ : isBlank c = true ∧ g.all isBlank = true := by simpa using hg
        refine ⟨a ++ [x], c, g ++ y :: b, by simp, hc, ?_, ?_⟩
        · rw [ink_append, ink_cons_of_ink hx]
          rfl
        · rw [ink_append, (ink_eq_nil_iff g).2 hg, ink_cons_of_ink hy]
          rfl

end Pcode.Text
