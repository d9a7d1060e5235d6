import Mathlib.Data.List.TakeWhile
import Pcode.Text.Blank
import Pcode.Text.Line

set_option autoImplicit false

/-! # Texts that differ in their blanks

The ink of a text is what is left of it without its blanks. A text is a *respacing* of another
if it has the same ink and brings no new character but the space. Formatting does many things
to a line, each of which is a respacing of some part of it; since respacings can be chained
(`Respaced.trans`) and put side by side (`Respaced.append`), so is the whole.

That no new character comes in matters for line ends, which are blanks too: a respacing of a
text without line ends has none (`Respaced.not_mem`). -/

namespace Pcode.Text

/-! ## Ink -/

/-- The characters of a text that are not blank. -/
def ink (s : List Char) : List Char := s.filter (fun c => !isBlank c)

@[simp] theorem ink_nil : ink [] = [] := rfl

@[simp] theorem ink_append (s t : List Char) : ink (s ++ t) = ink s ++ ink t :=
  List.filter_append s t

theorem ink_cons_of_isBlank {c : Char} (h : isBlank c = true) (s : List Char) :
    ink (c :: s) = ink s := by
  simp [ink, h]

theorem ink_eq_nil_iff (s : List Char) : ink s = [] ↔ s.all isBlank = true := by
  simp [ink, List.filter_eq_nil_iff, List.all_eq_true]

@[simp] theorem ink_replicate_space (n : Nat) : ink (List.replicate n ' ') = [] := by
  have hspace : isBlank ' ' = true := by decide
  simp [ink, hspace]

@[simp] theorem ink_skipBlanks (s : List Char) : ink (skipBlanks s) = ink s := by
  induction s with
  | nil => rfl
  | cons c s ih =>
      by_cases hc : isBlank c = true
      · have hskip : skipBlanks (c :: s) = skipBlanks s := by simp [skipBlanks, hc]
        rw [hskip, ih, ink_cons_of_isBlank hc]
      · have hskip : skipBlanks (c :: s) = c :: s := by simp [skipBlanks, hc]
        rw [hskip]

theorem ink_reverse (s : List Char) : ink s.reverse = (ink s).reverse :=
  List.filter_reverse

@[simp] theorem ink_trimEnd (s : List Char) : ink (trimEnd s) = ink s := by
  rw [trimEnd, ink_reverse, ink_skipBlanks, ink_reverse, List.reverse_reverse]

/-! ## Respacing -/

/-- `t` has the ink of `s`, and no character that is neither in `s` nor a space. -/
structure Respaced (s t : List Char) : Prop where
  ink_eq : ink t = ink s
  mem : ∀ c ∈ t, c ∈ s ∨ c = ' '

namespace Respaced

variable {s s' t t' u : List Char}

@[refl] theorem refl (s : List Char) : Respaced s s := ⟨rfl, fun _ h => Or.inl h⟩

theorem trans (h : Respaced s t) (h' : Respaced t u) : Respaced s u := by
  refine ⟨h'.ink_eq.trans h.ink_eq, fun c hc => ?_⟩
  rcases h'.mem c hc with hmem | hspace
  · exact h.mem c hmem
  · exact Or.inr hspace

theorem append (h : Respaced s t) (h' : Respaced s' t') : Respaced (s ++ s') (t ++ t') := by
  refine ⟨by rw [ink_append, ink_append, h.ink_eq, h'.ink_eq], fun c hc => ?_⟩
  rcases List.mem_append.1 hc with hmem | hmem
  · exact (h.mem c hmem).imp_left (List.mem_append_left s')
  · exact (h'.mem c hmem).imp_left (List.mem_append_right s)

theorem cons (c : Char) (h : Respaced s t) : Respaced (c :: s) (c :: t) :=
  (refl [c]).append h

/-- Only spaces come out of nothing. -/
theorem replicate_space (n : Nat) : Respaced [] (List.replicate n ' ') :=
  ⟨ink_replicate_space n, fun _ hc => Or.inr (List.eq_of_mem_replicate hc)⟩

/-- Spaces may be put in front. -/
theorem pad_left (n : Nat) (h : Respaced s t) : Respaced s (List.replicate n ' ' ++ t) :=
  (replicate_space n).append h

theorem pad_cons (h : Respaced s t) : Respaced s (' ' :: t) := h.pad_left 1

/-- Blanks in front may be dropped. -/
theorem skipBlanks (s : List Char) : Respaced s (skipBlanks s) :=
  ⟨ink_skipBlanks s, fun _ hc => Or.inl ((skipBlanks_sublist s).mem hc)⟩

theorem of_skipBlanks (h : Text.skipBlanks s = t) : Respaced s t := h ▸ skipBlanks s

theorem trimEnd (s : List Char) : Respaced s (trimEnd s) := by
  refine ⟨ink_trimEnd s, fun c hc => Or.inl ?_⟩
  have hrev : c ∈ Text.skipBlanks s.reverse := List.mem_reverse.1 hc
  exact List.mem_reverse.1 ((skipBlanks_sublist s.reverse).mem hrev)

theorem trim (s : List Char) : Respaced s (trim s) := (skipBlanks s).trans (trimEnd _)

/-- A text of blanks may be dropped. -/
theorem drop_all (h : s.all isBlank = true) : Respaced s [] :=
  ⟨((ink_eq_nil_iff s).2 h).symm, fun _ hc => absurd hc (List.not_mem_nil)⟩

theorem not_mem {c : Char} (h : Respaced s t) (hc : c ∉ s) (hspace : c ≠ ' ') : c ∉ t := by
  intro hmem
  rcases h.mem c hmem with hs | hs
  · exact hc hs
  · exact hspace hs

/-- What is not blank is there as often as before. -/
theorem count_eq {c : Char} (h : Respaced s t) (hc : isBlank c = false) :
    t.count c = s.count c := by
  have hink : ∀ u, (ink u).count c = u.count c := fun u => List.count_filter (by simp [hc])
  rw [← hink t, h.ink_eq, hink s]

theorem newline_not_mem (h : Respaced s t) (hs : '\n' ∉ s) : '\n' ∉ t :=
  h.not_mem hs (by decide)

theorem all_isBlank_eq (h : Respaced s t) : t.all isBlank = s.all isBlank := by
  rw [Bool.eq_iff_iff, ← ink_eq_nil_iff, ← ink_eq_nil_iff, h.ink_eq]

end Respaced

/-! ## One line -/

theorem bne_of_not_mem {x : Char} {s : List Char} (h : x ∉ s) : ∀ c ∈ s, (c != x) = true := by
  intro c hc
  have hne : c ≠ x := fun he => h (he ▸ hc)
  simpa using hne

theorem firstLine_of_not_mem {s : List Char} (h : '\n' ∉ s) : firstLine s = s := by
  rw [firstLine, List.takeWhile_eq_self_iff]
  exact bne_of_not_mem h

theorem isOneLine_of_not_mem {s : List Char} (h : '\n' ∉ s) : isOneLine s = true := by
  have hdrop : s.dropWhile (· != '\n') = [] := List.dropWhile_eq_nil_iff.2 (bne_of_not_mem h)
  rw [isOneLine, hdrop]

end Pcode.Text
