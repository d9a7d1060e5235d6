import Pcode.Proofs.Spacing.Gap.Tree

set_option autoImplicit false

/-! # Probes and signs

In a row such as `[a -b]` a sign with a blank in front of it and a word right after it begins an
element of its own. It has to stay with the word when spacing is put in order, or the row gets
another number of elements.

Such a sign is looked at as the two characters themselves with the ink before and after them: they
are side by side (`Joined`), and there is a blank in front of them (`Led`). Main statement: the
probes for numbers and signs, which are tried before all others, leave a sign with its word
(`Probe.KeepsSigns`, one lemma for each probe). -/

namespace Pcode.Spacing

open Pcode.Text

/-! ## Signs in a text -/

/-- The characters `x` and `y`, with the ink `p` before them and the ink `q` after them, stand side
by side in `s`. -/
def Joined (p : List Char) (x y : Char) (q s : List Char) : Prop :=
  ∃ a b, s = a ++ x :: y :: b ∧ ink a = p ∧ ink b = q

/-- The same with a blank in front of them. -/
def Led (p : List Char) (x y : Char) (q s : List Char) : Prop :=
  ∃ a g b, s = a ++ g :: x :: y :: b ∧ isBlank g = true ∧ ink a = p ∧ ink b = q

section

variable {p q s t : List Char} {x y : Char}

theorem Joined.append_right (h : Joined p x y q s) (t : List Char) :
    Joined p x y (q ++ ink t) (s ++ t) := by
  obtain ⟨a, b, rfl, rfl, rfl⟩ := h
  exact ⟨a, b ++ t, by simp, rfl, ink_append b t⟩

theorem Joined.append_left (h : Joined p x y q t) (s : List Char) :
    Joined (ink s ++ p) x y q (s ++ t) := by
  obtain ⟨a, b, rfl, rfl, rfl⟩ := h
  exact ⟨s ++ a, b, by simp, ink_append s a, rfl⟩

theorem Led.append_right (h : Led p x y q s) (t : List Char) :
    Led p x y (q ++ ink t) (s ++ t) := by
  obtain ⟨a, g, b, rfl, hg, rfl, rfl⟩ := h
  exact ⟨a, g, b ++ t, by simp, hg, rfl, ink_append b t⟩

theorem Led.append_left (h : Led p x y q t) (s : List Char) : Led (ink s ++ p) x y q (s ++ t) := by
  obtain ⟨a, g, b, rfl, hg, rfl, rfl⟩ := h
  exact ⟨s ++ a, g, b, by simp, hg, ink_append s a, rfl⟩

theorem Led.joined (h : Led p x y q s) : Joined p x y q s := by
  obtain ⟨a, g, b, rfl, hg, rfl, rfl⟩ := h
  exact ⟨a ++ [g], b, by simp, by rw [ink_append, ink_cons_of_isBlank hg, ink_nil, List.append_nil],
    rfl⟩

theorem Led.ink_eq (hx : isBlank x = false) (hy : isBlank y = false) (h : Led p x y q s) :
    ink s = p ++ x :: y :: q := by
  obtain ⟨a, g, b, rfl, hg, rfl, rfl⟩ := h
  rw [ink_append, ink_cons_of_isBlank hg, ink_cons_of_ink hx, ink_cons_of_ink hy]

/-- Where the three characters are in a text of two parts: in one of them, or in both. -/
theorem Led.of_append (h : Led p x y q (s ++ t)) :
    (∃ q', q = q' ++ ink t ∧ Led p x y q' s) ∨ (∃ p', p = ink s ++ p' ∧ Led p' x y q t) ∨
      (∃ a g b, s = a ++ [g] ∧ isBlank g = true ∧ t = x :: y :: b ∧ ink a = p ∧ ink b = q) ∨
      ∃ a g b, s = a ++ [g, x] ∧ isBlank g = true ∧ t = y :: b ∧ ink a = p ∧ ink b = q := by
  obtain ⟨a, g, b, hsplit, hg, rfl, rfl⟩ := h
  rcases List.append_eq_append_iff.1 hsplit with ⟨w, rfl, ht⟩ | ⟨w, rfl, hw⟩
  · exact Or.inr (Or.inl ⟨ink w, ink_append s w, w, g, b, ht, hg, rfl, rfl⟩)
  · -- the first part reaches as far as `w` into the three characters
    cases w with
    | nil => exact Or.inr (Or.inl ⟨[], by simp, [], g, b, hw.symm, hg, rfl, rfl⟩)
    | cons g' w =>
        obtain ⟨rfl, hsign⟩ := List.cons.inj hw
        cases w with
        | nil => exact Or.inr (Or.inr (Or.inl ⟨a, g, b, rfl, hg, hsign.symm, rfl, rfl⟩))
        | cons x' w =>
            obtain ⟨rfl, hword⟩ := List.cons.inj hsign
            cases w with
            | nil => exact Or.inr (Or.inr (Or.inr ⟨a, g, b, rfl, hg, hword.symm, rfl, rfl⟩))
            | cons y' w =>
                obtain ⟨rfl, rfl⟩ := List.cons.inj hword
                exact Or.inl ⟨ink w, ink_append w t, a, g, w, rfl, hg, rfl, rfl⟩

/-- The first ink of a text is the sign, or stands before it. -/
theorem Led.of_skipBlanks (hx : isBlank x = false) {d : Char} {r : List Char}
    (hskip : skipBlanks s = d :: r) (h : Led p x y q s) :
    (p = [] ∧ d = x ∧ ∃ b, r = y :: b ∧ ink b = q) ∨ ∃ p', p = d :: p' ∧ Led p' x y q r := by
  obtain ⟨a, g, b, rfl, hg, rfl, rfl⟩ := h
  by_cases ha : a.all isBlank = true
  · have hbegins : BeginsInk (x :: y :: b) := ⟨x, rfl, hx⟩
    rw [skipBlanks_append_of_blank ha, skipBlanks_cons hg, hbegins.skipBlanks_eq] at hskip
    obtain ⟨rfl, rfl⟩ := List.cons.inj hskip
    exact Or.inl ⟨(ink_eq_nil_iff a).2 ha, rfl, b, rfl, rfl⟩
  · obtain ⟨c, a', ha', hc⟩ := (beginsInk_skipBlanks (by simpa using ha)).exists_cons
    have hall : skipBlanks (a ++ g :: x :: y :: b) = c :: (a' ++ g :: x :: y :: b) :=
      (takeWhile_dropWhile_append ha' _).2
    rw [hall] at hskip
    obtain ⟨rfl, rfl⟩ := List.cons.inj hskip
    refine Or.inr ⟨ink a', ?_, a', g, b, rfl, hg, rfl, rfl⟩
    rw [← ink_skipBlanks, ha', ink_cons_of_ink hc]

/-- Text without blanks in front. -/
theorem Led.of_append_ink {m r : List Char} (hm : ∀ c ∈ m, isBlank c = false)
    (h : Led p x y q (m ++ r)) : ∃ p', p = m ++ p' ∧ Led p' x y q r := by
  have hblank : ∀ g, isBlank g = true → g ∉ m := by
    intro g hg hmem
    rw [hm g hmem] at hg
    cases hg
  have hink := ink_eq_self hm
  rcases h.of_append with ⟨q', -, a, g, b, rfl, hg, -⟩ | ⟨p', hp, hrest⟩ | ⟨a, g, b, rfl, hg, -⟩ |
    ⟨a, g, b, rfl, hg, -⟩
  · exact absurd (by simp) (hblank g hg)
  · exact ⟨p', by rw [hp, hink], hrest⟩
  · exact absurd (by simp) (hblank g hg)
  · exact absurd (by simp) (hblank g hg)

/-- Blanks in front can go if the first ink is not the sign. -/
theorem Led.dropBlanks (hx : isBlank x = false) (hy : isBlank y = false)
    (hfirst : ∀ d ∈ (skipBlanks s).head?, d ≠ x) (h : Led p x y q s) :
    Led p x y q (skipBlanks s) := by
  cases hskip : skipBlanks s with
  | nil =>
      have hink := h.ink_eq hx hy
      rw [← ink_skipBlanks, hskip] at hink
      simp at hink
  | cons d r =>
      rcases h.of_skipBlanks hx hskip with ⟨-, hd, -⟩ | ⟨p', rfl, hrest⟩
      · exact absurd hd (hfirst d (by rw [hskip]; rfl))
      · have hall := hrest.append_left [d]
        rwa [ink_cons_of_ink (isBlank_of_skipBlanks_eq_cons hskip)] at hall

end

/-! ## Probes for numbers and signs -/

/-- A probe leaves a word at the start with the lead. -/
def Probe.KeepsWord (p : Probe) : Prop :=
  ∀ y b f, isWord y = true → p (y :: b) = some f → ∃ h, f.head = y :: h

/-- A probe that leaves a sign with the word after it: it finds the sign itself, with the word right
of it, or the sign is in the text right of what it finds. -/
structure Probe.KeepsSigns (p : Probe) : Prop where
  skips : ∀ c t, isBlank c = true → p (c :: t) = p t
  led : ∀ t f u v x y, '\n' ∉ t → p t = some f → isSign x = true → isWord y = true →
    Led u x y v t →
      (∃ u', u = ink f.head ++ ink f.mid ++ u' ∧ Led u' x y v f.right) ∨
        (u = [] ∧ f.head = [] ∧ f.mid = [x] ∧ ∃ b, f.right = y :: b ∧ ink b = v)
  word : p.KeepsWord

theorem mem_symbolChars_of_isSign {x : Char} (h : isSign x = true) : x ∈ symbolChars := by
  rw [isSign, Bool.or_eq_true, beq_iff_eq, beq_iff_eq] at h
  rcases h with rfl | rfl
  · decide
  · decide

theorem isWord_of_isSign {x : Char} (h : isSign x = true) : isWord x = false :=
  (of_mem_symbolChars (mem_symbolChars_of_isSign h)).2.1

theorem isDecimal_of_isSign {x : Char} (h : isSign x = true) : isDecimal x = false :=
  (of_mem_symbolChars (mem_symbolChars_of_isSign h)).2.2.1

/-- What closes an element: brackets and separators. -/
def isCloser (c : Char) : Bool := isClosing c || c == ',' || c == ';'

theorem mem_symbolChars_of_isCloser {c : Char} (h : isCloser c = true) : c ∈ symbolChars := by
  simp only [isCloser, isClosing, Bool.or_eq_true, beq_iff_eq] at h
  rcases h with ((((rfl | rfl) | rfl) | rfl) | rfl)
  all_goals decide

theorem isCloser_of_isSign {x : Char} (h : isSign x = true) : isCloser x = false := by
  rw [isSign, Bool.or_eq_true, beq_iff_eq, beq_iff_eq] at h
  rcases h with rfl | rfl
  · decide
  · decide

/-- Ink in front that begins with a digit is before the sign. -/
theorem Led.of_number {p q t m r : List Char} {x y : Char} (hx : isSign x = true)
    (htext : skipBlanks t = m ++ r) (hm : ∀ c ∈ m, isBlank c = false)
    (hdigit : ∃ d ∈ m.head?, isDecimal d = true) (h : Led p x y q t) :
    ∃ p', p = m ++ p' ∧ Led p' x y q r := by
  obtain ⟨d, hd, hdecimal⟩ := hdigit
  obtain ⟨w, rfl⟩ := List.head?_eq_some_iff.1 hd
  rcases h.of_skipBlanks (isBlank_of_isSign hx) htext with ⟨-, rfl, -⟩ | ⟨p', rfl, hrest⟩
  · rw [isDecimal_of_isSign hx] at hdecimal
    cases hdecimal
  · obtain ⟨p'', rfl, hbehind⟩ := hrest.of_append_ink (List.forall_mem_cons.1 hm).2
    exact ⟨p'', rfl, hbehind⟩

/-- What is found at the start of a word begins with its first character. -/
theorem exists_cons_of_word {y : Char} {b m r : List Char} (hy : isWord y = true)
    (htext : skipBlanks (y :: b) = m ++ r) (hm : m ≠ []) : ∃ w, m = y :: w := by
  obtain ⟨d, w, rfl⟩ := List.exists_cons_of_ne_nil hm
  rw [BeginsInk.skipBlanks_eq ⟨y, rfl, isBlank_of_isWord hy⟩] at htext
  obtain rfl : y = d := (List.cons.inj htext).1
  exact ⟨w, rfl⟩

namespace IsScientific

variable {s r : List Char} {f : Found}

theorem mem_mid (h : IsScientific s f r) : ∀ c ∈ f.mid, c ∈ ['e', 'E', '+', '-'] := by
  obtain ⟨e, he, hmid⟩ := h.mark
  have hmark : e ∈ ['e', 'E', '+', '-'] := by rcases he with rfl | rfl <;> decide
  rcases hmid with hmid | ⟨x, hx, hmid⟩
  · rw [hmid]
    exact List.forall_mem_singleton.2 hmark
  · have hsign : x ∈ ['e', 'E', '+', '-'] := by
      rw [isSign, Bool.or_eq_true, beq_iff_eq, beq_iff_eq] at hx
      rcases hx with rfl | rfl <;> decide
    rw [hmid]
    exact List.forall_mem_cons.2 ⟨hmark, List.forall_mem_singleton.2 hsign⟩

theorem isBlank_head (h : IsScientific s f r) : ∀ c ∈ f.head, isBlank c = false := by
  intro c hc
  rcases h.numeral c hc with hdecimal | rfl
  · exact isBlank_of_isDecimal hdecimal
  · decide

theorem isBlank_mid (h : IsScientific s f r) : ∀ c ∈ f.mid, isBlank c = false := by
  have hmarks : ∀ c ∈ ['e', 'E', '+', '-'], (!isBlank c) = true := List.all_eq_true.1 (by decide)
  intro c hc
  simpa using hmarks c (h.mem_mid c hc)

end IsScientific

theorem scientific_keepsSigns : Probe.KeepsSigns scientific where
  skips := scientific_operand.skips
  led := by
    intro t f u v x y ht h hx hy hled
    obtain ⟨r, hf⟩ := scientific_eq_some h
    -- digits, fraction and mark have no blank, so the sign comes behind them
    have hink : ∀ c ∈ f.head ++ f.mid, isBlank c = false := fun c hc =>
      (List.mem_append.1 hc).elim (hf.isBlank_head c) (hf.isBlank_mid c)
    obtain ⟨d, hd, hdecimal⟩ := hf.digit
    have hdigit : d ∈ (f.head ++ f.mid).head? := by
      rw [List.head?_append, hd]
      rfl
    obtain ⟨u', rfl, hrest⟩ := hled.of_number hx hf.text hink ⟨d, hdigit, hdecimal⟩
    refine Or.inl ⟨u', by rw [← ink_append, ink_eq_self hink], ?_⟩
    rwa [hf.right, firstLine_of_not_mem (newline_not_mem_of_skipBlanks ht hf.text)]
  word := by
    intro y b f hy h
    obtain ⟨r, hf⟩ := scientific_eq_some h
    have htext := hf.text
    rw [List.append_assoc] at htext
    obtain ⟨d, hd, -⟩ := hf.digit
    exact exists_cons_of_word hy htext (by rintro hnil; rw [hnil] at hd; cases hd)

theorem ratio_keepsSigns : Probe.KeepsSigns ratio where
  skips := ratio_operand.skips
  led := by
    intro t f u v x y ht h hx hy hled
    obtain ⟨s, r, hf⟩ := ratio_eq_some h
    have hslash : ¬ isSign '/' = true := by decide
    have hink : ∀ c ∈ f.head, isBlank c = false := fun c hc => isBlank_of_isDecimal (hf.digits c hc)
    obtain ⟨d, w, hhead⟩ := List.exists_cons_of_ne_nil hf.nonempty
    have hdigit : ∃ d ∈ f.head.head?, isDecimal d = true :=
      ⟨d, by rw [hhead]; rfl, hf.digits d (by simp [hhead])⟩
    obtain ⟨u', rfl, hrest⟩ := hled.of_number hx hf.text hink hdigit
    rcases hrest.of_skipBlanks (isBlank_of_isSign hx) hf.slash with
      ⟨-, rfl, -⟩ | ⟨u'', rfl, hbehind⟩
    · exact absurd hx hslash
    · have hline : '\n' ∉ r := newline_not_mem_of_skipBlanks (u := ['/'])
        (newline_not_mem_of_skipBlanks ht hf.text) hf.slash
      refine Or.inl ⟨u'', ?_, ?_⟩
      · rw [hf.mid, ink_eq_self hink, ink_cons_of_ink (by decide), ink_nil]
        simp
      · rw [hf.right, remainder_eq hline]
        refine hbehind.dropBlanks (isBlank_of_isSign hx) (isBlank_of_isWord hy) ?_
        rintro d' hd' rfl
        obtain ⟨d, hd, hdecimal⟩ := hf.denominator
        rw [Option.mem_unique hd hd', isDecimal_of_isSign hx] at hdecimal
        cases hdecimal
  word := by
    intro y b f hy h
    obtain ⟨s, r, hf⟩ := ratio_eq_some h
    exact exists_cons_of_word hy hf.text hf.nonempty

/-- Symbols found at a word begin with its first character. -/
theorem symbols?_word {p : Char → Bool} {ps : List (Char → Bool)} {y : Char} {b m r : List Char}
    (hy : isWord y = true) (h : symbols? (p :: ps) (y :: b) = some (m, r)) : p y = true := by
  obtain ⟨c, hc, hclass⟩ := symbols?_head? h
  rw [ink_cons_of_ink (isBlank_of_isWord hy)] at hc
  obtain rfl : y = c := Option.some.inj hc
  exact hclass

/-- Symbols are before the sign, or the last one is the sign. -/
theorem symbols?_led {ps : List (Char → Bool)} (hps : ∀ p ∈ ps, ∀ c, p c = true → isWord c = false)
    {t m r u v : List Char} {x y : Char} (hx : isSign x = true) (hy : isWord y = true)
    (h : symbols? ps t = some (m, r)) (hled : Led u x y v t) :
    (∃ u', u = m ++ u' ∧ Led u' x y v r) ∨ (m = u ++ [x] ∧ ∃ b, r = y :: b ∧ ink b = v) := by
  induction ps generalizing t m u with
  | nil =>
      obtain ⟨rfl, rfl⟩ : [] = m ∧ t = r := by simpa [symbols?] using h
      exact Or.inl ⟨u, rfl, hled⟩
  | cons p ps ih =>
      obtain ⟨c, s, m', hskip, -, hq, rfl⟩ := symbols?_cons_eq_some h
      rcases hled.of_skipBlanks (isBlank_of_isSign hx) hskip with
        ⟨rfl, rfl, b, rfl, rfl⟩ | ⟨u', rfl, hrest⟩
      · -- the word after the sign is no symbol
        cases ps with
        | nil =>
            obtain ⟨rfl, rfl⟩ : [] = m' ∧ y :: b = r := by simpa [symbols?] using hq
            exact Or.inr ⟨rfl, b, rfl, rfl⟩
        | cons p' ps =>
            have hclass := symbols?_word hy hq
            rw [hps p' (by simp) y hclass] at hy
            cases hy
      · rcases ih (fun p' hp' => hps p' (List.mem_cons_of_mem p hp')) hq hrest with
          ⟨u'', rfl, hbehind⟩ | ⟨rfl, hword⟩
        · exact Or.inl ⟨u'', rfl, hbehind⟩
        · exact Or.inr ⟨rfl, hword⟩

theorem skipBlanks_symbols? {p : Char → Bool} {ps : List (Char → Bool)} {c : Char} {t : List Char}
    (hc : isBlank c = true) : symbols? (p :: ps) (c :: t) = symbols? (p :: ps) t := by
  rw [symbols?, symbols?, skipBlanks_cons hc]

theorem isWord_of_signs {ps : List (Char → Bool)} (hps : ∀ p ∈ ps, p = isSign) :
    ∀ p ∈ ps, ∀ c, p c = true → isWord c = false := by
  intro p hp c hc
  rw [hps p hp] at hc
  exact isWord_of_isSign hc

theorem ink_symbols? {ps : List (Char → Bool)} {s m r : List Char}
    (h : symbols? ps s = some (m, r)) : ink m = m :=
  ink_eq_self fun c hc => ((of_symbols? h).2 c hc).1

/-- Symbols are not found at a word. -/
theorem Probe.TakesSymbols.keepsWord {p : Probe} {q : Char → Bool} {ps : List (Char → Bool)}
    (h : p.TakesSymbols (q :: ps)) (hq : ∀ c, q c = true → isWord c = false) : p.KeepsWord := by
  intro y b f hy hf
  obtain ⟨r, hsymbols, -⟩ := h (y :: b) f hf
  rw [hq y (symbols?_word hy hsymbols)] at hy
  cases hy

theorem increment_keepsSigns : Probe.KeepsSigns increment where
  skips := by
    intro c t hc
    simp only [increment, skipBlanks_symbols? hc]
  led := by
    intro t f u v x y ht h hx hy hled
    obtain ⟨r, hsymbols, hhead, hright, hcloser⟩ := increment_eq_some h
    have hline := not_mem_symbols?_rest ht hsymbols
    rcases symbols?_led (isWord_of_signs (by simp)) hx hy hsymbols hled with
      ⟨u', rfl, hbehind⟩ | ⟨-, b, rfl, -⟩
    · refine Or.inl ⟨u', by rw [hhead, ink_symbols? hsymbols]; rfl, ?_⟩
      rw [hright, remainder_eq hline]
      refine hbehind.dropBlanks (isBlank_of_isSign hx) (isBlank_of_isWord hy) ?_
      rintro d hd rfl
      have hsign := isCloser_of_isSign hx
      rw [isCloser, hcloser d hd] at hsign
      cases hsign
    · -- two signs at the end have no word after them
      have hbegins : skipBlanks (y :: b) = y :: b :=
        BeginsInk.skipBlanks_eq ⟨y, rfl, isBlank_of_isWord hy⟩
      have hends := hcloser y (by rw [hbegins]; rfl)
      rw [(of_mem_symbolChars (mem_symbolChars_of_isCloser hends)).2.1] at hy
      cases hy
  word := increment_takesSymbols.keepsWord fun _ => isWord_of_isSign

theorem unarySign_keepsSigns : Probe.KeepsSigns unarySign where
  skips := by
    intro c t hc
    simp only [unarySign, skipBlanks_symbols? hc]
  led := by
    intro t f u v x y ht h hx hy hled
    obtain ⟨c, r, hsymbols, -, hhead, hright⟩ := unarySign_eq_some h
    rw [firstLine_of_not_mem (not_mem_symbols?_rest ht hsymbols)] at hright
    rcases symbols?_led (isWord_of_signs (by simp)) hx hy hsymbols hled with
      ⟨u', rfl, hbehind⟩ | ⟨hmid, b, hword, rfl⟩
    · exact Or.inl ⟨u', by rw [hhead, ink_symbols? hsymbols]; rfl, hright ▸ hbehind⟩
    · obtain rfl : u = [] := by
        have hlength := (of_symbols? hsymbols).1
        rw [hmid, List.length_append] at hlength
        exact List.length_eq_zero_iff.1 (Nat.add_right_cancel hlength)
      exact Or.inr ⟨rfl, hhead, hmid, b, hright.trans hword, rfl⟩
  word := unarySign_takesSymbols.keepsWord fun _ => isWord_of_isSign

end Pcode.Spacing
