import Pcode.Proofs.Spacing.Sign.Probe

set_option autoImplicit false

/-! # Spacing and signs

Code, that is a line without quotes and comment signs, is cut by the first rule that finds
something. So where a rule is known to find something, only that rule and those before it count
(`Code.exists_mem_take`).

* A sign with a blank in front of it and a word after it is found by the rule for such signs. The
  rules up to that one leave it where it is (`Rule.cut?_led`), or cut it out between what is left of
  it and the word, to which no blank is added (`beginsInk_format_of_word`).
* A sign is found in any case by the rule for operators. The rules up to that one do not cut out
  what closes an element, and blanks in front of that are dropped (`beginsInk_format_of_closer`).

Main statements: a sign with a blank in front stays with the word that follows it
(`joined_format_of_led`), and any sign with the closing bracket or separator that comes after it
(`joined_format_of_closer`). -/

namespace Pcode.Spacing

open Pcode.Text

/-! ## Code -/

/-- Code: a line without quotes and comment signs. -/
def Code (s : List Char) : Prop := ∀ c ∈ ['\'', '"', '%', '\n'], c ∉ s

instance (s : List Char) : Decidable (Code s) :=
  decidable_of_iff ((['\'', '"', '%', '\n'].all fun c => !s.contains c) = true) (by simp [Code])

namespace Code

variable {s : List Char}

theorem newline_not_mem (hs : Code s) : '\n' ∉ s := hs _ (by simp)

theorem respaced {t : List Char} (hs : Code s) (h : Respaced s t) : Code t := by
  intro c hc
  apply h.not_mem (hs c hc)
  rintro rfl
  exact absurd hc (by decide)

theorem sides (hs : Code s) {c : Cut} (h : cut? s = some c) : Code c.left ∧ Code c.right := by
  have hall : Code (c.left ++ c.mid ++ c.right) :=
    hs.respaced (cut?_respaces hs.newline_not_mem h)
  constructor
  · exact fun d hd hmem => hall d hd (by simp [hmem])
  · exact fun d hd hmem => hall d hd (by simp [hmem])

theorem cut?_eq (hs : Code s) (hink : s.all isBlank = false) :
    cut? s = (inkRules.findSome? fun r => r.cut? s).or (blankRunRule.cut? s) := by
  have hquoted : quotedCut? s = none :=
    quotedCut?_eq_none (hs _ (by simp)) (hs _ (by simp)) (hs _ (by simp))
  rw [cut?_of_ink hink, hquoted, Option.none_or]

/-- A rule cuts, or there is a run of blanks. -/
theorem cut?_cases (hs : Code s) (hink : s.all isBlank = false) {c : Cut} (h : cut? s = some c) :
    (∃ r ∈ inkRules, r.cut? s = some c) ∨ blankRunRule.cut? s = some c := by
  rw [hs.cut?_eq hink, Option.or_eq_some_iff] at h
  rcases h with hrule | ⟨-, hrun⟩
  · exact Or.inl (List.exists_of_findSome?_eq_some hrule)
  · exact Or.inr hrun

/-- Where one of the first rules finds something, one of the first rules cuts. -/
theorem exists_mem_take (hs : Code s) (hink : s.all isBlank = false) {n : Nat} {r : Rule}
    (hr : r ∈ inkRules.take n) (hfound : r.cut? s ≠ none) :
    ∃ c, cut? s = some c ∧ ∃ r' ∈ inkRules.take n, r'.cut? s = some c := by
  have hsplit : (inkRules.findSome? fun r => r.cut? s) =
      ((inkRules.take n).findSome? fun r => r.cut? s).or
        ((inkRules.drop n).findSome? fun r => r.cut? s) := by
    rw [← List.findSome?_append, List.take_append_drop]
  cases hfirst : (inkRules.take n).findSome? fun r => r.cut? s with
  | none => exact absurd (List.findSome?_eq_none_iff.1 hfirst r hr) hfound
  | some c =>
      refine ⟨c, ?_, List.exists_of_findSome?_eq_some hfirst⟩
      rw [hs.cut?_eq hink, hsplit, hfirst]
      rfl

end Code

theorem ink_format {s : List Char} (hs : Code s) : ink (format s) = ink s :=
  (respaced_format hs.newline_not_mem).ink_eq

/-- Ink at the start of a text that is put in order. -/
theorem exists_of_beginsInk_format {s q : List Char} {y : Char} (hs : Code s)
    (h : BeginsInk (format s)) (hink : ink s = y :: q) :
    ∃ b, format s = y :: b ∧ ink b = q := by
  obtain ⟨c, b, hformat, hc⟩ := h.exists_cons
  have hall := ink_format hs
  rw [hformat, ink_cons_of_ink hc, hink] at hall
  obtain ⟨rfl, rfl⟩ := List.cons.inj hall
  exact ⟨b, hformat, rfl⟩

/-- Two neighbours in the left part of a cut. -/
theorem Joined.of_left {p q : List Char} {x y : Char} {c : Cut} (hright : Code c.right)
    (h : Joined p x y q (format c.left)) :
    Joined p x y (q ++ ink (c.mid ++ c.right)) (format c.left ++ c.mid ++ format c.right) := by
  have hall := h.append_right (c.mid ++ format c.right)
  rw [ink_append, ink_format hright, ← ink_append] at hall
  rwa [List.append_assoc]

/-- Two neighbours in the right part of a cut. -/
theorem Joined.of_right {p q : List Char} {x y : Char} {c : Cut} (hleft : Code c.left)
    (h : Joined p x y q (format c.right)) :
    Joined (ink (c.left ++ c.mid) ++ p) x y q (format c.left ++ c.mid ++ format c.right) := by
  have hall := h.append_left (format c.left ++ c.mid)
  rwa [ink_append, ink_format hleft, ← ink_append] at hall

/-! ## Words -/

theorem Probe.Symbolic.keepsWord {p : Probe} (hp : p.Symbolic) : p.KeepsWord := by
  intro y b f hy h
  obtain ⟨c, hc, hsymbol⟩ := hp.starts (y :: b) f h
  rw [ink_cons_of_ink (isBlank_of_isWord hy)] at hc
  obtain rfl : y = c := Option.some.inj hc
  rw [(of_mem_symbolChars hsymbol).2.1] at hy
  cases hy

theorem inkRules_keepsWord : ∀ r ∈ inkRules, Probe.KeepsWord r.probe := by
  intro r hr
  rcases inkRules_cases r hr with hsymbolic | ⟨hnumber | hnumber, -⟩
  · exact hsymbolic.keepsWord
  · rw [hnumber]
    exact scientific_keepsSigns.word
  · rw [hnumber]
    exact ratio_keepsSigns.word

theorem blankRun_keepsWord : Probe.KeepsWord blankRun := by
  intro y b f hy h
  simp [blankRun, isBlank_of_isWord hy] at h

theorem Rule.cut?_word {r : Rule} (hr : Probe.KeepsWord r.probe) {y : Char} {b : List Char}
    {c : Cut} (hy : isWord y = true) (h : r.cut? (y :: b) = some c) :
    ∃ l, c.left = y :: l := by
  obtain ⟨lead, t, f, -, hsplit, ht, rfl⟩ := Rule.cut?_eq_some h
  cases lead with
  | nil =>
      rw [List.nil_append] at hsplit
      rw [← hsplit] at ht
      obtain ⟨w, hw⟩ := hr y b f hy ht
      rw [hw]
      exact ⟨_, rfl⟩
  | cons d lead =>
      obtain ⟨rfl, -⟩ := List.cons.inj hsplit
      exact ⟨_, rfl⟩

/-- No blank is added in front of a word. -/
theorem beginsInk_format_of_word {s : List Char} (hs : Code s)
    (hword : ∃ y b, s = y :: b ∧ isWord y = true) : BeginsInk (format s) := by
  induction s using Cutter.tree.induct spacing with
  | case1 s huncut =>
      obtain ⟨y, b, rfl, hy⟩ := hword
      rw [format_of_uncut huncut]
      exact ⟨y, rfl, isBlank_of_isWord hy⟩
  | case2 s c hcut _ ihleft _ =>
      obtain ⟨y, b, rfl, hy⟩ := hword
      have hleft : ∃ l, c.left = y :: l := by
        rcases hs.cut?_cases (by simp [isBlank_of_isWord hy]) hcut with ⟨r, hr, hrule⟩ | hrun
        · exact Rule.cut?_word (inkRules_keepsWord r hr) hy hrule
        · exact Rule.cut?_word (r := blankRunRule) blankRun_keepsWord hy hrun
      obtain ⟨l, hl⟩ := hleft
      rw [format_of_cut hcut]
      exact ((ihleft (hs.sides hcut).1 ⟨y, l, hl, hy⟩).append c.mid).append (format c.right)

/-! ## Signs before words -/

/-- The rules for numbers and signs. -/
theorem signRules_keepsSigns : ∀ r ∈ inkRules.take 4,
    Probe.KeepsSigns r.probe ∧ r.padLeft = false ∧ r.padRight = false := by
  intro r hr
  simp only [inkRules, List.take_succ_cons, List.take_zero, List.mem_cons, List.not_mem_nil,
    or_false] at hr
  rcases hr with rfl | rfl | rfl | rfl
  · exact ⟨scientific_keepsSigns, rfl, rfl⟩
  · exact ⟨ratio_keepsSigns, rfl, rfl⟩
  · exact ⟨increment_keepsSigns, rfl, rfl⟩
  · exact ⟨unarySign_keepsSigns, rfl, rfl⟩

section

variable {p q s : List Char} {x y : Char}

/-- Where a rule for numbers and signs leaves a sign: left of the middle, right of it, or it is the
middle itself and the word comes right after it. -/
theorem Rule.cut?_led {r : Rule} (hr : r ∈ inkRules.take 4) {c : Cut} (hs : '\n' ∉ s)
    (h : r.cut? s = some c) (hx : isSign x = true) (hy : isWord y = true) (hled : Led p x y q s) :
    (∃ q', q = q' ++ ink (c.mid ++ c.right) ∧ Led p x y q' c.left) ∨
      (∃ p', p = ink (c.left ++ c.mid) ++ p' ∧ Led p' x y q c.right) ∨
      c.mid = [x] ∧ ink c.left = p ∧ ∃ b, c.right = y :: b ∧ ink b = q := by
  obtain ⟨hkeeps, hpadLeft, hpadRight⟩ := signRules_keepsSigns r hr
  obtain ⟨lead, t, f, -, rfl, ht, rfl⟩ := Rule.cut?_eq_some h
  have hline : '\n' ∉ t := fun hmem => hs (List.mem_append_right lead hmem)
  have hink : ink t = ink f.head ++ ink (f.mid ++ f.right) := by
    have hpieces := (inkRules_respaces r (List.mem_of_mem_take hr) t f hline ht).ink_eq
    rw [← hpieces, List.append_assoc, ink_append]
  rw [hpadLeft, hpadRight]
  simp only [if_false, Bool.false_eq_true, List.append_nil, List.nil_append]
  rcases hled.of_append with ⟨q', rfl, hlead⟩ | ⟨p', rfl, hrest⟩ |
    ⟨a, g, b, rfl, hg, rfl, rfl, rfl⟩ | ⟨a, g, b, rfl, hg, rfl, rfl, rfl⟩
  · refine Or.inl ⟨q' ++ ink f.head, ?_, hlead.append_right f.head⟩
    rw [hink, List.append_assoc]
  · rcases hkeeps.led t f p' q x y hline ht hx hy hrest with
      ⟨u, rfl, hright⟩ | ⟨rfl, hhead, hmid, b, hb, rfl⟩
    · refine Or.inr (Or.inl ⟨u, ?_, hright⟩)
      simp only [ink_append, List.append_assoc]
    · exact Or.inr (Or.inr ⟨hmid, by simp [hhead], b, hb, rfl⟩)
  · -- the blank ends the lead, and the probe would skip it
    rw [← hkeeps.skips g _ hg] at ht
    have hblank : '\n' ∉ g :: x :: y :: b := fun hmem => hs (by simpa using Or.inr hmem)
    have hrest : Led [] x y (ink b) (g :: x :: y :: b) := ⟨[], g, b, rfl, hg, rfl, rfl⟩
    rcases hkeeps.led _ f [] (ink b) x y hblank ht hx hy hrest with
      ⟨u, hu, hright⟩ | ⟨-, hhead, hmid, b', hb', hb⟩
    · refine Or.inr (Or.inl ⟨u, ?_, hright⟩)
      calc ink a = ink (a ++ [g]) ++ [] := by
            rw [ink_append, ink_cons_of_isBlank hg, ink_nil, List.append_nil, List.append_nil]
        _ = ink (a ++ [g]) ++ (ink f.head ++ ink f.mid ++ u) := by rw [← hu]
        _ = ink (a ++ [g] ++ f.head ++ f.mid) ++ u := by simp only [ink_append, List.append_assoc]
    · refine Or.inr (Or.inr ⟨hmid, ?_, b', hb', hb⟩)
      rw [hhead, List.append_nil, ink_append, ink_cons_of_isBlank hg, ink_nil, List.append_nil]
  · -- the sign ends the lead, and the word belongs to the lead
    obtain ⟨w, hw⟩ := hkeeps.word y b f hy ht
    rw [hw, ink_cons_of_ink (isBlank_of_isWord hy), ink_cons_of_ink (isBlank_of_isWord hy)] at hink
    obtain ⟨-, hrest⟩ := List.cons.inj hink
    refine Or.inl ⟨ink w, hrest, a, g, w, ?_, hg, rfl, rfl⟩
    simp [hw]

/-- Signs before words are found. -/
theorem unarySign_cut?_ne_none (hs : '\n' ∉ s) (hx : isSign x = true) (hy : isWord y = true)
    (hled : Led p x y q s) :
    Rule.cut? ⟨false, isBeforeSign, unarySign, false, false⟩ s ≠ none := by
  obtain ⟨a, g, b, rfl, hg, -, -⟩ := hled
  refine Rule.cut?_ne_none (Or.inr ?_)
  have hbegins : skipBlanks (x :: y :: b) = x :: y :: b :=
    BeginsInk.skipBlanks_eq ⟨x, rfl, isBlank_of_isSign hx⟩
  have hfound : unarySign (x :: y :: b) = some ⟨[], [x], y :: firstLine b⟩ := by
    simp [unarySign, symbols?, hbegins, hx, hy]
  exact lastSplit_ne_none (fun hmem => hs (List.mem_append_left _ hmem))
    (by simp [isBeforeSign, hg]) hfound

/-- **A sign stays with the word after it.** -/
theorem joined_format_of_led (hs : Code s) (hx : isSign x = true) (hy : isWord y = true)
    (hled : Led p x y q s) : Joined p x y q (format s) := by
  induction s using Cutter.tree.induct spacing generalizing p q with
  | case1 s huncut =>
      rw [format_of_uncut huncut]
      exact hled.joined
  | case2 s c hcut _ ihleft ihright =>
      have hink : s.all isBlank = false := by
        by_contra hblank
        have hnone := (ink_eq_nil_iff s).2 (by simpa using hblank)
        rw [hled.ink_eq (isBlank_of_isSign hx) (isBlank_of_isWord hy)] at hnone
        simp at hnone
      obtain ⟨hleft, hright⟩ := hs.sides hcut
      obtain ⟨c', hcut', r, hr, hrule⟩ := hs.exists_mem_take (n := 4) hink (by simp [inkRules])
        (unarySign_cut?_ne_none hs.newline_not_mem hx hy hled)
      obtain rfl : c = c' := Option.some.inj (hcut.symm.trans hcut')
      rw [format_of_cut hcut]
      rcases Rule.cut?_led hr hs.newline_not_mem hrule hx hy hled with
        ⟨q', rfl, hinner⟩ | ⟨p', rfl, hinner⟩ | ⟨hmid, rfl, b, hb, rfl⟩
      · exact (ihleft hleft hinner).of_left hright
      · exact (ihright hright hinner).of_right hleft
      · have hbegins := beginsInk_format_of_word hright ⟨y, b, hb, hy⟩
        have hword : ink c.right = y :: ink b := by
          rw [hb, ink_cons_of_ink (isBlank_of_isWord hy)]
        obtain ⟨b', hformat, hb'⟩ := exists_of_beginsInk_format hright hbegins hword
        refine ⟨format c.left, b', ?_, ink_format hleft, hb'⟩
        rw [hmid, hformat]
        simp

end

/-! ## Closing brackets and separators -/

/-- The characters of operators and opening brackets. -/
def innerChars : List Char :=
  ['.', '+', '-', '*', '\\', '/', '=', '<', '>', '|', '&', '!', '~', '^', ':', '(', '[', '{']

theorem isCloser_of_mem_innerChars {c : Char} (h : c ∈ innerChars) : isCloser c = false := by
  have hall : ∀ c ∈ innerChars, (!isCloser c) = true := List.all_eq_true.1 (by decide)
  simpa using hall c h

/-- A probe does not find what closes an element: neither at the start nor in the middle, which has
no blanks either. -/
structure Probe.Inner (p : Probe) : Prop where
  starts : p.Starts fun c => isCloser c = false
  mid : ∀ t f, p t = some f → ∀ c ∈ f.mid, isBlank c = false ∧ isCloser c = false

theorem Probe.TakesSymbols.inner {p : Probe} {ps : List (Char → Bool)} (h : p.TakesSymbols ps)
    (hne : ps ≠ []) (hps : ∀ q ∈ ps, ∀ c, q c = true → c ∈ innerChars) : p.Inner where
  starts := by
    intro t f hf
    obtain ⟨c, hc, q, hq, hclass⟩ := h.starts hne t f hf
    exact ⟨c, hc, isCloser_of_mem_innerChars (hps q hq c hclass)⟩
  mid := by
    intro t f hf c hc
    obtain ⟨r, hsymbols, -⟩ := h t f hf
    obtain ⟨hblank, q, hq, hclass⟩ := (of_symbols? hsymbols).2 c hc
    exact ⟨hblank, isCloser_of_mem_innerChars (hps q hq c hclass)⟩

theorem Probe.Operand.inner {p : Probe} (hp : p.Operand)
    (hmid : ∀ t f, p t = some f → ∀ c ∈ f.mid, c ∈ ['e', 'E', '+', '-', '/']) : p.Inner where
  starts := by
    intro t f h
    obtain ⟨c, hc, hkind⟩ := hp.starts t f h
    refine ⟨c, hc, ?_⟩
    by_contra hcloser
    obtain ⟨hoperand, -, hdecimal, -⟩ :=
      of_mem_symbolChars (mem_symbolChars_of_isCloser (by simpa using hcloser))
    rcases hkind with hquote | hdigit
    · rw [isOperand, hquote, Bool.or_true] at hoperand
      cases hoperand
    · rw [hdigit] at hdecimal
      cases hdecimal
  mid := by
    have hmarks : ∀ c ∈ ['e', 'E', '+', '-', '/'], (!isBlank c && !isCloser c) = true :=
      List.all_eq_true.1 (by decide)
    intro t f h c hc
    simpa using hmarks c (hmid t f h c hc)

theorem scientific_inner : Probe.Inner scientific := by
  apply scientific_operand.inner
  intro t f h c hc
  obtain ⟨r, hf⟩ := scientific_eq_some h
  exact List.mem_append_left ['/'] (hf.mem_mid c hc)

theorem ratio_inner : Probe.Inner ratio := by
  apply ratio_operand.inner
  intro t f h c hc
  obtain ⟨u, r, hf⟩ := ratio_eq_some h
  rw [hf.mid] at hc
  exact List.mem_append_right ['e', 'E', '+', '-'] hc

/-- The rules up to those for opening brackets. -/
theorem innerRules : ∀ r ∈ inkRules.take 13, Probe.Inner r.probe := by
  intro r hr
  simp only [inkRules, List.take_succ_cons, List.take_zero, List.mem_cons, List.not_mem_nil,
    or_false] at hr
  rcases hr with rfl | rfl | rfl | rfl | rfl | rfl | rfl | rfl | rfl | rfl | rfl | rfl | rfl
  · exact scientific_inner
  · exact ratio_inner
  · exact increment_takesSymbols.inner (by simp) (by simp [isSign, innerChars, or_imp, forall_and])
  · exact unarySign_takesSymbols.inner (by simp) (by simp [isSign, innerChars, or_imp, forall_and])
  · exact (operator_takesSymbols _).inner (by simp) (by simp [innerChars])
  · exact (operator_takesSymbols _).inner (by simp)
      (by simp [isSign, innerChars, or_imp, forall_and])
  · exact (operator_takesSymbols _).inner (by simp) (by simp [innerChars])
  · exact (operator_takesSymbols _).inner (by simp) (by simp [innerChars])
  · exact (operator_takesSymbols _).inner (by simp)
      (by simp [isPairHead, isPairTail, innerChars, or_imp, forall_and])
  · exact (operator_takesSymbols _).inner (by simp) (by simp [innerChars, or_imp, forall_and])
  · exact (operator_takesSymbols _).inner (by simp)
      (by simp [isOperator, innerChars, or_imp, forall_and])
  · exact callOpening_takesSymbols.inner (by simp)
      (by simp [isOpening, innerChars, or_imp, forall_and])
  · exact opening_takesSymbols.inner (by simp) (by simp [isOpening, innerChars, or_imp, forall_and])

/-- A rule passes what closes an element, or it is one of the two that cut it out. -/
theorem inkRules_closers : ∀ r ∈ inkRules, Probe.Inner r.probe ∨
    r.ends = isInk ∧ r.padLeft = false ∧ ∃ p, Probe.TakesSymbols r.probe [p] := by
  intro r hr
  rw [← List.take_append_drop 13 inkRules, List.mem_append] at hr
  rcases hr with hr | hr
  · exact Or.inl (innerRules r hr)
  · simp only [inkRules, List.drop_succ_cons, List.drop_zero, List.mem_cons, List.not_mem_nil,
      or_false] at hr
    rcases hr with rfl | rfl | rfl
    · exact Or.inr ⟨rfl, rfl, _, closing_takesSymbols⟩
    · exact Or.inr ⟨rfl, rfl, _, operator_takesSymbols _⟩
    · exact Or.inl (ellipsis_takesSymbols.inner (by simp) (by simp [innerChars]))

/-- A rule that skips blanks finds a character anywhere. -/
theorem Rule.cut?_ne_none_of_blanks {r : Rule} (hempty : r.emptyLead = true)
    (hends : r.ends = isInk) {v w : List Char} {x : Char} (hv : '\n' ∉ v)
    (hfound : ∀ g, g.all isBlank = true → r.probe (g ++ x :: w) ≠ none) :
    r.cut? (v ++ x :: w) ≠ none := by
  apply Rule.cut?_ne_none
  rcases List.eq_nil_or_concat' (ink v) with hnil | ⟨p, d, hlast⟩
  · exact Or.inl ⟨hempty, hfound v ((ink_eq_nil_iff v).1 hnil)⟩
  · -- the lead ends in the last ink before the blanks
    obtain ⟨a, g, rfl, hg, -⟩ := exists_of_ink_eq_concat hlast
    have hd : d ∈ ink (a ++ d :: g) := by
      simp [hlast]
    obtain ⟨f, hf⟩ := Option.ne_none_iff_exists'.1 (hfound g hg)
    refine Or.inr ?_
    rw [List.append_assoc, List.cons_append]
    apply lastSplit_ne_none (fun hmem => hv (List.mem_append_left _ hmem)) _ hf
    rw [hends]
    exact (List.mem_filter.1 hd).2

theorem symbols?_of_blanks {p : Char → Bool} {g w : List Char} {x : Char}
    (hg : g.all isBlank = true) (hx : isBlank x = false) (hp : p x = true) :
    symbols? [p] (g ++ x :: w) = some ([x], w) := by
  have hskip : skipBlanks (g ++ x :: w) = x :: w := by
    rw [skipBlanks_append_of_blank hg]
    exact BeginsInk.skipBlanks_eq ⟨x, rfl, hx⟩
  simp [symbols?, hskip, hp]

theorem operator_ne_none_of_blanks {p : Char → Bool} {w : List Char} {x : Char}
    (hx : isBlank x = false) (hp : p x = true) :
    ∀ g, g.all isBlank = true → operator [p] (g ++ x :: w) ≠ none := by
  intro g hg
  rw [operator, symbols?_of_blanks hg hx hp]
  simp

theorem exists_cut?_of_closer {s q : List Char} {y : Char} (hs : Code s) (hy : isCloser y = true)
    (hink : ink s = y :: q) : ∃ c, cut? s = some c ∧ ∃ r ∈ inkRules, r.cut? s = some c := by
  obtain ⟨g, b, rfl, hg, -⟩ := exists_of_ink_eq_cons hink
  have hyink : isBlank y = false :=
    (of_mem_symbolChars (mem_symbolChars_of_isCloser hy)).2.2.2
  have hline : '\n' ∉ g := fun hmem => hs.newline_not_mem (List.mem_append_left _ hmem)
  have hfound : ∃ r ∈ inkRules.take 16, r.cut? (g ++ y :: b) ≠ none := by
    rw [isCloser, Bool.or_assoc, Bool.or_eq_true] at hy
    rcases hy with hy | hy
    · refine ⟨⟨true, isInk, closing, false, false⟩, by simp [inkRules], ?_⟩
      apply Rule.cut?_ne_none_of_blanks rfl rfl hline
      intro g hg
      simp only [closing, symbols?_of_blanks hg hyink hy]
      simp
    · refine ⟨⟨true, isInk, operator [fun c => c == ',' || c == ';'], false, true⟩,
        by simp [inkRules], ?_⟩
      exact Rule.cut?_ne_none_of_blanks rfl rfl hline (operator_ne_none_of_blanks hyink hy)
  obtain ⟨r, hr, hcut⟩ := hfound
  obtain ⟨c, hc, r', hr', hrule⟩ := hs.exists_mem_take (by simp [hyink]) hr hcut
  exact ⟨c, hc, r', List.mem_of_mem_take hr', hrule⟩

/-- What closes an element at the start of a text is cut out with nothing left of it, or it stays on
the left. -/
theorem Rule.cut?_closer {r : Rule} (hr : r ∈ inkRules) {s q : List Char} {y : Char} {c : Cut}
    (hy : isCloser y = true) (hink : ink s = y :: q) (h : r.cut? s = some c) :
    (c.left = [] ∧ BeginsInk c.mid) ∨ ∃ q', ink c.left = y :: q' := by
  obtain ⟨lead, t, f, hsplit, rfl, ht, rfl⟩ := Rule.cut?_eq_some h
  cases hlead : ink lead with
  | nil =>
      -- the probe is one for what closes an element, and a lead of blanks is none for it
      rw [ink_append, hlead, List.nil_append] at hink
      rcases inkRules_closers r hr with hinner | ⟨hends, hpad, p, hsymbols⟩
      · obtain ⟨d, hd, hcloser⟩ := hinner.starts t f ht
        rw [hink] at hd
        obtain rfl : y = d := Option.some.inj hd
        rw [hy] at hcloser
        cases hcloser
      · obtain rfl : lead = [] := by
          rcases Rule.split?_lead hsplit with hnil | ⟨v, d, rfl, hd⟩
          · exact hnil
          · have hblank := (ink_eq_nil_iff _).1 hlead
            rw [hends, isInk] at hd
            simp_all
        obtain ⟨u, hu, hhead, -⟩ := hsymbols t f ht
        obtain ⟨hlength, hmid⟩ := of_symbols? hu
        obtain ⟨d, hd⟩ := List.length_eq_one_iff.1 hlength
        refine Or.inl ⟨by simp [hhead, hpad], d, by rw [hd]; rfl, (hmid d ?_).1⟩
        rw [hd]
        exact List.mem_cons_self
  | cons d q' =>
      rw [ink_append, hlead] at hink
      obtain ⟨rfl, -⟩ := List.cons.inj hink
      refine Or.inr ⟨q' ++ ink (f.head ++ if r.padLeft then [' '] else []), ?_⟩
      rw [List.append_assoc, ink_append, hlead]
      rfl

/-- Blanks in front of what closes an element are dropped. -/
theorem beginsInk_format_of_closer {s q : List Char} {y : Char} (hs : Code s)
    (hy : isCloser y = true) (hink : ink s = y :: q) : BeginsInk (format s) := by
  induction s using Cutter.tree.induct spacing generalizing q with
  | case1 s huncut =>
      obtain ⟨c, hcut, -⟩ := exists_cut?_of_closer hs hy hink
      cases huncut.symm.trans hcut
  | case2 s c hcut _ ihleft _ =>
      obtain ⟨c', hcut', r, hr, hrule⟩ := exists_cut?_of_closer hs hy hink
      obtain rfl : c = c' := Option.some.inj (hcut.symm.trans hcut')
      rw [format_of_cut hcut]
      rcases Rule.cut?_closer hr hy hink hrule with ⟨hnil, hmid⟩ | ⟨q', hleft⟩
      · have hformat : format [] = [] := format_of_uncut rfl
        rw [hnil, hformat, List.nil_append]
        exact hmid.append (format c.right)
      · exact ((ihleft (hs.sides hcut).1 hleft).append c.mid).append (format c.right)

/-! ## Signs before closing brackets and separators -/

/-- Two neighbours in a list of two parts. -/
theorem append_eq_append_pair {α : Type} {s t p q : List α} {x y : α}
    (h : s ++ t = p ++ x :: y :: q) :
    (∃ q', s = p ++ x :: y :: q' ∧ q = q' ++ t) ∨ (∃ p', p = s ++ p' ∧ t = p' ++ x :: y :: q) ∨
      s = p ++ [x] ∧ t = y :: q := by
  rcases List.append_eq_append_iff.1 h with ⟨w, hp, ht⟩ | ⟨w, rfl, hw⟩
  · exact Or.inr (Or.inl ⟨w, hp, ht⟩)
  · cases w with
    | nil => exact Or.inr (Or.inl ⟨[], by simp, hw.symm⟩)
    | cons x' w =>
        obtain ⟨rfl, hrest⟩ := List.cons.inj hw
        cases w with
        | nil => exact Or.inr (Or.inr ⟨rfl, hrest.symm⟩)
        | cons y' w =>
            obtain ⟨rfl, rfl⟩ := List.cons.inj hrest
            exact Or.inl ⟨w, rfl, rfl⟩

theorem isOperator_of_isSign {x : Char} (h : isSign x = true) : isOperator x = true := by
  rw [isSign, Bool.or_eq_true, beq_iff_eq, beq_iff_eq] at h
  rcases h with rfl | rfl
  · decide
  · decide

/-- Where there is a sign, the middle of the cut does not close an element. -/
theorem exists_cut?_of_sign {s : List Char} {x : Char} (hs : Code s) (hx : isSign x = true)
    (hmem : x ∈ s) : ∃ c, cut? s = some c ∧ c.mid ≠ [] ∧
      ∀ d ∈ c.mid, isBlank d = false ∧ isCloser d = false := by
  obtain ⟨v, w, rfl⟩ := List.append_of_mem hmem
  have hxink := isBlank_of_isSign hx
  have hfound : Rule.cut? ⟨true, isInk, operator [isOperator], true, true⟩ (v ++ x :: w) ≠ none :=
    Rule.cut?_ne_none_of_blanks rfl rfl
      (fun hline => hs.newline_not_mem (List.mem_append_left _ hline))
      (operator_ne_none_of_blanks hxink (isOperator_of_isSign hx))
  obtain ⟨c, hcut, r, hr, hrule⟩ :=
    hs.exists_mem_take (n := 13) (by simp [hxink]) (by simp [inkRules]) hfound
  obtain ⟨lead, t, f, -, -, ht, rfl⟩ := Rule.cut?_eq_some hrule
  refine ⟨_, hcut, ?_, (innerRules r hr).mid t f ht⟩
  intro hnil
  change f.mid = [] at hnil
  have hpos := (inkRules_takesInk r (List.mem_of_mem_take hr) t f ht).1
  rw [hnil] at hpos
  exact absurd hpos (by decide)

/-- **A sign stays with what closes its element.** -/
theorem joined_format_of_closer {p q s : List Char} {x y : Char} (hs : Code s)
    (hx : isSign x = true) (hy : isCloser y = true) (hink : ink s = p ++ x :: y :: q) :
    Joined p x y q (format s) := by
  induction s using Cutter.tree.induct spacing generalizing p q with
  | case1 s huncut =>
      have hmem : x ∈ ink s := by simp [hink]
      obtain ⟨c, hcut, -⟩ := exists_cut?_of_sign hs hx (List.mem_filter.1 hmem).1
      cases huncut.symm.trans hcut
  | case2 s c hcut _ ihleft ihright =>
      have hmem : x ∈ ink s := by simp [hink]
      obtain ⟨c', hcut', hne, hmid⟩ := exists_cut?_of_sign hs hx (List.mem_filter.1 hmem).1
      obtain rfl : c = c' := Option.some.inj (hcut.symm.trans hcut')
      obtain ⟨hleft, hright⟩ := hs.sides hcut
      have hmidink : ink c.mid = c.mid := ink_eq_self fun d hd => (hmid d hd).1
      have hcloser : y ∉ c.mid := by
        intro hd
        rw [(hmid y hd).2] at hy
        cases hy
      have hparts : ink (c.left ++ c.mid) ++ ink c.right = p ++ x :: y :: q := by
        rw [← ink_append, ← hink]
        exact (cut?_respaces hs.newline_not_mem hcut).ink_eq
      rw [format_of_cut hcut]
      rcases append_eq_append_pair hparts with ⟨q', hfirst, rfl⟩ | ⟨p', rfl, hsecond⟩ |
        ⟨hfirst, hsecond⟩
      · rw [ink_append, hmidink] at hfirst
        rcases append_eq_append_pair hfirst with ⟨q'', hinner, rfl⟩ | ⟨p', -, hinner⟩ |
          ⟨-, hinner⟩
        · have hall := (ihleft hleft hinner).of_left hright
          rwa [ink_append, hmidink, ← List.append_assoc] at hall
        · exact absurd (by simp [hinner]) hcloser
        · exact absurd (by simp [hinner]) hcloser
      · exact (ihright hright hsecond).of_right hleft
      · -- the sign ends the middle, and what closes the element begins the right part
        obtain ⟨b, hformat, hb⟩ := exists_of_beginsInk_format hright
          (beginsInk_format_of_closer hright hy hsecond) hsecond
        obtain ⟨m, z, hm⟩ := (List.eq_nil_or_concat' c.mid).resolve_left hne
        rw [ink_append, hmidink, hm, ← List.append_assoc] at hfirst
        obtain ⟨rfl, hz⟩ := List.append_inj' hfirst rfl
        obtain rfl := List.singleton_inj.1 hz
        refine ⟨format c.left ++ m, b, ?_, ?_, hb⟩
        · rw [hm, hformat]
          simp
        · have hink' : ink m = m := ink_eq_self fun d hd => (hmid d (by simp [hm, hd])).1
          rw [ink_append, ink_format hleft, hink']

end Pcode.Spacing
