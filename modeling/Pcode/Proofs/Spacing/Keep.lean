import Pcode.Proofs.Spacing.Step

set_option autoImplicit false

/-! # What becomes of the gaps

At a *plain* place of a text no character stands that would take in a blank beside it. In clear code
the gaps at plain places are kept (`Clear.gapAt_format`), and of a sign that belongs to a word the
word stays (`Clear.gapAt_format_word`). Whether the gap in front of such a sign is kept depends on
the ink there: it is lost behind a power or a negation and behind a pair of signs
(`Clear.gapAt_format_of_wavers`) and kept behind all else (`Clear.gapAt_format_sign`). A sign that
does not belong to the word behind it is set apart (`Clear.gapAt_format_loose`). -/

namespace Pcode.Spacing

open Pcode.Text

/-! ## Classes of symbols -/

/-- The characters that views take. -/
def markChars : List Char := '.' :: loudChars

/-- A character that takes in the blanks behind it. -/
def absorbsBehind (c : Char) : Bool := loudChars.contains c && !isClosing c

/-- A character that takes in the blanks in front of it. -/
def absorbsBefore (c : Char) : Bool := loudChars.contains c && !isOpening c

/-- A character that makes an operator with a dot in front of it. -/
def isDotTail (c : Char) : Bool := isPairTail c || c == '^'

/-- A character that is written with nothing behind it. -/
def isTightened (c : Char) : Bool := c == '^' || c == '!' || c == '~'

/-- A character that is written with a blank behind it, though no sign may follow. -/
def isPadded (c : Char) : Bool :=
  c == '\\' || c == '<' || c == '>' || c == '|' || c == '&' || isSign c

theorem mem_markChars {v : View} (hv : v ∈ views) {q : Char → Bool} (hq : q ∈ v.takes) {c : Char}
    (hc : q c = true) : c ∈ markChars := by
  have hall : ∀ v ∈ views, ∀ q ∈ v.takes, ∀ c, q c = true → c ∈ markChars := by
    simp [views, incrementView, signView, colonView, dotEqualsView, dotPowerView, powerView,
      pairView, negationView, operatorView, callView, openingView, closingView, separatorView,
      symbolView, inkView, isSign, isPairHead, isPairTail, isOperator, isOpening, isClosing,
      markChars, loudChars, or_imp, forall_and]
  exact hall v hv q hq c hc

theorem isWord_of_mem_markChars {c : Char} (h : c ∈ markChars) : isWord c = false := by
  have hall : ∀ c ∈ markChars, (!isWord c) = true := List.all_eq_true.1 (by decide)
  simpa using hall c h

/-! ## What a view takes -/

theorem inkAt_of_fits {ps : List (Char → Bool)} {k : Nat} {s : List Char}
    (h : fits ps ((ink s).drop k) = true) {j : Nat} {q : Char → Bool} (hq : ps[j]? = some q) :
    inkAt q (k + j) s = true := by
  induction ps generalizing k j with
  | nil => simp at hq
  | cons p ps ih =>
      rw [fits_drop, Bool.and_eq_true] at h
      cases j with
      | zero =>
          obtain rfl : p = q := by simpa using hq
          exact h.1
      | succ j =>
          have hnext := ih h.2 (j := j) (by simpa using hq)
          rwa [Nat.add_right_comm, Nat.add_assoc] at hnext

theorem fits_of_spot {v : View} (hv : v ∈ views) {k : Nat} {s : List Char}
    (h : v.spot k s = true) : fits v.takes ((ink s).drop k) = true := by
  have hone : ∀ q, inkAt q k s = true → fits [q] ((ink s).drop k) = true := fun q hq => by
    rw [fits_drop, hq]
    rfl
  simp only [views, List.mem_cons, List.not_mem_nil, or_false] at hv
  rcases hv with rfl | rfl | rfl | rfl | rfl | rfl | rfl | rfl | rfl | rfl | rfl | rfl | rfl
  · exact fits_of_fitsIncrement h
  · simp only [signView, unaryAt, Bool.and_eq_true] at h
    exact hone isSign h.1.1.1
  iterate 7
    · exact h
  · simp only [callView, Bool.and_eq_true] at h
    exact hone _ h.1.1
  · exact hone isOpening h
  iterate 2
    · exact h

/-- A class of marks that holds what a view takes at some place of it. -/
def View.Holds (v : View) (j : Nat) (p : Char → Bool) : Bool :=
  (v.takes[j]?).any fun q => markChars.all fun c => !q c || p c

/-- The ink that a view takes is of its classes. -/
theorem inkAt_of_spot {v : View} (hv : v ∈ views) {k : Nat} {s : List Char} (h : v.spot k s = true)
    {j : Nat} {p : Char → Bool} (hp : v.Holds j p = true) : inkAt p (k + j) s = true := by
  obtain ⟨q, hq, hchars⟩ := (Option.any_eq_true _ _).1 hp
  obtain ⟨c, hc, hclass⟩ := inkAt_iff.1 (inkAt_of_fits (fits_of_spot hv h) hq)
  have hmark := mem_markChars hv (List.mem_of_getElem? hq) hclass
  have hchar := List.all_eq_true.1 hchars c hmark
  rw [hclass, Bool.not_true, Bool.false_or] at hchar
  exact inkAt_iff.2 ⟨c, hc, hchar⟩

theorem isWord_of_spot {v : View} (hv : v ∈ views) {k : Nat} {s : List Char} (h : v.spot k s = true)
    {j : Nat} (hk : k ≤ j) (hj : j < k + v.size) : inkAt isWord j s = false := by
  have hall : ∀ v ∈ views, ((List.range v.size).all fun j => v.Holds j fun c => !isWord c) = true :=
    List.all_eq_true.1 (by decide)
  have hholds := List.all_eq_true.1 (hall v hv) (j - k) (List.mem_range.2 (by omega))
  have hink := inkAt_of_spot hv h hholds
  rw [show k + (j - k) = j by omega] at hink
  exact inkAt_eq_false (fun c hc => by simpa using hc) hink

/-! ## Plain places -/

/-- No character stands beside the place that would take in a blank there. -/
structure Plain (k : Nat) (s : List Char) : Prop where
  behind : 0 < k → inkAt absorbsBehind (k - 1) s = false
  before : inkAt absorbsBefore k s = false
  dot : inkAt (· == '.') k s = true → inkAt isDotTail (k + 1) s = false

/-- What a view takes first takes in the blanks in front of it, unless the view leaves the gap there
as it is. -/
theorem left_of_plain {v : View} (hv : v ∈ views) {k : Nat} {s : List Char} (h : v.spot k s = true)
    (hplain : Plain k s) : v.left = none := by
  have hall : ∀ v ∈ views, (v.left.isNone ||
      v.Holds 0 fun c => absorbsBefore c || (c == '.' && v.Holds 1 isDotTail)) = true :=
    List.all_eq_true.1 (by decide)
  have hview := hall v hv
  rw [Bool.or_eq_true, Option.isNone_iff_eq_none] at hview
  refine hview.resolve_right fun hfirst => ?_
  obtain ⟨c, hc, hclass⟩ := inkAt_iff.1 (inkAt_of_spot hv h hfirst)
  rw [Nat.add_zero] at hc
  rw [Bool.or_eq_true, Bool.and_eq_true] at hclass
  rcases hclass with hbefore | ⟨hdot, hnext⟩
  · have hplace := hplain.before
    rw [inkAt_iff.2 ⟨c, hc, hbefore⟩] at hplace
    cases hplace
  · have hplace := hplain.dot (inkAt_iff.2 ⟨c, hc, hdot⟩)
    rw [inkAt_of_spot hv h hnext] at hplace
    cases hplace

theorem not_plain_of_spot {v : View} (hv : v ∈ views) {k : Nat} {s : List Char}
    (h : v.spot k s = true) {j : Nat} (hk : k < j) (hj : j < k + v.size) : ¬Plain j s := by
  have hall : ∀ v ∈ views, ((List.range v.size).all fun j => j == 0 || v.Holds j absorbsBefore) =
    true := List.all_eq_true.1 (by decide)
  intro hplain
  have hview := List.all_eq_true.1 (hall v hv) (j - k) (List.mem_range.2 (by omega))
  rw [Bool.or_eq_true, beq_iff_eq] at hview
  have hink := inkAt_of_spot hv h (hview.resolve_left (by omega))
  have hplace := hplain.before
  rw [show k + (j - k) = j by omega, hplace] at hink
  cases hink

theorem right_of_plain {v : View} (hv : v ∈ views) {k : Nat} {s : List Char} (h : v.spot k s = true)
    (hplain : Plain (k + v.size) s) : v.right = none := by
  have hall : ∀ v ∈ views, (v.right.isNone || v.Holds (v.size - 1) absorbsBehind) = true :=
    List.all_eq_true.1 (by decide)
  have hpos := size_pos hv
  have hview := hall v hv
  rw [Bool.or_eq_true, Option.isNone_iff_eq_none] at hview
  refine hview.resolve_right fun hlast => ?_
  have hink := inkAt_of_spot hv h hlast
  have hplace := hplain.behind (by omega)
  rw [show k + v.size - 1 = k + (v.size - 1) by omega, hink] at hplace
  cases hplace

namespace Step

variable {s : List Char} {c : Cut} {v : View} {k j : Nat}

theorem plain_left (h : Step s c v k) (hplain : Plain j s) : Plain j c.left where
  behind := fun hpos => by rw [h.inkAt_left, hplain.behind hpos, Bool.and_false]
  before := by rw [h.inkAt_left, hplain.before, Bool.and_false]
  dot := fun hdot => by
    rw [h.inkAt_left, Bool.and_eq_true] at hdot
    rw [h.inkAt_left, hplain.dot hdot.2, Bool.and_false]

theorem plain_right (h : Step s c v k) (hplain : Plain (k + v.size + j) s) : Plain j c.right where
  behind := fun hpos => by
    have hplace := hplain.behind (by omega)
    rwa [h.inkAt_right, show k + v.size + (j - 1) = k + v.size + j - 1 by omega]
  before := by rw [h.inkAt_right, hplain.before]
  dot := fun hdot => by
    rw [h.inkAt_right] at hdot
    rw [h.inkAt_right, ← Nat.add_assoc, hplain.dot hdot]

end Step

/-- **Gaps at plain places are kept.** -/
theorem Clear.gapAt_format {s : List Char} (hs : Clear s) :
    ∀ j, Plain j s → gapAt j (format s) = gapAt j s := by
  refine hs.induction (P := fun s => ∀ j, Plain j s → gapAt j (format s) = gapAt j s) ?_ ?_
  · intro s hs hquiet _ j _
    exact hquiet.gapAt_format hs.code hs.exponent j
  · intro s c v k hs h hleft hright j hplain
    by_cases hj : j ≤ k
    · rw [h.gapAt_format_left hs.code hj, hleft j (h.plain_left hplain)]
      by_cases hlt : j < k
      · exact h.cuts.left_gap j hlt
      · obtain rfl : j = k := by omega
        rw [h.cuts.left_end, left_of_plain h.mem h.chosen.spot hplain]
        rfl
    · by_cases hmid : j < k + v.size
      · exact absurd hplain (not_plain_of_spot h.mem h.chosen.spot (by omega) hmid)
      · obtain ⟨i, rfl⟩ : ∃ i, j = k + v.size + i := ⟨j - (k + v.size), by omega⟩
        rw [h.gapAt_format_right hs.code, hright i (h.plain_right hplain)]
        cases i with
        | zero =>
            rw [h.cuts.right_start, right_of_plain h.mem h.chosen.spot hplain]
            rfl
        | succ i => exact h.cuts.right_gap i

/-! ## Signs of words -/

section

variable {s : List Char} {k j : Nat}

theorem inkAt_sign_of_unaryAt (h : unaryAt k s = true) : inkAt isSign k s = true := by
  simp only [unaryAt, Bool.and_eq_true] at h
  exact h.1.1.1

theorem inkAt_word_of_unaryAt (h : unaryAt k s = true) : inkAt isWord (k + 1) s = true := by
  simp only [unaryAt, Bool.and_eq_true] at h
  exact h.1.1.2

theorem gapAt_of_unaryAt (h : unaryAt k s = true) (hbefore : inkAt isBeforeSign (k - 1) s = false) :
    gapAt k s = true := by
  simpa [unaryAt, hbefore] using (Bool.and_eq_true_iff.1 h).2

theorem gapAt_zero_of_unaryAt (h : unaryAt 0 s = true) : gapAt 0 s = true := by
  simpa [unaryAt] using (Bool.and_eq_true_iff.1 h).2

theorem isWord_of_absorbsBefore {c : Char} (h : absorbsBefore c = true) : isWord c = false := by
  rw [absorbsBefore, Bool.and_eq_true, List.contains_iff_mem] at h
  exact isWord_of_mem_markChars (List.mem_cons_of_mem _ h.1)

/-- In front of a word is a plain place, at the start of a text. -/
theorem plain_zero_of_word (h : inkAt isWord 0 s = true) : Plain 0 s where
  behind := fun hpos => absurd hpos (Nat.lt_irrefl 0)
  before := by
    by_contra habsorbs
    rw [inkAt_eq_false (fun c => isWord_of_absorbsBefore) (by simpa using habsorbs)] at h
    cases h
  dot := fun hdot => by
    have hword : ∀ c, (c == '.') = true → isWord c = false := fun c hc => by
      rw [beq_iff_eq.1 hc]
      decide
    rw [inkAt_eq_false hword hdot] at h
    cases h

theorem plain_zero_of_nil (h : ink s = []) : Plain 0 s where
  behind := fun hpos => absurd hpos (Nat.lt_irrefl 0)
  before := by simp [inkAt, h]
  dot := fun hdot => by simp [inkAt, h] at hdot

/-- Two signs that make an increment have a closer behind them, or nothing. -/
theorem closer_of_increment (h : incrementView.spot k s = true) {q : Char → Bool}
    (hq : ∀ c, isCloser c = true → q c = false) : inkAt q (k + 2) s = false := by
  have hclosers : (((ink s).drop k)[2]?).all isCloser = true := by
    rw [incrementView, inkView_spot, fitsIncrement, Bool.and_eq_true] at h
    exact h.2
  rw [List.getElem?_drop] at hclosers
  rw [inkAt]
  cases hnext : (ink s)[k + 2]? with
  | none => rfl
  | some c =>
      rw [hnext, Option.all_some] at hclosers
      rw [Option.any_some, hq c hclosers]

theorem isWord_of_isCloser {c : Char} (h : isCloser c = true) : isWord c = false :=
  (of_mem_symbolChars (mem_symbolChars_of_isCloser h)).2.1

theorem isSign_of_isCloser {c : Char} (h : isCloser c = true) : isSign c = false := by
  by_contra hsign
  rw [isCloser_of_isSign (by simpa using hsign)] at h
  cases h

end

namespace Step

variable {s : List Char} {c : Cut} {v : View} {k j : Nat}

/-- The sign of a word stands in one of the sides or is the middle. -/
theorem unary_cases (h : Step s c v k) (hj : unaryAt j s = true) :
    (v = incrementView ∨ v = signView) ∧
      (j + 1 < k ∨ (v = signView ∧ j = k) ∨ ∃ i, j = k + v.size + (i + 1)) := by
  have hsign := inkAt_sign_of_unaryAt hj
  have hword := inkAt_word_of_unaryAt hj
  have hmid : ¬(k ≤ j + 1 ∧ j + 1 < k + v.size) := by
    rintro ⟨hle, hlt⟩
    rw [isWord_of_spot h.mem h.chosen.spot hle hlt] at hword
    cases hword
  rcases h.view_cases with rfl | ⟨-, rfl | ⟨hnone, -⟩⟩
  · refine ⟨Or.inl rfl, ?_⟩
    have hsize : incrementView.size = 2 := rfl
    have hnext : j ≠ k + 1 := by
      rintro rfl
      rw [closer_of_increment h.chosen.spot fun c => isWord_of_isCloser] at hword
      cases hword
    have hbehind : j ≠ k + 2 := by
      rintro rfl
      rw [closer_of_increment h.chosen.spot fun c => isSign_of_isCloser] at hsign
      cases hsign
    by_cases hlt : j + 1 < k
    · exact Or.inl hlt
    · exact Or.inr (Or.inr ⟨j - (k + 2) - 1, by omega⟩)
  · refine ⟨Or.inr rfl, ?_⟩
    have hsize : signView.size = 1 := rfl
    have hnext : j ≠ k + 1 := by
      rintro rfl
      have hother := inkAt_word_of_unaryAt (show unaryAt k s = true from h.chosen.spot)
      rw [inkAt_eq_false (fun c => isWord_of_isSign) hsign] at hother
      cases hother
    by_cases hlt : j + 1 < k
    · exact Or.inl hlt
    · by_cases heq : j = k
      · exact Or.inr (Or.inl ⟨rfl, heq⟩)
      · exact Or.inr (Or.inr ⟨j - (k + 1) - 1, by omega⟩)
  · rw [hnone j] at hj
    cases hj

end Step

theorem mem_loudChars_of_isSign {c : Char} (h : isSign c = true) : c ∈ loudChars := by
  simp only [isSign, Bool.or_eq_true, beq_iff_eq] at h
  rcases h with rfl | rfl <;> decide

theorem Quiet.inkAt_eq_false {s : List Char} (hs : Quiet s) {q : Char → Bool}
    (hq : ∀ c, q c = true → c ∈ loudChars) (k : Nat) : inkAt q k s = false := by
  by_contra hink
  obtain ⟨c, hc, hclass⟩ := inkAt_iff.1 (by simpa using hink)
  exact hs.loud c (hq c hclass) (List.mem_of_mem_filter (List.mem_of_getElem? hc))

theorem Quiet.unaryAt_eq_false {s : List Char} (hs : Quiet s) (k : Nat) : unaryAt k s = false := by
  rw [unaryAt, hs.inkAt_eq_false fun c => mem_loudChars_of_isSign]
  rfl

/-- **The sign of a word stays with it.** -/
theorem Clear.gapAt_format_word {s : List Char} (hs : Clear s) :
    ∀ j, unaryAt j s = true → gapAt (j + 1) (format s) = false := by
  refine hs.induction
    (P := fun s => ∀ j, unaryAt j s = true → gapAt (j + 1) (format s) = false) ?_ ?_
  · intro s _ hquiet _ j hj
    rw [hquiet.unaryAt_eq_false] at hj
    cases hj
  · intro s c v k hs h hleft hright j hj
    obtain ⟨-, hlt | ⟨rfl, rfl⟩ | ⟨i, rfl⟩⟩ := h.unary_cases hj
    · rw [h.gapAt_format_left hs.code (by omega)]
      apply hleft
      rw [h.unaryAt_left, decide_eq_true hlt, Bool.true_and, hj]
    · -- the word begins the right side, where no blank is added in front of it
      have hword : inkAt isWord 0 c.right = true := by
        rw [h.inkAt_right]
        exact inkAt_word_of_unaryAt hj
      have hplace := h.gapAt_format_right hs.code 0
      rw [(h.clear_right hs).gapAt_format 0 (plain_zero_of_word hword),
        h.cuts.right_start] at hplace
      exact hplace
    · rw [Nat.add_assoc, h.gapAt_format_right hs.code]
      apply hright
      rw [h.unaryAt_right, hj]

/-- The sign of a first word keeps the gap in front of it. -/
theorem Clear.gapAt_format_start {s : List Char} (hs : Clear s) :
    unaryAt 0 s = true → gapAt 0 (format s) = true := by
  refine hs.induction (P := fun s => unaryAt 0 s = true → gapAt 0 (format s) = true) ?_ ?_
  · intro s _ hquiet _ hzero
    rw [hquiet.unaryAt_eq_false] at hzero
    cases hzero
  · intro s c v k hs h hleft _ hzero
    rw [h.gapAt_format_left hs.code (Nat.zero_le k)]
    obtain ⟨-, hlt | ⟨rfl, rfl⟩ | ⟨i, hi⟩⟩ := h.unary_cases hzero
    · apply hleft
      rw [h.unaryAt_left, decide_eq_true hlt, Bool.true_and, hzero]
    · -- the left side is the gap
      have hnil : ink c.left = [] := by rw [h.cuts.left_ink, List.take_zero]
      rw [(h.clear_left hs).gapAt_format 0 (plain_zero_of_nil hnil), h.cuts.left_end]
      exact gapAt_zero_of_unaryAt hzero
    · omega

/-- An operator that begins the text is written with a blank in front of it. -/
theorem Clear.gapAt_format_of_operator {s : List Char} (hs : Clear s) :
    inkAt (fun c => isOperator c && !isSign c) 0 s = true → gapAt 0 (format s) = true := by
  refine hs.induction (P := fun s => inkAt (fun c => isOperator c && !isSign c) 0 s = true →
    gapAt 0 (format s) = true) ?_ ?_
  · intro s _ hquiet _ hzero
    have hloud : ∀ c, (isOperator c && !isSign c) = true → c ∈ loudChars := by
      intro c hc
      simp only [isOperator, Bool.and_eq_true, Bool.or_eq_true, beq_iff_eq] at hc
      rcases hc.1 with
        ((((((((((rfl | rfl) | rfl) | rfl) | rfl) | rfl) | rfl) | rfl) | rfl) | rfl) | rfl) |
          rfl <;> decide
    rw [hquiet.inkAt_eq_false hloud] at hzero
    cases hzero
  · intro s c v k hs h hleft _ hzero
    rw [h.gapAt_format_left hs.code (Nat.zero_le k)]
    rcases Nat.eq_zero_or_pos k with rfl | hpos
    · -- the left side is the blank that the view adds
      have hall : ∀ v ∈ views,
          (v.left == some true || v.Holds 0 fun c => !(isOperator c && !isSign c)) = true :=
        List.all_eq_true.1 (by decide)
      have hview := hall v h.mem
      rw [Bool.or_eq_true, beq_iff_eq] at hview
      have hadds : v.left = some true := hview.resolve_right fun hother => by
        have hink := inkAt_of_spot h.mem h.chosen.spot hother
        rw [inkAt_eq_false (fun c hc => by rwa [Bool.not_eq_true'] at hc) hink] at hzero
        cases hzero
      have hnil : ink c.left = [] := by rw [h.cuts.left_ink, List.take_zero]
      rw [(h.clear_left hs).gapAt_format 0 (plain_zero_of_nil hnil), h.cuts.left_end, hadds]
      rfl
    · apply hleft
      rw [h.inkAt_left, decide_eq_true hpos, Bool.true_and, hzero]

/-! ## Signs that stand alone -/

theorem eq_or_mem_drop {v : View} (hv : v ∈ views) :
    v = incrementView ∨ v = signView ∨ v ∈ views.drop 2 :=
  (List.mem_cons.1 hv).imp_right List.mem_cons.1

/-- What a view takes last is written with a blank behind it, or it is of another class. -/
theorem right_of_padded {v : View} (hv : v ∈ views.drop 2) {k : Nat} {s : List Char}
    (h : v.spot k s = true) (hlast : inkAt isPadded (k + v.size - 1) s = true) :
    v.right = some true := by
  have hall :
      ∀ v ∈ views.drop 2, (v.right == some true || v.Holds (v.size - 1) fun c => !isPadded c) =
    true := List.all_eq_true.1 (by decide)
  have hmem : v ∈ views := List.mem_of_mem_drop hv
  have hpos := size_pos hmem
  have hview := hall v hv
  rw [Bool.or_eq_true, beq_iff_eq] at hview
  refine hview.resolve_right fun hother => ?_
  have hink := inkAt_of_spot hmem h hother
  rw [show k + (v.size - 1) = k + v.size - 1 by omega] at hink
  rw [inkAt_eq_false (fun c hc => by simpa using hc) hink] at hlast
  cases hlast

/-- Three characters of operators in a row, the last of them at the place. -/
def crowded (k : Nat) (s : List Char) : Bool :=
  decide (1 < k) && fits [isPairHead, isPairHead, isPairHead] ((ink s).drop (k - 2))

theorem crowded_eq (k : Nat) (s : List Char) :
    crowded k s = (decide (1 < k) && (inkAt isPairHead (k - 2) s && (inkAt isPairHead (k - 1) s &&
      inkAt isPairHead k s))) := by
  by_cases hk : 1 < k
  · have hplaces : k - 2 + 1 = k - 1 ∧ k - 1 + 1 = k := by omega
    rw [crowded, fits_drop, fits_drop, fits_drop, hplaces.1, hplaces.2, fits, Bool.and_true]
  · rw [crowded, decide_eq_false hk, Bool.false_and, Bool.false_and]

theorem Step.crowded_left {s : List Char} {c : Cut} {v : View} {k j : Nat} (h : Step s c v k)
    (hj : crowded j c.left = true) : crowded j s = true := by
  simp only [crowded_eq, h.inkAt_left, Bool.and_eq_true] at hj ⊢
  exact ⟨hj.1, hj.2.1.2, hj.2.2.1.2, hj.2.2.2.2⟩

theorem Step.crowded_right {s : List Char} {c : Cut} {v : View} {k j : Nat} (h : Step s c v k)
    (hj : crowded j c.right = true) : crowded (k + v.size + j) s = true := by
  simp only [crowded_eq, h.inkAt_right, Bool.and_eq_true, decide_eq_true_eq] at hj ⊢
  obtain ⟨hlt, hfirst, hsecond, hthird⟩ := hj
  refine ⟨by omega, ?_, ?_, hthird⟩
  · rwa [show k + v.size + j - 2 = k + v.size + (j - 2) by omega]
  · rwa [show k + v.size + j - 1 = k + v.size + (j - 1) by omega]

theorem isPairHead_of_isSign {c : Char} (h : isSign c = true) : isPairHead c = true := by
  simp only [isSign, Bool.or_eq_true, beq_iff_eq] at h
  rcases h with rfl | rfl <;> decide

theorem isPairTail_of_isSign {c : Char} (h : isSign c = true) : isPairTail c = true := by
  simp only [isSign, Bool.or_eq_true, beq_iff_eq] at h
  rcases h with rfl | rfl <;> decide

theorem isPairHead_of_isOperator {c : Char} (h : isOperator c = true) : isPairHead c = true := by
  simp only [isOperator, isPairHead, Bool.or_eq_true, beq_iff_eq] at h ⊢
  tauto

theorem spot_pairView (k : Nat) (s : List Char) :
    pairView.spot k s = (inkAt isPairHead k s && inkAt isPairTail (k + 1) s) := by
  show fits [isPairHead, isPairTail] ((ink s).drop k) = _
  rw [fits_drop, fits_drop, fits, Bool.and_true]

/-- Of the views that add a blank behind what they take, those that do not call for an operand there
take two operator characters. -/
theorem Step.pair_of_gap {s : List Char} {c : Cut} {v : View} {k : Nat} (h : Step s c v k)
    (hmem : v ∈ [colonView, dotEqualsView, dotPowerView, pairView, negationView, callView,
      openingView, closingView, separatorView]) (hjoined : gapAt (k + v.size) s = false)
    (hbefore : inkAt isBeforeSign (k + v.size - 1) s = false)
    (hgap : v.right.getD (gapAt (k + v.size) s) = true) :
    v.size = 2 ∧ inkAt isPairHead k s = true ∧ inkAt isPairHead (k + 1) s = true := by
  have hall : ∀ v ∈ [colonView, dotEqualsView, dotPowerView, pairView, negationView, callView,
      openingView, closingView, separatorView],
      (v.right == some false || v.right.isNone || v.Holds (v.size - 1) isBeforeSign ||
        (v.size == 2 && v.Holds 0 isPairHead && v.Holds 1 isPairHead)) = true :=
    List.all_eq_true.1 (by decide)
  have hpos := h.size_pos
  have hview := hall v hmem
  simp only [Bool.or_eq_true, Bool.and_eq_true, beq_iff_eq, Option.isNone_iff_eq_none] at hview
  rcases hview with ((hfalse | hkept) | hcalls) | ⟨⟨hsize, hfirst⟩, hsecond⟩
  · rw [hfalse] at hgap
    cases hgap
  · rw [hkept, Option.getD_none, hjoined] at hgap
    cases hgap
  · have hink := inkAt_of_spot h.mem h.chosen.spot hcalls
    rw [show k + (v.size - 1) = k + v.size - 1 by omega, hbefore] at hink
    cases hink
  · exact ⟨hsize, inkAt_of_spot h.mem h.chosen.spot hfirst, inkAt_of_spot h.mem h.chosen.spot
      hsecond⟩

/-- **No sign comes to belong to its word by a cut** right in front of it, unless the sign is the
third in a row of operator characters. -/
theorem Step.crowded_of_unaryAt {s : List Char} {c : Cut} {v : View} {k : Nat} (h : Step s c v k)
    (hzero : unaryAt 0 c.right = true) :
    unaryAt (k + v.size) s = false ∧ crowded (k + v.size) s = true := by
  have hgap := gapAt_zero_of_unaryAt hzero
  rw [h.cuts.right_start] at hgap
  have hsign := inkAt_sign_of_unaryAt hzero
  have hword := inkAt_word_of_unaryAt hzero
  have hglued : gapAt (k + v.size + 1) s = false := by
    rw [← h.cuts.right_gap 0]
    simp only [unaryAt, Bool.and_eq_true, Bool.not_eq_true'] at hzero
    exact hzero.1.2
  rw [h.inkAt_right] at hsign hword
  rw [Nat.add_zero] at hsign
  have hpos := h.size_pos
  rcases h.view_cases with rfl | ⟨-, rfl | ⟨hnone, hv⟩⟩
  · cases hgap
  · cases hgap
  · refine ⟨hnone _, ?_⟩
    -- the sign has no word in `s`: there is no gap in front of it, and no operand is called for
    obtain ⟨hjoined, hbefore⟩ : gapAt (k + v.size) s = false ∧
        inkAt isBeforeSign (k + v.size - 1) s = false := by
      have hfalse := hnone (k + v.size)
      have hlt : 0 < k + v.size := by omega
      simpa [unaryAt, hsign, hword, hglued, hlt] using hfalse
    rcases hv with ⟨rfl, -⟩ | ⟨rfl, hpair⟩ | hmem
    · cases hgap
    · -- with the sign the operator would have been taken for a pair
      have hspot : pairView.spot k s = true := by
        have hoperator : inkAt isOperator k s = true :=
          inkAt_of_fits (fits_of_spot h.mem h.chosen.spot) (j := 0) rfl
        rw [spot_pairView, Bool.and_eq_true]
        exact ⟨inkAt_imp (fun c => isPairHead_of_isOperator) hoperator,
          inkAt_imp (fun c => isPairTail_of_isSign) hsign⟩
      rw [(hpair k).1] at hspot
      cases hspot
    · obtain ⟨hsize, hfirst, hsecond⟩ := h.pair_of_gap hmem hjoined hbefore hgap
      rw [crowded_eq, hsize, Nat.add_sub_cancel, show k + 2 - 1 = k + 1 from rfl,
        decide_eq_true (by omega), Bool.true_and, Bool.and_eq_true, Bool.and_eq_true]
      rw [hsize] at hsign
      exact ⟨hfirst, hsecond, inkAt_imp (fun c => isPairHead_of_isSign) hsign⟩

/-- A sign at the end of a middle that does not belong to the word behind it gets a blank there. -/
theorem Step.gapAt_format_of_last {s : List Char} {c : Cut} {v : View} {k j : Nat}
    (h : Step s c v k) (hs : Clear s) (hlast : j + 1 = k + v.size) (hsign : inkAt isSign j s = true)
    (hword : inkAt isWord (j + 1) s = true) (hloose : unaryAt j s = false) :
    gapAt (j + 1) (format s) = true := by
  have hother : v ∈ views.drop 2 := by
    rcases eq_or_mem_drop h.mem with rfl | rfl | hother
    · have hsize : incrementView.size = 2 := rfl
      rw [hlast, hsize, closer_of_increment h.chosen.spot fun c => isWord_of_isCloser] at hword
      cases hword
    · have hsize : signView.size = 1 := rfl
      obtain rfl : j = k := by omega
      rw [show unaryAt j s = true from h.chosen.spot] at hloose
      cases hloose
    · exact hother
  have hpadded : inkAt isPadded (k + v.size - 1) s = true := by
    rw [show k + v.size - 1 = j by omega]
    exact inkAt_imp (fun c hc => by rw [isPadded, hc, Bool.or_true]) hsign
  have hfirst : inkAt isWord 0 c.right = true := by rw [h.inkAt_right, Nat.add_zero, ← hlast, hword]
  have hplace := h.gapAt_format_right hs.code 0
  rw [(h.clear_right hs).gapAt_format 0 (plain_zero_of_word hfirst), h.cuts.right_start,
    right_of_padded hother h.chosen.spot hpadded] at hplace
  rw [hlast]
  exact hplace

/-- **A sign that does not belong to the word behind it** is set apart from it, or from what is in
front where operator characters crowd. -/
theorem Clear.gapAt_format_loose {s : List Char} (hs : Clear s) :
    ∀ j, inkAt isSign j s = true → inkAt isWord (j + 1) s = true → unaryAt j s = false →
      gapAt (j + 1) (format s) = true ∨ (gapAt j (format s) = true ∧ crowded j s = true) := by
  refine hs.induction (P := fun s => ∀ j, inkAt isSign j s = true → inkAt isWord (j + 1) s = true →
    unaryAt j s = false →
      gapAt (j + 1) (format s) = true ∨ (gapAt j (format s) = true ∧ crowded j s = true)) ?_ ?_
  · intro s _ hquiet _ j hsign
    rw [hquiet.inkAt_eq_false fun c => mem_loudChars_of_isSign] at hsign
    cases hsign
  · intro s c v k hs h hleft hright j hsign hword hloose
    have hmid : ¬(k ≤ j + 1 ∧ j + 1 < k + v.size) := by
      rintro ⟨hle, hlt⟩
      rw [isWord_of_spot h.mem h.chosen.spot hle hlt] at hword
      cases hword
    -- sign and word are left of the middle, the sign ends it, or both are right of it
    by_cases hlt : j + 1 < k
    · rw [h.gapAt_format_left hs.code (by omega), h.gapAt_format_left hs.code (by omega)]
      refine (hleft j ?_ ?_ ?_).imp_right fun hgap => ⟨hgap.1, h.crowded_left hgap.2⟩
      · rw [h.inkAt_left, hsign, decide_eq_true (by omega), Bool.true_and]
      · rw [h.inkAt_left, hword, decide_eq_true hlt, Bool.true_and]
      · rw [h.unaryAt_left, hloose, Bool.and_false]
    · by_cases hlast : j + 1 = k + v.size
      · exact Or.inl (h.gapAt_format_of_last hs hlast hsign hword hloose)
      · obtain ⟨i, rfl⟩ : ∃ i, j = k + v.size + i := ⟨j - (k + v.size), by omega⟩
        rw [Nat.add_assoc, h.gapAt_format_right hs.code, h.gapAt_format_right hs.code]
        cases hunary : unaryAt i c.right with
        | true =>
            right
            cases i with
            | zero =>
                exact ⟨(h.clear_right hs).gapAt_format_start hunary,
                  (h.crowded_of_unaryAt hunary).2⟩
            | succ i =>
                rw [h.unaryAt_right, hloose] at hunary
                cases hunary
        | false =>
            refine (hright i ?_ ?_ hunary).imp_right fun hgap => ⟨hgap.1, h.crowded_right hgap.2⟩
            · rw [h.inkAt_right, hsign]
            · rw [h.inkAt_right, ← Nat.add_assoc, hword]

/-! ## The end of a text -/

theorem mem_loudChars_of_isPadded {c : Char} (h : isPadded c = true) : c ∈ loudChars := by
  simp only [isPadded, isSign, Bool.or_eq_true, beq_iff_eq] at h
  rcases h with ((((rfl | rfl) | rfl) | rfl) | rfl) | rfl | rfl <;> decide

theorem mem_loudChars_of_isTightened {c : Char} (h : isTightened c = true) : c ∈ loudChars := by
  simp only [isTightened, Bool.or_eq_true, beq_iff_eq] at h
  rcases h with (rfl | rfl) | rfl <;> decide

/-- The gap behind a middle that ends the text is the one that the view gives. -/
theorem Step.gapAt_format_end {s : List Char} {c : Cut} {v : View} {k : Nat} (h : Step s c v k)
    (hs : Clear s) (hend : (ink s).length = k + v.size) :
    gapAt (k + v.size) (format s) = v.right.getD (gapAt (k + v.size) s) := by
  have hnil : ink c.right = [] := by rw [h.cuts.right_ink, List.drop_eq_nil_of_le (by omega)]
  have hplace := h.gapAt_format_right hs.code 0
  rw [(h.clear_right hs).gapAt_format 0 (plain_zero_of_nil hnil), h.cuts.right_start] at hplace
  exact hplace

/-- An operator that ends both the middle and the text is written with a blank behind it, the second
of two signs apart. -/
theorem Step.right_of_padded_end {s : List Char} {c : Cut} {v : View} {k e : Nat} (h : Step s c v k)
    (hlength : (ink s).length = e + 1) (hlast : k + v.size = e + 1)
    (hpadded : inkAt isPadded e s = true)
    (hsigns : ¬(0 < e ∧ inkAt isSign (e - 1) s = true ∧ inkAt isSign e s = true)) :
    v.right = some true := by
  have hother : v ∈ views.drop 2 := by
    rcases eq_or_mem_drop h.mem with rfl | rfl | hother
    · have hsize : incrementView.size = 2 := rfl
      have hfits := fits_of_spot h.mem h.chosen.spot
      have hfirst : inkAt isSign (k + 0) s = true := inkAt_of_fits hfits rfl
      have hsecond : inkAt isSign (k + 1) s = true := inkAt_of_fits hfits rfl
      refine absurd ⟨by omega, ?_, ?_⟩ hsigns
      · rw [show e - 1 = k + 0 by omega, hfirst]
      · rw [show e = k + 1 by omega, hsecond]
    · -- the sign of a word has the word behind it
      have hsize : signView.size = 1 := rfl
      have hlt := lt_of_inkAt (inkAt_word_of_unaryAt (show unaryAt k s = true from h.chosen.spot))
      omega
    · exact hother
  apply right_of_padded hother h.chosen.spot
  rw [show k + v.size - 1 = e by omega, hpadded]

/-- An operator at the end is written with a blank behind it, the second of two signs apart. -/
theorem Clear.gapAt_format_of_padded {s : List Char} (hs : Clear s) :
    ∀ e, (ink s).length = e + 1 → inkAt isPadded e s = true →
      ¬(0 < e ∧ inkAt isSign (e - 1) s = true ∧ inkAt isSign e s = true) →
      gapAt (e + 1) (format s) = true := by
  refine hs.induction (P := fun s => ∀ e, (ink s).length = e + 1 → inkAt isPadded e s = true →
      ¬(0 < e ∧ inkAt isSign (e - 1) s = true ∧ inkAt isSign e s = true) →
      gapAt (e + 1) (format s) = true) ?_ ?_
  · intro s _ hquiet _ e _ hpadded
    rw [hquiet.inkAt_eq_false fun c => mem_loudChars_of_isPadded] at hpadded
    cases hpadded
  · intro s c v k hs h _ hright e hlength hpadded hsigns
    have hbound := h.bound
    have hpos := h.size_pos
    by_cases hlast : k + v.size = e + 1
    · rw [← hlast, h.gapAt_format_end hs (by omega),
        h.right_of_padded_end hlength hlast hpadded hsigns]
      rfl
    · obtain ⟨i, rfl⟩ : ∃ i, e = k + v.size + i := ⟨e - (k + v.size), by omega⟩
      rw [Nat.add_assoc, h.gapAt_format_right hs.code]
      apply hright i
      · rw [h.cuts.right_ink, List.length_drop]
        omega
      · rw [h.inkAt_right, hpadded]
      · rintro ⟨hi, hfirst, hsecond⟩
        rw [h.inkAt_right] at hfirst hsecond
        refine hsigns ⟨by omega, ?_, hsecond⟩
        rwa [show k + v.size + i - 1 = k + v.size + (i - 1) by omega]

/-- What is written with nothing behind it is taken by a view that adds nothing there. -/
theorem Step.right_of_tightened {s : List Char} {c : Cut} {v : View} {k : Nat} (h : Step s c v k)
    (hlast : inkAt isTightened (k + v.size - 1) s = true) : v.right = some false := by
  rcases h.view_cases with rfl | ⟨-, rfl | ⟨-, ⟨rfl, -⟩ | ⟨rfl, hnone⟩ | hmem⟩⟩
  · rfl
  · rfl
  · rfl
  · -- a negation is found before the rule for operators of one character is tried
    have hoperator : inkAt isOperator k s = true :=
      inkAt_of_fits (fits_of_spot h.mem h.chosen.spot) (j := 0) rfl
    obtain ⟨d, hd, hclass⟩ := inkAt_iff.1 hoperator
    have htight : isTightened d = true := by
      obtain ⟨d', hd', htight⟩ := inkAt_iff.1 hlast
      rw [show k + operatorView.size - 1 = k from rfl, hd] at hd'
      rwa [Option.some.inj hd']
    have hnegation : (d == '!' || d == '~') = true := by
      simp only [isTightened, Bool.or_eq_true] at htight
      rcases htight with (hpower | hnot) | htilde
      · rw [beq_iff_eq.1 hpower] at hclass
        exact absurd hclass (by decide)
      · rw [hnot, Bool.true_or]
      · rw [htilde, Bool.or_true]
    have hspot : negationView.spot k s = true := by
      show fits [fun c => c == '!' || c == '~'] ((ink s).drop k) = true
      rw [fits_drop, inkAt_iff.2 ⟨d, hd, hnegation⟩]
      rfl
    rw [(hnone k).2] at hspot
    cases hspot
  · have hall : ∀ v ∈ [colonView, dotEqualsView, dotPowerView, pairView, negationView, callView,
        openingView, closingView, separatorView],
        (v.right == some false || v.Holds (v.size - 1) fun c => !isTightened c) = true :=
      List.all_eq_true.1 (by decide)
    have hpos := h.size_pos
    have hview := hall v hmem
    rw [Bool.or_eq_true, beq_iff_eq] at hview
    refine hview.resolve_right fun hother => ?_
    have hink := inkAt_of_spot h.mem h.chosen.spot hother
    rw [show k + (v.size - 1) = k + v.size - 1 by omega] at hink
    rw [inkAt_eq_false (fun c hc => by simpa using hc) hink] at hlast
    cases hlast

theorem Clear.gapAt_format_of_tightened {s : List Char} (hs : Clear s) :
    ∀ e, (ink s).length = e + 1 → inkAt isTightened e s = true →
      gapAt (e + 1) (format s) = false := by
  refine hs.induction (P := fun s => ∀ e, (ink s).length = e + 1 → inkAt isTightened e s = true →
    gapAt (e + 1) (format s) = false) ?_ ?_
  · intro s _ hquiet _ e _ htight
    rw [hquiet.inkAt_eq_false fun c => mem_loudChars_of_isTightened] at htight
    cases htight
  · intro s c v k hs h _ hright e hlength htight
    have hbound := h.bound
    have hpos := h.size_pos
    by_cases hlast : k + v.size = e + 1
    · rw [← hlast, h.gapAt_format_end hs (by omega), h.right_of_tightened]
      · rfl
      · rw [show k + v.size - 1 = e by omega, htight]
    · obtain ⟨i, rfl⟩ : ∃ i, e = k + v.size + i := ⟨e - (k + v.size), by omega⟩
      rw [Nat.add_assoc, h.gapAt_format_right hs.code]
      apply hright i
      · rw [h.cuts.right_ink, List.length_drop]
        omega
      · rw [h.inkAt_right, htight]

/-- Two signs do not stand right behind an increment, where a closer is. -/
theorem lt_of_increment {s : List Char} {e : Nat} (h : incrementView.spot 0 s = true) (he : e ≠ 0)
    (hfirst : inkAt isSign e s = true) (hsecond : inkAt isSign (e + 1) s = true) : 2 < e := by
  have hcloser : inkAt isSign 2 s = false := by
    have hnext := closer_of_increment h fun c => isSign_of_isCloser
    rwa [Nat.zero_add] at hnext
  have hone : e ≠ 1 := by
    rintro rfl
    rw [hcloser] at hsecond
    cases hsecond
  have htwo : e ≠ 2 := by
    rintro rfl
    rw [hcloser] at hfirst
    cases hfirst
  omega

/-- Two signs at the end are an increment, which nothing is written behind. -/
theorem Clear.gapAt_format_of_signs {s : List Char} (hs : Clear s) :
    ∀ e, (ink s).length = e + 2 → inkAt isSign e s = true → inkAt isSign (e + 1) s = true →
      gapAt (e + 2) (format s) = false := by
  refine hs.induction (P := fun s => ∀ e, (ink s).length = e + 2 → inkAt isSign e s = true →
    inkAt isSign (e + 1) s = true → gapAt (e + 2) (format s) = false) ?_ ?_
  · intro s _ hquiet _ e _ hfirst
    rw [hquiet.inkAt_eq_false fun c => mem_loudChars_of_isSign] at hfirst
    cases hfirst
  · intro s c v k hs h _ hright e hlength hfirst hsecond
    have hbound := h.bound
    have hspot : incrementView.spot e s = true := by
      rw [incrementView, inkView_spot, fitsIncrement, fits_drop, fits_drop, hfirst, hsecond,
        List.getElem?_drop, List.getElem?_eq_none (by omega)]
      rfl
    rcases h.view_cases with rfl | ⟨hnone, -⟩
    · have hsize : incrementView.size = 2 := rfl
      by_cases hlast : k = e
      · have hend := h.gapAt_format_end hs (by omega)
        rwa [hlast] at hend
      · -- the text starts with an increment, and a closer stands behind that
        have hstart : incrementView.start s = true := by
          by_contra hstart
          have hmax := h.chosen.last (by simpa using hstart) e hspot
          omega
        obtain rfl := h.chosen.first hstart
        have htwo := lt_of_increment h.chosen.spot (fun hzero => hlast hzero.symm) hfirst hsecond
        obtain ⟨i, rfl⟩ : ∃ i, e = 0 + incrementView.size + i := ⟨e - 2, by omega⟩
        rw [Nat.add_assoc, h.gapAt_format_right hs.code]
        apply hright i
        · rw [h.cuts.right_ink, List.length_drop]
          omega
        · rw [h.inkAt_right, hfirst]
        · rw [h.inkAt_right, ← Nat.add_assoc, hsecond]
    · rw [hnone e] at hspot
      cases hspot

/-! ## The gap in front of a sign -/

/-- The sign of a word behind ink that nothing is written behind. -/
def wavers (k : Nat) (s : List Char) : Bool :=
  unaryAt k s && decide (0 < k) &&
    (inkAt isTightened (k - 1) s ||
      (decide (1 < k) && inkAt isSign (k - 2) s && inkAt isSign (k - 1) s))

section

variable {s : List Char} {c : Cut} {v : View} {k j : Nat}

theorem unaryAt_of_wavers (h : wavers k s = true) : unaryAt k s = true := by
  simp only [wavers, Bool.and_eq_true] at h
  exact h.1.1

theorem pos_of_wavers (h : wavers k s = true) : 0 < k := by
  simp only [wavers, Bool.and_eq_true, decide_eq_true_eq] at h
  exact h.1.2

theorem Step.wavers_left (h : Step s c v k) (hj : j + 1 < k) : wavers j c.left = wavers j s := by
  have hlt : j - 1 < k ∧ j - 2 < k := by omega
  simp only [wavers, h.unaryAt_left, h.inkAt_left, hj, hlt, decide_true, Bool.true_and]

theorem Step.wavers_right (h : Step s c v k) (hv : v = incrementView ∨ v = signView) (i : Nat) :
    wavers (i + 1) c.right = wavers (k + v.size + (i + 1)) s := by
  have hnext : inkAt isSign (k + v.size) s = false := by
    rcases hv with rfl | rfl
    · exact closer_of_increment h.chosen.spot fun c => isSign_of_isCloser
    · have hword := inkAt_word_of_unaryAt (show unaryAt k s = true from h.chosen.spot)
      by_contra hsign
      rw [Bool.not_eq_false] at hsign
      rw [inkAt_eq_false (fun c => isWord_of_isSign)
        (show inkAt isSign (k + 1) s = true from hsign)] at hword
      cases hword
  have hpos : 0 < k + v.size + (i + 1) := by omega
  have hprev : k + v.size + (i + 1) - 1 = k + v.size + i := by omega
  cases i with
  | zero =>
      -- right behind the middle no sign stands
      simp only [wavers, h.unaryAt_right, h.inkAt_right, hpos, hprev, hnext, Nat.add_sub_cancel,
        Nat.add_zero, Bool.and_false]
      rfl
  | succ i =>
      have hlt : 1 < k + v.size + (i + 1 + 1) ∧ 1 < i + 1 + 1 := by omega
      have hprev' : k + v.size + (i + 1 + 1) - 2 = k + v.size + i := by omega
      simp only [wavers, h.unaryAt_right, h.inkAt_right, hpos, hprev, hlt, hprev', decide_true,
        Bool.true_and, Nat.add_sub_cancel, Nat.succ_pos]
      rfl

end

/-- **The gap in front of the sign of a word is lost** where the sign wavers. -/
theorem Clear.gapAt_format_of_wavers {s : List Char} (hs : Clear s) :
    ∀ j, wavers j s = true → gapAt j (format s) = false := by
  refine hs.induction (P := fun s => ∀ j, wavers j s = true → gapAt j (format s) = false) ?_ ?_
  · intro s _ hquiet _ j hj
    rw [wavers, hquiet.unaryAt_eq_false] at hj
    cases hj
  · intro s c v k hs h hleft hright j hj
    obtain ⟨hv, hlt | ⟨rfl, rfl⟩ | ⟨i, rfl⟩⟩ := h.unary_cases (unaryAt_of_wavers hj)
    · rw [h.gapAt_format_left hs.code (by omega)]
      exact hleft j (by rw [h.wavers_left hlt, hj])
    · rw [h.gapAt_format_left hs.code (Nat.le_refl j)]
      have hclear := h.clear_left hs
      have hlength := h.length_ink_left
      have hpos := pos_of_wavers hj
      simp only [wavers, Bool.and_eq_true, Bool.or_eq_true, decide_eq_true_eq] at hj
      rcases hj.2 with htight | ⟨⟨hone, hfirst⟩, hsecond⟩
      · obtain ⟨e, rfl⟩ : ∃ e, j = e + 1 := ⟨j - 1, by omega⟩
        apply hclear.gapAt_format_of_tightened e hlength
        rw [h.inkAt_left, decide_eq_true (by omega), Bool.true_and]
        exact htight
      · obtain ⟨e, rfl⟩ : ∃ e, j = e + 2 := ⟨j - 2, by omega⟩
        apply hclear.gapAt_format_of_signs e hlength
        · rw [h.inkAt_left, decide_eq_true (by omega), Bool.true_and]
          exact hfirst
        · rw [h.inkAt_left, decide_eq_true (by omega), Bool.true_and]
          exact hsecond
    · rw [h.gapAt_format_right hs.code]
      exact hright (i + 1) (by rw [h.wavers_right hv, hj])

/-- An operand is called for behind it, or it is written with nothing or with a blank behind it. -/
theorem of_absorbsBehind {c : Char} (h : absorbsBehind c = true) :
    isBeforeSign c = true ∨ isTightened c = true ∨ isPadded c = true := by
  have hall : ∀ c ∈ loudChars, (!absorbsBehind c || isBeforeSign c || isTightened c || isPadded c) =
    true := List.all_eq_true.1 (by decide)
  have hmem : c ∈ loudChars := by
    rw [absorbsBehind, Bool.and_eq_true, List.contains_iff_mem] at h
    exact h.1
  have hclass := hall c hmem
  rw [h, Bool.not_true, Bool.false_or, Bool.or_eq_true, Bool.or_eq_true, or_assoc] at hclass
  exact hclass

/-- A left side that ends in the gap in front of a sign keeps it, where the sign does not waver. -/
theorem Step.gapAt_format_of_sign {s : List Char} {c : Cut} {j : Nat} (h : Step s c signView j)
    (hs : Clear s) (hj : unaryAt j s = true) (hwavers : wavers j s = false)
    (hbefore : inkAt isBeforeSign (j - 1) s = false) : gapAt j (format c.left) = true := by
  have hclear := h.clear_left hs
  by_cases habsorbs : 0 < j ∧ inkAt absorbsBehind (j - 1) s = true
  · -- the ink in front of the sign takes in blanks: it is one that is written with a blank
    -- behind it
    obtain ⟨e, rfl⟩ : ∃ e, j = e + 1 := ⟨j - 1, by omega⟩
    obtain ⟨d, hd, hclass⟩ := inkAt_iff.1 habsorbs.2
    rcases of_absorbsBehind hclass with hcalls | htight | hpadded
    · rw [inkAt_iff.2 ⟨d, hd, hcalls⟩] at hbefore
      cases hbefore
    · have htight : inkAt isTightened e s = true := inkAt_iff.2 ⟨d, hd, htight⟩
      simp [wavers, hj, htight] at hwavers
    · apply hclear.gapAt_format_of_padded e h.length_ink_left
      · rw [h.inkAt_left, decide_eq_true (Nat.lt_succ_self e), Bool.true_and]
        exact inkAt_iff.2 ⟨d, hd, hpadded⟩
      · rintro ⟨hpos, hfirst, hsecond⟩
        rw [h.inkAt_left, Bool.and_eq_true] at hfirst hsecond
        have hone : 1 < e + 1 := by omega
        simp [wavers, hj, hone, hfirst.2, hsecond.2] at hwavers
  · -- otherwise the place is plain
    have hend : gapAt j c.left = true := by
      rw [h.cuts.left_end]
      exact gapAt_of_unaryAt hj hbefore
    refine (hclear.gapAt_format j ⟨fun hpos => ?_, ?_, fun hdot => ?_⟩).trans hend
    · rw [h.inkAt_left, Bool.eq_false_iff.2 fun htrue => habsorbs ⟨hpos, htrue⟩, Bool.and_false]
    · rw [h.inkAt_left, decide_eq_false (Nat.lt_irrefl j), Bool.false_and]
    · rw [h.inkAt_left, decide_eq_false (Nat.lt_irrefl j), Bool.false_and] at hdot
      cases hdot

/-- **The gap in front of the sign of a word is kept** where the sign does not waver. -/
theorem Clear.gapAt_format_sign {s : List Char} (hs : Clear s) :
    ∀ j, unaryAt j s = true → wavers j s = false → inkAt isBeforeSign (j - 1) s = false →
      gapAt j (format s) = true := by
  refine hs.induction (P := fun s => ∀ j, unaryAt j s = true → wavers j s = false →
    inkAt isBeforeSign (j - 1) s = false → gapAt j (format s) = true) ?_ ?_
  · intro s _ hquiet _ j hj
    rw [hquiet.unaryAt_eq_false] at hj
    cases hj
  · intro s c v k hs h hleft hright j hj hwavers hbefore
    obtain ⟨hv, hlt | ⟨rfl, rfl⟩ | ⟨i, rfl⟩⟩ := h.unary_cases hj
    · rw [h.gapAt_format_left hs.code (by omega)]
      apply hleft j
      · rw [h.unaryAt_left, decide_eq_true hlt, Bool.true_and, hj]
      · rw [h.wavers_left hlt, hwavers]
      · rw [h.inkAt_left, hbefore, Bool.and_false]
    · rw [h.gapAt_format_left hs.code (Nat.le_refl j)]
      exact h.gapAt_format_of_sign hs hj hwavers hbefore
    · rw [h.gapAt_format_right hs.code]
      apply hright (i + 1)
      · rw [h.unaryAt_right, hj]
      · rw [h.wavers_right hv, hwavers]
      · rw [h.inkAt_right, ← hbefore]
        rfl

end Pcode.Spacing
