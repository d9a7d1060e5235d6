import Pcode.Proofs.Text.Gap

set_option autoImplicit false

/-! # Places in a text

A place of a text is named by the number of characters of ink in front of it. `upTo k` is the text
up to the last of them, `past k` what comes behind, blanks included, and `leadTo k` the text up to
the next ink. Whether a blank stands at a place (`gapAt`) can then be said for each part of a text
in terms of the whole (`gapAt_upTo`, `gapAt_leadTo`, `gapAt_past`), and for a text put together in
terms of its parts (`gapAt_append_of_lt`, `gapAt_append_of_eq`, `gapAt_append_of_gt`). -/

namespace Pcode.Text

/-- What comes behind the first `k` characters of ink. -/
def past : Nat → List Char → List Char
  | 0, s => s
  | _ + 1, [] => []
  | k + 1, c :: s => if isBlank c then past (k + 1) s else past k s

/-- The text up to and with the first `k` characters of ink. -/
def upTo : Nat → List Char → List Char
  | 0, _ => []
  | _ + 1, [] => []
  | k + 1, c :: s => c :: (if isBlank c then upTo (k + 1) s else upTo k s)

/-- The text up to the next ink after the first `k` characters of it. -/
def leadTo (k : Nat) (s : List Char) : List Char := upTo k s ++ (past k s).takeWhile isBlank

/-- A blank stands behind the first `k` characters of ink. -/
def gapAt (k : Nat) (s : List Char) : Bool := (past k s).head?.any isBlank

@[simp] theorem past_zero (s : List Char) : past 0 s = s := by
  cases s <;> rfl

@[simp] theorem upTo_zero (s : List Char) : upTo 0 s = [] := by
  cases s <;> rfl

@[simp] theorem past_nil (k : Nat) : past k [] = [] := by
  cases k <;> rfl

theorem past_cons_of_blank {c : Char} (hc : isBlank c = true) (k : Nat) (s : List Char) :
    past (k + 1) (c :: s) = past (k + 1) s := by
  rw [past, if_pos hc]

theorem past_cons_of_ink {c : Char} (hc : isBlank c = false) (k : Nat) (s : List Char) :
    past (k + 1) (c :: s) = past k s := by
  rw [past, if_neg (by simp [hc])]

theorem upTo_cons_of_blank {c : Char} (hc : isBlank c = true) (k : Nat) (s : List Char) :
    upTo (k + 1) (c :: s) = c :: upTo (k + 1) s := by
  rw [upTo, if_pos hc]

theorem upTo_cons_of_ink {c : Char} (hc : isBlank c = false) (k : Nat) (s : List Char) :
    upTo (k + 1) (c :: s) = c :: upTo k s := by
  rw [upTo, if_neg (by simp [hc])]

theorem upTo_append_past (k : Nat) (s : List Char) : upTo k s ++ past k s = s := by
  induction s generalizing k with
  | nil => cases k <;> rfl
  | cons c s ih =>
      cases k with
      | zero => rfl
      | succ k =>
          by_cases hc : isBlank c = true
          · rw [upTo_cons_of_blank hc, past_cons_of_blank hc, List.cons_append, ih]
          · have hink : isBlank c = false := by simpa using hc
            rw [upTo_cons_of_ink hink, past_cons_of_ink hink, List.cons_append, ih]

theorem past_suffix (k : Nat) (s : List Char) : past k s <:+ s := ⟨upTo k s, upTo_append_past k s⟩

theorem ink_past (k : Nat) (s : List Char) : ink (past k s) = (ink s).drop k := by
  induction s generalizing k with
  | nil => simp
  | cons c s ih =>
      cases k with
      | zero => simp
      | succ k =>
          by_cases hc : isBlank c = true
          · rw [past_cons_of_blank hc, ih, ink_cons_of_isBlank hc]
          · have hink : isBlank c = false := by simpa using hc
            rw [past_cons_of_ink hink, ih, ink_cons_of_ink hink, List.drop_succ_cons]

theorem ink_upTo (k : Nat) (s : List Char) : ink (upTo k s) = (ink s).take k := by
  have hparts : ink (upTo k s) ++ (ink s).drop k = (ink s).take k ++ (ink s).drop k := by
    rw [← ink_past, ← ink_append, upTo_append_past, ink_past, List.take_append_drop]
  exact List.append_cancel_right hparts

theorem past_skipBlanks (k : Nat) (s : List Char) :
    past (k + 1) (skipBlanks s) = past (k + 1) s := by
  induction s with
  | nil => rfl
  | cons c s ih =>
      by_cases hc : isBlank c = true
      · rw [past_cons_of_blank hc, ← ih]
        simp [skipBlanks, hc]
      · simp [skipBlanks, hc]

theorem past_add (k j : Nat) (s : List Char) : past (k + j) s = past j (past k s) := by
  induction s generalizing k with
  | nil => simp
  | cons c s ih =>
      cases k with
      | zero => simp
      | succ k =>
          rw [Nat.add_right_comm]
          by_cases hc : isBlank c = true
          · rw [past_cons_of_blank hc, past_cons_of_blank hc, ← ih, Nat.add_right_comm]
          · have hink : isBlank c = false := by simpa using hc
            rw [past_cons_of_ink hink, past_cons_of_ink hink, ih]

theorem past_append_of_le {k : Nat} {s : List Char} (h : k ≤ (ink s).length) (t : List Char) :
    past k (s ++ t) = past k s ++ t := by
  induction s generalizing k with
  | nil =>
      obtain rfl : k = 0 := by simpa using h
      simp
  | cons c s ih =>
      cases k with
      | zero => simp
      | succ k =>
          rw [List.cons_append]
          by_cases hc : isBlank c = true
          · rw [ink_cons_of_isBlank hc] at h
            rw [past_cons_of_blank hc, past_cons_of_blank hc, ih h]
          · have hink : isBlank c = false := by simpa using hc
            rw [ink_cons_of_ink hink, List.length_cons] at h
            rw [past_cons_of_ink hink, past_cons_of_ink hink, ih (by omega)]

/-- Behind all of its ink a text has blanks only. -/
theorem all_isBlank_past (s : List Char) : (past (ink s).length s).all isBlank = true := by
  rw [← ink_eq_nil_iff, ink_past, List.drop_length]

theorem past_blank_append {s : List Char} (hs : s.all isBlank = true) (j : Nat) (t : List Char) :
    past (j + 1) (s ++ t) = past (j + 1) t := by
  rw [← past_skipBlanks, skipBlanks_append_of_blank hs, past_skipBlanks]

theorem past_append_of_gt (j : Nat) (s t : List Char) :
    past ((ink s).length + (j + 1)) (s ++ t) = past (j + 1) t := by
  rw [past_add, past_append_of_le (Nat.le_refl _), past_blank_append (all_isBlank_past s)]

/-! ## Gaps by place -/

section

variable {s t : List Char} {k j : Nat}

theorem gapAt_zero_of_beginsInk (h : BeginsInk s) : gapAt 0 s = false := by
  obtain ⟨c, r, rfl, hc⟩ := h.exists_cons
  simp [gapAt, hc]

@[simp] theorem gapAt_nil (k : Nat) : gapAt k [] = false := by simp [gapAt]

theorem gapAt_zero_of_blank (hs : s.all isBlank = true) : gapAt 0 s = !s.isEmpty := by
  cases s with
  | nil => rfl
  | cons c s =>
      have hc : isBlank c = true := by simp at hs; exact hs.1
      simp [gapAt, hc]

theorem gapAt_skipBlanks (k : Nat) (s : List Char) :
    gapAt (k + 1) (skipBlanks s) = gapAt (k + 1) s := by
  rw [gapAt, gapAt, past_skipBlanks]

@[simp] theorem gapAt_zero_skipBlanks (s : List Char) : gapAt 0 (skipBlanks s) = false := by
  by_cases hs : s.all isBlank = true
  · rw [(skipBlanks_eq_nil_iff s).2 hs, gapAt_nil]
  · exact gapAt_zero_of_beginsInk (beginsInk_skipBlanks (by simpa using hs))

theorem gapAt_past (k j : Nat) (s : List Char) : gapAt j (past k s) = gapAt (k + j) s := by
  rw [gapAt, gapAt, past_add]

theorem past_ne_nil (h : k < (ink s).length) : past k s ≠ [] := by
  intro hnil
  have hink := ink_past k s
  rw [hnil, ink_nil] at hink
  have := congrArg List.length hink
  rw [List.length_drop, List.length_nil] at this
  omega

theorem gapAt_append_of_lt (h : k < (ink s).length) (t : List Char) :
    gapAt k (s ++ t) = gapAt k s := by
  rw [gapAt, gapAt, past_append_of_le (Nat.le_of_lt h), List.head?_append_of_ne_nil _
    (past_ne_nil h)]

theorem gapAt_append_of_eq (s t : List Char) :
    gapAt (ink s).length (s ++ t) = (gapAt (ink s).length s || gapAt 0 t) := by
  have hblank := all_isBlank_past s
  rw [gapAt, gapAt, past_append_of_le (Nat.le_refl _)]
  cases hpast : past (ink s).length s with
  | nil => simp [gapAt]
  | cons c r =>
      have hc : isBlank c = true := by
        rw [hpast] at hblank
        simp at hblank
        exact hblank.1
      simp [hc]

theorem gapAt_append_of_gt (j : Nat) (s t : List Char) :
    gapAt ((ink s).length + (j + 1)) (s ++ t) = gapAt (j + 1) t := by
  rw [gapAt, gapAt, past_append_of_gt]

theorem gapAt_of_gt (h : (ink s).length < k) : gapAt k s = false := by
  obtain ⟨j, rfl⟩ : ∃ j, k = (ink s).length + (j + 1) := ⟨k - (ink s).length - 1, by omega⟩
  have happend := gapAt_append_of_gt j s []
  rwa [List.append_nil, gapAt_nil] at happend

/-- Text without blanks has no gap in it. -/
theorem gapAt_of_ink (hs : ∀ c ∈ s, isBlank c = false) (k : Nat) : gapAt k s = false := by
  rw [gapAt]
  cases hpast : past k s with
  | nil => rfl
  | cons c r =>
      have hmem : c ∈ past k s := by rw [hpast]; exact List.mem_cons_self
      simp [hs c ((past_suffix k s).mem hmem)]

theorem past_upTo (k : Nat) (s : List Char) : past k (upTo k s) = [] := by
  induction s generalizing k with
  | nil => cases k <;> rfl
  | cons c s ih =>
      cases k with
      | zero => rfl
      | succ k =>
          by_cases hc : isBlank c = true
          · rw [upTo_cons_of_blank hc, past_cons_of_blank hc, ih]
          · have hink : isBlank c = false := by simpa using hc
            rw [upTo_cons_of_ink hink, past_cons_of_ink hink, ih]

theorem length_ink_upTo (h : k ≤ (ink s).length) : (ink (upTo k s)).length = k := by
  rw [ink_upTo, List.length_take, Nat.min_eq_left h]

theorem gapAt_upTo_append_of_lt (h : j < k) (hk : k ≤ (ink s).length) (t : List Char) :
    gapAt j (upTo k s ++ t) = gapAt j s := by
  have hj : j < (ink (upTo k s)).length := by rwa [length_ink_upTo hk]
  rw [gapAt_append_of_lt hj, ← gapAt_append_of_lt hj (past k s), upTo_append_past]

theorem gapAt_upTo_append (hk : k ≤ (ink s).length) (t : List Char) :
    gapAt k (upTo k s ++ t) = gapAt 0 t := by
  have happend := gapAt_append_of_eq (upTo k s) t
  rw [length_ink_upTo hk] at happend
  rw [happend, gapAt, past_upTo]
  rfl

theorem ink_leadTo (k : Nat) (s : List Char) : ink (leadTo k s) = (ink s).take k := by
  have hblank : ((past k s).takeWhile isBlank).all isBlank = true :=
    List.all_eq_true.2 fun c hc => List.mem_takeWhile_imp hc
  rw [leadTo, ink_append, ink_upTo, (ink_eq_nil_iff _).2 hblank, List.append_nil]

theorem gapAt_leadTo (hk : k ≤ (ink s).length) : gapAt k (leadTo k s) = gapAt k s := by
  rw [leadTo, gapAt_upTo_append hk, gapAt, gapAt, past_zero]
  cases past k s with
  | nil => rfl
  | cons c r => by_cases hc : isBlank c = true <;> simp [hc]

theorem leadTo_cons_of_blank {c : Char} (hc : isBlank c = true) (k : Nat) (s : List Char) :
    leadTo k (c :: s) = c :: leadTo k s := by
  cases k with
  | zero => simp [leadTo, hc]
  | succ k => rw [leadTo, leadTo, upTo_cons_of_blank hc, past_cons_of_blank hc, List.cons_append]

theorem leadTo_zero_of_beginsInk (h : BeginsInk s) : leadTo 0 s = [] := by
  obtain ⟨c, r, rfl, hc⟩ := h.exists_cons
  simp [leadTo, hc]

theorem leadTo_cons_of_ink {c : Char} (hc : isBlank c = false) (k : Nat) (s : List Char) :
    leadTo (k + 1) (c :: s) = c :: leadTo k s := by
  rw [leadTo, leadTo, upTo_cons_of_ink hc, past_cons_of_ink hc, List.cons_append]

/-- A lead of a lead is one of the text. -/
theorem leadTo_leadTo {a b : Nat} (h : a < b) (s : List Char) :
    leadTo a (leadTo b s) = leadTo a s := by
  induction s generalizing a b with
  | nil => cases b <;> rfl
  | cons c s ih =>
      by_cases hc : isBlank c = true
      · rw [leadTo_cons_of_blank hc, leadTo_cons_of_blank hc, leadTo_cons_of_blank hc, ih h]
      · have hink : isBlank c = false := by simpa using hc
        obtain ⟨b, rfl⟩ : ∃ b', b = b' + 1 := ⟨b - 1, by omega⟩
        rw [leadTo_cons_of_ink hink]
        cases a with
        | zero =>
            rw [leadTo_zero_of_beginsInk ⟨c, rfl, hink⟩, leadTo_zero_of_beginsInk ⟨c, rfl, hink⟩]
        | succ a => rw [leadTo_cons_of_ink hink, leadTo_cons_of_ink hink, ih (by omega)]

theorem past_leadTo (k j : Nat) (s : List Char) :
    past k (leadTo (k + j) s) = leadTo j (past k s) := by
  induction s generalizing k with
  | nil => cases k <;> cases j <;> rfl
  | cons c s ih =>
      cases k with
      | zero => rw [past_zero, past_zero, Nat.zero_add]
      | succ k =>
          by_cases hc : isBlank c = true
          · rw [leadTo_cons_of_blank hc, past_cons_of_blank hc, past_cons_of_blank hc, ih]
          · have hink : isBlank c = false := by simpa using hc
            rw [Nat.add_right_comm, leadTo_cons_of_ink hink, past_cons_of_ink hink,
              past_cons_of_ink hink, ih]

theorem skipBlanks_leadTo (k : Nat) (s : List Char) :
    skipBlanks (leadTo k s) = leadTo k (skipBlanks s) := by
  induction s with
  | nil => cases k <;> rfl
  | cons c s ih =>
      by_cases hc : isBlank c = true
      · have hskip : ∀ t, skipBlanks (c :: t) = skipBlanks t := fun t => by simp [skipBlanks, hc]
        rw [leadTo_cons_of_blank hc, hskip, hskip, ih]
      · have hink : isBlank c = false := by simpa using hc
        have hkeep : ∀ t, skipBlanks (c :: t) = c :: t := fun t => by simp [skipBlanks, hink]
        rw [hkeep]
        cases k with
        | zero =>
            rw [leadTo_zero_of_beginsInk ⟨c, rfl, hink⟩]
            rfl
        | succ k => rw [leadTo_cons_of_ink hink, hkeep]

/-- A text is its lead up to a place and the text from the next ink on. -/
theorem leadTo_append_skipBlanks (k : Nat) (s : List Char) :
    leadTo k s ++ skipBlanks (past k s) = s := by
  rw [leadTo, skipBlanks, List.append_assoc, List.takeWhile_append_dropWhile, upTo_append_past]

end

/-! ## Ink by place -/

/-- The ink behind the first `k` characters of it is of the class `p`. -/
def inkAt (p : Char → Bool) (k : Nat) (s : List Char) : Bool := ((ink s)[k]?).any p

theorem inkAt_of_ink_eq {s t : List Char} (h : ink s = ink t) (p : Char → Bool) (k : Nat) :
    inkAt p k s = inkAt p k t := by
  rw [inkAt, inkAt, h]

theorem inkAt_iff {p : Char → Bool} {k : Nat} {s : List Char} :
    inkAt p k s = true ↔ ∃ c, (ink s)[k]? = some c ∧ p c = true := by
  rw [inkAt, Option.any_eq_true]

theorem lt_of_inkAt {p : Char → Bool} {k : Nat} {s : List Char} (h : inkAt p k s = true) :
    k < (ink s).length := by
  obtain ⟨c, hc, -⟩ := inkAt_iff.1 h
  exact (List.getElem?_eq_some_iff.1 hc).1

theorem inkAt_imp {p q : Char → Bool} (hpq : ∀ c, p c = true → q c = true) {k : Nat} {s : List Char}
    (h : inkAt p k s = true) : inkAt q k s = true := by
  obtain ⟨c, hc, hp⟩ := inkAt_iff.1 h
  exact inkAt_iff.2 ⟨c, hc, hpq c hp⟩

/-- A character is not of two classes that exclude each other. -/
theorem inkAt_eq_false {p q : Char → Bool} (hpq : ∀ c, p c = true → q c = false) {k : Nat}
    {s : List Char} (h : inkAt p k s = true) : inkAt q k s = false := by
  obtain ⟨c, hc, hp⟩ := inkAt_iff.1 h
  simp [inkAt, hc, hpq c hp]

end Pcode.Text
