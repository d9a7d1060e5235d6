import Mathlib.Data.List.DropRight
import Pcode.Proofs.Text.Respaced
import Pcode.Text.Digit
import Pcode.Text.Word

set_option autoImplicit false

/-! # Blanks at the ends of a text

A blank is no word character and no digit. `trimEnd` of a text in two parts is settled by the
second part: if that is blank it goes with the trailing blanks of the first
(`trimEnd_append_of_blank`), else the first part stays as it is (`trimEnd_append_of_ink`). -/

namespace Pcode.Text

/-! ## Which characters are no blanks -/

/-- The code points of the blanks. -/
def blankCodes : List Nat :=
  List.range' 9 5 ++ List.range' 28 5 ++ [0x85, 0xA0, 0x1680] ++ List.range' 0x2000 11 ++
    [0x2028, 0x2029, 0x202F, 0x205F, 0x3000]

theorem mem_blankCodes {c : Char} (h : isBlank c = true) : c.toNat ∈ blankCodes := by
  simp only [isBlank, Bool.or_eq_true, Bool.and_eq_true, decide_eq_true_eq, beq_iff_eq] at h
  simp only [blankCodes, List.mem_append, List.mem_range'_1, List.mem_cons, List.not_mem_nil,
    or_false]
  omega

theorem isWord_of_isBlank {c : Char} (h : isBlank c = true) : isWord c = false := by
  have hcodes : ∀ n ∈ blankCodes, isWord (Char.ofNat n) = false := by decide +kernel
  rw [← Char.ofNat_toNat c]
  exact hcodes _ (mem_blankCodes h)

theorem isDecimal_of_isBlank {c : Char} (h : isBlank c = true) : isDecimal c = false := by
  have hcodes : ∀ n ∈ blankCodes, isDecimal (Char.ofNat n) = false := by decide +kernel
  rw [← Char.ofNat_toNat c]
  exact hcodes _ (mem_blankCodes h)

theorem isBlank_of_isWord {c : Char} (h : isWord c = true) : isBlank c = false := by
  cases hc : isBlank c with
  | false => rfl
  | true => rw [isWord_of_isBlank hc] at h; cases h

/-! ## Trailing blanks -/

variable {s t : List Char} {c : Char}

theorem trimEnd_eq_rdropWhile (s : List Char) : trimEnd s = s.rdropWhile isBlank := rfl

theorem trimEnd_eq_nil_iff (s : List Char) : trimEnd s = [] ↔ s.all isBlank = true := by
  rw [trimEnd_eq_rdropWhile, List.rdropWhile_eq_nil_iff, List.all_eq_true]

theorem exists_trimEnd_append (s : List Char) :
    ∃ b, s = trimEnd s ++ b ∧ b.all isBlank = true := by
  refine ⟨(s.reverse.takeWhile isBlank).reverse, ?_, ?_⟩
  · show s = (s.reverse.dropWhile isBlank).reverse ++ _
    rw [← List.reverse_append, List.takeWhile_append_dropWhile, List.reverse_reverse]
  · rw [List.all_reverse]
    exact List.all_eq_true.2 fun c hc => List.mem_takeWhile_imp hc

theorem trimEnd_append_of_blank (ht : t.all isBlank = true) : trimEnd (s ++ t) = trimEnd s := by
  induction t using List.reverseRecOn with
  | nil => rw [List.append_nil]
  | append_singleton t c ih =>
      obtain ⟨hblank, hc⟩ : t.all isBlank = true ∧ isBlank c = true := by simpa using ht
      rw [← List.append_assoc, trimEnd_eq_rdropWhile, List.rdropWhile_concat_pos _ _ _ hc]
      exact ih hblank

theorem trimEnd_append_of_ink (ht : t.all isBlank = false) : trimEnd (s ++ t) = s ++ trimEnd t := by
  induction t using List.reverseRecOn with
  | nil => cases ht
  | append_singleton t c ih =>
      rw [← List.append_assoc, trimEnd_eq_rdropWhile, trimEnd_eq_rdropWhile]
      by_cases hc : isBlank c = true
      · have hink : t.all isBlank = false := by simpa [hc] using ht
        rw [List.rdropWhile_concat_pos _ _ _ hc, List.rdropWhile_concat_pos _ _ _ hc]
        exact ih hink
      · rw [List.rdropWhile_concat_neg _ _ _ hc, List.rdropWhile_concat_neg _ _ _ hc,
          List.append_assoc]

/-- What is left of a text and another one behind it depends on what is left of the other. -/
theorem trimEnd_append_congr {t t' : List Char} (h : trimEnd t = trimEnd t') (s : List Char) :
    trimEnd (s ++ t) = trimEnd (s ++ t') := by
  have hblank : t.all isBlank = true ↔ t'.all isBlank = true := by
    rw [← trimEnd_eq_nil_iff, ← trimEnd_eq_nil_iff, h]
  by_cases ht : t.all isBlank = true
  · rw [trimEnd_append_of_blank ht, trimEnd_append_of_blank (hblank.1 ht)]
  · have ht' : ¬ t'.all isBlank = true := fun h' => ht (hblank.2 h')
    rw [trimEnd_append_of_ink (by simpa using ht), trimEnd_append_of_ink (by simpa using ht'), h]

theorem trimEnd_cons_of_ink (hc : isBlank c = false) (s : List Char) :
    trimEnd (c :: s) = c :: trimEnd s := by
  by_cases hs : s.all isBlank = true
  · have hone : trimEnd [c] = [c] := by
      rw [trimEnd_eq_rdropWhile, List.rdropWhile_singleton, if_neg (by simp [hc])]
    rw [(trimEnd_eq_nil_iff s).2 hs, ← List.singleton_append, trimEnd_append_of_blank hs, hone]
  · have hink : s.all isBlank = false := by simpa using hs
    exact trimEnd_append_of_ink (s := [c]) hink

/-- It does not matter at which end blanks are dropped first. -/
theorem trim_eq_skipBlanks_trimEnd (s : List Char) : trim s = skipBlanks (trimEnd s) := by
  rw [trim]
  cases hskip : skipBlanks s with
  | nil =>
      have hall : s.all isBlank = true := by
        rw [← ink_eq_nil_iff, ← ink_skipBlanks, hskip]
        rfl
      rw [(trimEnd_eq_nil_iff s).2 hall]
      rfl
  | cons c r =>
      have hc : isBlank c = false := isBlank_of_skipBlanks_eq_cons hskip
      have hs : s = s.takeWhile isBlank ++ c :: r := by
        rw [← hskip, skipBlanks, List.takeWhile_append_dropWhile]
      have hblank : ∀ d ∈ s.takeWhile isBlank, isBlank d = true := fun d => List.mem_takeWhile_imp
      calc trimEnd (c :: r)
          = c :: trimEnd r := trimEnd_cons_of_ink hc r
        _ = skipBlanks (s.takeWhile isBlank ++ c :: trimEnd r) := by
            rw [skipBlanks, List.dropWhile_append_of_pos hblank]
            simp [hc]
        _ = skipBlanks (trimEnd (s.takeWhile isBlank ++ c :: r)) := by
            rw [trimEnd_append_of_ink (by simp [hc]), trimEnd_cons_of_ink hc]
        _ = skipBlanks (trimEnd s) := by rw [← hs]

theorem skipBlanks_skipBlanks (s : List Char) : skipBlanks (skipBlanks s) = skipBlanks s :=
  List.dropWhile_idempotent isBlank s

theorem trimEnd_trimEnd (s : List Char) : trimEnd (trimEnd s) = trimEnd s :=
  List.rdropWhile_idempotent isBlank s

theorem trimEnd_trim (s : List Char) : trimEnd (trim s) = trim s := trimEnd_trimEnd (skipBlanks s)

theorem skipBlanks_trim (s : List Char) : skipBlanks (trim s) = trim s := by
  rw [trim_eq_skipBlanks_trimEnd, skipBlanks_skipBlanks]

theorem trim_skipBlanks (s : List Char) : trim (skipBlanks s) = trim s := by
  rw [trim, trim, skipBlanks_skipBlanks]

theorem trim_trimEnd (s : List Char) : trim (trimEnd s) = trim s := by
  rw [trim_eq_skipBlanks_trimEnd, trim_eq_skipBlanks_trimEnd, trimEnd_trimEnd]

/-- A text begins with a character that is not blank. -/
def BeginsInk (s : List Char) : Prop := ∃ c ∈ s.head?, isBlank c = false

instance (s : List Char) : Decidable (BeginsInk s) :=
  decidable_of_iff ((s.head?.any fun c => !isBlank c) = true) (by cases s <;> simp [BeginsInk])

theorem BeginsInk.append (h : BeginsInk s) (t : List Char) : BeginsInk (s ++ t) := by
  obtain ⟨c, hc, hink⟩ := h
  refine ⟨c, ?_, hink⟩
  cases s with
  | nil => cases hc
  | cons d s => exact hc

theorem BeginsInk.exists_cons (h : BeginsInk s) : ∃ c r, s = c :: r ∧ isBlank c = false := by
  obtain ⟨c, hc, hink⟩ := h
  cases s with
  | nil => cases hc
  | cons d r => cases hc; exact ⟨c, r, rfl, hink⟩

theorem BeginsInk.all_eq_false (h : BeginsInk s) : s.all isBlank = false := by
  obtain ⟨c, r, rfl, hc⟩ := h.exists_cons
  simp [hc]

theorem BeginsInk.trimEnd (h : BeginsInk s) : BeginsInk (trimEnd s) := by
  obtain ⟨c, r, rfl, hc⟩ := h.exists_cons
  rw [trimEnd_cons_of_ink hc]
  exact ⟨c, rfl, hc⟩

theorem BeginsInk.skipBlanks_eq (h : BeginsInk s) : skipBlanks s = s := by
  obtain ⟨c, r, rfl, hc⟩ := h.exists_cons
  simp [skipBlanks, hc]

theorem beginsInk_skipBlanks (hs : s.all isBlank = false) : BeginsInk (skipBlanks s) := by
  cases hskip : skipBlanks s with
  | nil =>
      have hall : s.all isBlank = true := by
        rw [← ink_eq_nil_iff, ← ink_skipBlanks, hskip]
        rfl
      rw [hs] at hall
      cases hall
  | cons c r => exact ⟨c, rfl, isBlank_of_skipBlanks_eq_cons hskip⟩

theorem beginsInk_trim (hs : s.all isBlank = false) : BeginsInk (trim s) :=
  (beginsInk_skipBlanks hs).trimEnd

theorem skipBlanks_append_of_blank (hs : s.all isBlank = true) (t : List Char) :
    skipBlanks (s ++ t) = skipBlanks t :=
  List.dropWhile_append_of_pos (List.all_eq_true.1 hs)

theorem skipBlanks_eq_nil_iff (s : List Char) : skipBlanks s = [] ↔ s.all isBlank = true := by
  rw [skipBlanks, List.dropWhile_eq_nil_iff, List.all_eq_true]

/-- Where the first character outside a class is does not depend on what follows it. -/
theorem takeWhile_dropWhile_append {p : Char → Bool} {q : Char} {r : List Char}
    (h : s.dropWhile p = q :: r) (t : List Char) :
    (s ++ t).takeWhile p = s.takeWhile p ∧ (s ++ t).dropWhile p = q :: (r ++ t) := by
  induction s with
  | nil => cases h
  | cons c s ih =>
      by_cases hc : p c = true
      · rw [List.dropWhile_cons, if_pos hc] at h
        simp [hc, ih h]
      · rw [List.dropWhile_cons, if_neg hc] at h
        cases h
        simp [hc]

/-- Blanks after a text are dropped with it, if it is blank, or stay behind it. -/
theorem skipBlanks_append_cases (ht : t.all isBlank = true) (s : List Char) :
    (skipBlanks s = [] ∧ skipBlanks (s ++ t) = []) ∨
      ∃ c r, isBlank c = false ∧ skipBlanks s = c :: r ∧ skipBlanks (s ++ t) = c :: (r ++ t) := by
  cases hskip : skipBlanks s with
  | nil =>
      have hs := (skipBlanks_eq_nil_iff s).1 hskip
      rw [skipBlanks_append_of_blank hs]
      exact Or.inl ⟨rfl, (skipBlanks_eq_nil_iff t).2 ht⟩
  | cons c r =>
      exact Or.inr ⟨c, r, isBlank_of_skipBlanks_eq_cons hskip, rfl,
        (takeWhile_dropWhile_append hskip t).2⟩

theorem all_isBlank_replicate (n : Nat) : (List.replicate n ' ').all isBlank = true := by
  rw [← ink_eq_nil_iff, ink_replicate_space]

end Pcode.Text
