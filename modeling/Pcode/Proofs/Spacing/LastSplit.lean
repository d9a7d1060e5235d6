import Pcode.Proofs.Text.Place
import Pcode.Spacing.Probe

set_option autoImplicit false

/-! # The last split by places

A rule takes the longest lead that has something behind it. Which lead that is can be said by
places: of the places at which a probe finds something, it is the last one (`IsLast`).

Main statements, for a text on one line: the last split behind ink (`lastSplit_isInk`), and the last
split in front of ink, for probes that leave the blanks in front of it to the lead
(`EndsLead.lastSplit_isLast`). -/

namespace Pcode.Spacing

open Pcode.Text

/-! ## The last place -/

section

variable {α : Type}

/-- The last of the places at which something is found gives `r`; if there is none, `r` is
nothing. -/
def IsLast (found : Nat → Option α) (r : Option α) : Prop :=
  (r = none ∧ ∀ k, found k = none) ∨
    ∃ k a, r = some a ∧ found k = some a ∧ ∀ j, found j ≠ none → j ≤ k

namespace IsLast

variable {found : Nat → Option α} {r : Option α}

theorem congr (h : IsLast found r) {found' : Nat → Option α} (hfound : ∀ k, found' k = found k) :
    IsLast found' r := by
  rwa [funext hfound]

theorem map (h : IsLast found r) {β : Type} (g : α → β) :
    IsLast (fun k => (found k).map g) (r.map g) := by
  rcases h with ⟨rfl, hnone⟩ | ⟨k, a, rfl, hk, hlast⟩
  · exact Or.inl ⟨rfl, fun k => Option.map_eq_none_iff.2 (hnone k)⟩
  · refine Or.inr ⟨k, g a, rfl, congrArg (Option.map g) hk, fun j hj => hlast j fun hnone => ?_⟩
    exact hj (Option.map_eq_none_iff.2 hnone)

/-- One more place in front counts only if nothing is found further on. -/
theorem cons (h : IsLast (fun k => found (k + 1)) r) : IsLast found (r.or (found 0)) := by
  rcases h with ⟨rfl, hnone⟩ | ⟨k, a, rfl, hk, hlast⟩
  · have hlater : ∀ j, found j ≠ none → j = 0 := by
      intro j hj
      cases j with
      | zero => rfl
      | succ j => exact absurd (hnone j) hj
    cases hzero : found 0 with
    | none =>
        left
        refine ⟨rfl, fun k => ?_⟩
        by_contra hk
        rw [hlater k hk] at hk
        exact hk hzero
    | some a => exact Or.inr ⟨0, a, rfl, hzero, fun j hj => Nat.le_of_eq (hlater j hj)⟩
  · refine Or.inr ⟨k + 1, a, rfl, hk, fun j hj => ?_⟩
    cases j with
    | zero => exact Nat.zero_le _
    | succ j => exact Nat.succ_le_succ (hlast j hj)

end IsLast

end

/-! ## Splits -/

section

variable {β : Type} {ends : Char → Bool} {p : List Char → Option β}

/-- The split of a text into a lead and the rest, if the lead ends in the class `ends` and the probe
finds something in the rest. -/
def splitAt? (ends : Char → Bool) (p : List Char → Option β) (lead rest : List Char) :
    Option (List Char × β) :=
  if lead.getLast?.any ends then (p rest).map (lead, ·) else none

theorem splitAt?_cons_cons (c d : Char) (lead rest : List Char) :
    splitAt? ends p (c :: d :: lead) rest =
      (splitAt? ends p (d :: lead) rest).map fun q => (c :: q.1, q.2) := by
  rw [splitAt?, splitAt?, List.getLast?_cons_cons]
  split
  · rw [Option.map_map]
    rfl
  · rfl

theorem splitAt?_eq_some {lead rest : List Char} {q : List Char × β}
    (h : splitAt? ends p lead rest = some q) : q.1 = lead ∧ p rest = some q.2 := by
  rw [splitAt?] at h
  split at h
  · obtain ⟨f, hf, rfl⟩ := Option.map_eq_some_iff.1 h
    exact ⟨rfl, hf⟩
  · cases h

theorem lastSplit_cons {c : Char} (hc : c ≠ '\n') (s : List Char) :
    lastSplit ends p (c :: s) =
      ((lastSplit ends p s).map fun q => (c :: q.1, q.2)).or (splitAt? ends p [c] s) := by
  rw [lastSplit, if_neg hc]
  cases lastSplit ends p s with
  | none => rfl
  | some q => rfl

theorem newline_not_mem_of_cons {c : Char} {s : List Char} (h : '\n' ∉ c :: s) :
    c ≠ '\n' ∧ '\n' ∉ s := by
  simp only [List.mem_cons, not_or] at h
  exact ⟨fun hc => h.1 hc.symm, h.2⟩

/-! ## Behind ink -/

/-- **Splits behind ink**: the last place at which the probe finds something. -/
theorem lastSplit_isInk (p : List Char → Option β) {s : List Char} (hs : '\n' ∉ s) :
    IsLast
      (fun k => if k < (ink s).length then (p (past (k + 1) s)).map (upTo (k + 1) s, ·) else none)
      (lastSplit isInk p s) := by
  induction s with
  | nil => exact Or.inl ⟨rfl, fun k => if_neg (Nat.not_lt_zero k)⟩
  | cons c s ih =>
      obtain ⟨hc, hs⟩ := newline_not_mem_of_cons hs
      have hrest := (ih hs).map fun q => (c :: q.1, q.2)
      simp only [apply_ite (Option.map _), Option.map_map, Option.map_none] at hrest
      rw [lastSplit_cons hc]
      by_cases hblank : isBlank c = true
      · -- a blank is no end of a split, and it is passed over by every place
        have hnone : splitAt? isInk p [c] s = none := by simp [splitAt?, isInk, hblank]
        simp only [past_cons_of_blank hblank, upTo_cons_of_blank hblank, ink_cons_of_isBlank hblank]
        rw [hnone, Option.or_none]
        exact hrest
      · have hink : isBlank c = false := by simpa using hblank
        have hfirst : splitAt? isInk p [c] s = if 0 < (ink s).length + 1 then
            (p (past 0 s)).map (c :: upTo 0 s, ·) else none := by simp [splitAt?, isInk, hink]
        simp only [past_cons_of_ink hink, upTo_cons_of_ink hink, ink_cons_of_ink hink,
          List.length_cons]
        rw [hfirst]
        exact IsLast.cons (hrest.congr fun k => by simp only [Nat.add_lt_add_iff_right]; rfl)

/-! ## In front of ink -/

/-- A probe for splits right in front of ink: blanks in front of what it finds belong to the
lead. -/
def EndsLead (ends : Char → Bool) (p : List Char → Option β) : Prop :=
  p [] = none ∧
    ∀ c t, isBlank c = true → p (c :: t) ≠ none → ends c = true ∧ p (c :: t) = p t

/-- The lead up to a place ends in the class `ends`, and the probe finds something behind it. -/
def leadSpot (ends : Char → Bool) (p : List Char → Option β) (k : Nat) (s : List Char) : Bool :=
  (leadTo k s).getLast?.any ends && (p (skipBlanks (past k s))).isSome

theorem isSome_splitAt?_leadTo (k : Nat) (s : List Char) :
    (splitAt? ends p (leadTo k s) (skipBlanks (past k s))).isSome = leadSpot ends p k s := by
  rw [splitAt?, leadSpot]
  cases (leadTo k s).getLast?.any ends with
  | false => rfl
  | true => simp

theorem EndsLead.blanks (h : EndsLead ends p) {s : List Char} (hs : p s ≠ none) :
    p (skipBlanks s) = p s ∧ ∀ c ∈ s.takeWhile isBlank, ends c = true := by
  induction s with
  | nil => exact ⟨rfl, by simp⟩
  | cons c s ih =>
      by_cases hc : isBlank c = true
      · obtain ⟨hend, heq⟩ := h.2 c s hc hs
        rw [heq] at hs ⊢
        simpa [skipBlanks, hc, hend] using ih hs
      · simp [skipBlanks, hc]

theorem skipBlanks_past_cons {d : Char} (hd : isBlank d = true) (k : Nat) (s : List Char) :
    skipBlanks (past k (d :: s)) = skipBlanks (past k s) := by
  cases k with
  | zero => simp [skipBlanks, hd]
  | succ k => rw [past_cons_of_blank hd]

/-- Something found at a blank is found in front of the next ink too. -/
theorem EndsLead.splitAt?_ne_none (h : EndsLead ends p) {d : Char} {s : List Char}
    (hd : isBlank d = true) (hfound : p (d :: s) ≠ none) :
    splitAt? ends p (d :: leadTo 0 s) (skipBlanks (past 0 s)) ≠ none := by
  obtain ⟨heq, hends⟩ := h.blanks hfound
  have hlead : d :: leadTo 0 s = (d :: s).takeWhile isBlank := by simp [leadTo, hd]
  have hne : (d :: s).takeWhile isBlank ≠ [] := by simp [hd]
  have hlast : ((d :: s).takeWhile isBlank).getLast?.any ends = true := by
    rw [List.getLast?_eq_some_getLast hne, Option.any_some]
    exact hends _ (List.getLast_mem hne)
  rw [splitAt?, hlead, if_pos hlast, ← skipBlanks_past_cons hd, past_zero, heq]
  simpa using hfound

/-- The lead of a text behind a first character. -/
theorem EndsLead.lastSplit_cons (h : EndsLead ends p) {c : Char} {s : List Char} (hc : c ≠ '\n')
    (hs : '\n' ∉ s) :
    IsLast (fun k => splitAt? ends p (c :: leadTo k s) (skipBlanks (past k s)))
      (lastSplit ends p (c :: s)) := by
  induction s generalizing c with
  | nil =>
      have hnil : skipBlanks [] = [] := rfl
      left
      simp [lastSplit, splitAt?, h.1, hnil]
  | cons d s ih =>
      obtain ⟨hd, hs⟩ := newline_not_mem_of_cons hs
      have hlast := ih hd hs
      have hrest := hlast.map fun q => (c :: q.1, q.2)
      rw [Spacing.lastSplit_cons hc]
      by_cases hblank : isBlank d = true
      · -- the lead goes on behind the blank, and nothing is found at the blank alone
        have hnone : lastSplit ends p (d :: s) = none → splitAt? ends p [c] (d :: s) = none := by
          intro hsplit
          have hfirst : p (d :: s) = none := by
            by_contra hfound
            rcases hlast with ⟨-, hall⟩ | ⟨k, a, hsome, -, -⟩
            · exact h.splitAt?_ne_none hblank hfound (hall 0)
            · rw [hsplit] at hsome
              cases hsome
          simp [splitAt?, hfirst]
        have hor : ((lastSplit ends p (d :: s)).map fun q => (c :: q.1, q.2)).or
            (splitAt? ends p [c] (d :: s)) =
              (lastSplit ends p (d :: s)).map fun q => (c :: q.1, q.2) := by
          cases hsplit : lastSplit ends p (d :: s) with
          | none => rw [hnone hsplit, Option.or_none]
          | some q => rfl
        rw [hor]
        refine hrest.congr fun k => ?_
        rw [leadTo_cons_of_blank hblank, skipBlanks_past_cons hblank, splitAt?_cons_cons]
      · have hink : isBlank d = false := by simpa using hblank
        have hbegins : BeginsInk (d :: s) := ⟨d, rfl, hink⟩
        have hfirst : splitAt? ends p [c] (d :: s) =
            splitAt? ends p (c :: leadTo 0 (d :: s)) (skipBlanks (past 0 (d :: s))) := by
          rw [leadTo_zero_of_beginsInk hbegins, past_zero, hbegins.skipBlanks_eq]
        rw [hfirst]
        refine IsLast.cons (hrest.congr fun k => ?_)
        rw [leadTo_cons_of_ink hink, past_cons_of_ink hink, splitAt?_cons_cons]

/-- **The last split in front of ink** is at the last spot. -/
theorem EndsLead.lastSplit_isLast (h : EndsLead ends p) {s : List Char} (hs : '\n' ∉ s) :
    IsLast (fun k => splitAt? ends p (leadTo k s) (skipBlanks (past k s)))
      (lastSplit ends p s) := by
  cases s with
  | nil =>
      left
      have hnil : skipBlanks [] = [] := rfl
      simp [lastSplit, splitAt?, hnil, h.1]
  | cons c s =>
      obtain ⟨hc, hs⟩ := newline_not_mem_of_cons hs
      have hlast := h.lastSplit_cons hc hs
      by_cases hblank : isBlank c = true
      · refine hlast.congr fun k => ?_
        rw [leadTo_cons_of_blank hblank, skipBlanks_past_cons hblank]
      · -- at the start there is no lead
        have hink : isBlank c = false := by simpa using hblank
        have hzero : splitAt? ends p (leadTo 0 (c :: s)) (skipBlanks (past 0 (c :: s))) = none := by
          rw [leadTo_zero_of_beginsInk ⟨c, rfl, hink⟩]
          rfl
        rw [← Option.or_none (o := lastSplit ends p (c :: s)), ← hzero]
        refine IsLast.cons (hlast.congr fun k => ?_)
        rw [leadTo_cons_of_ink hink, past_cons_of_ink hink]

end

end Pcode.Spacing
