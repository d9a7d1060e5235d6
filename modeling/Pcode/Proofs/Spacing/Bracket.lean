import Pcode.Proofs.Spacing.Alike

set_option autoImplicit false

/-! # Brackets in any order

An opening bracket at the very start of a text is cut before all others, but one that stands behind
a blank waits until those to the right of it have been cut. It makes no difference: where only
brackets are left to cut, any of them may be the first (`Bracketed.gapAt_format`). So texts that are
alike but for the gap at the start come out with the same gaps behind it (`Alike.gapAt_format`). -/

namespace Pcode.Spacing

open Pcode.Text

/-! ## Texts with brackets left to cut -/

/-- A character that is cut before the brackets are. -/
def isEarly (c : Char) : Bool := isOperator c || c == ':' || c == '^'

/-- Clear code in which nothing is left to cut before the brackets. -/
structure Bracketed (s : List Char) : Prop extends Clear s where
  early : ∀ k, inkAt isEarly k s = false
  calls : ∀ k, callView.spot k s = false

theorem bracketed_iff {s : List Char} : Bracketed s ↔ Clear s ∧ NoSpot (views.take 10) s := by
  constructor
  · intro h
    refine ⟨h.toClear, fun v hv k => ?_⟩
    by_contra hspot
    rw [Bool.not_eq_false] at hspot
    have hviews : views.take 10 = views.take 9 ++ [callView] := rfl
    rw [hviews, List.mem_append, List.mem_singleton] at hv
    rcases hv with hv | rfl
    -- each of the views before that of calls takes an early character
    · have hall : ∀ v ∈ views.take 9, ((List.range v.size).any fun i => v.Holds i isEarly) = true :=
        List.all_eq_true.1 (by decide)
      obtain ⟨i, -, hholds⟩ := List.any_eq_true.1 (hall v hv)
      have hink := inkAt_of_spot (List.mem_of_mem_take hv) hspot hholds
      rw [h.early] at hink
      cases hink
    · rw [h.calls] at hspot
      cases hspot
  · rintro ⟨hclear, hnone⟩
    -- an early character is one of three kinds, each with a view of its own
    have hsingle : ∀ p l r, symbolView [p] l r ∈ views.take 10 → ∀ k, inkAt p k s = false := by
      intro p l r hmem k
      have hspot : fits [p] ((ink s).drop k) = false := hnone _ hmem k
      rwa [fits_drop, fits, Bool.and_true] at hspot
    refine ⟨hclear, fun k => ?_, hnone callView (List.mem_of_getElem? (i := 9) rfl)⟩
    by_contra hearly
    obtain ⟨c, hc, hclass⟩ := inkAt_iff.1 (by simpa using hearly)
    have hoperator := hsingle isOperator _ _ (List.mem_of_getElem? (i := 8) rfl) k
    have hcolon := hsingle (· == ':') _ _ (List.mem_of_getElem? (i := 2) rfl) k
    have hpower := hsingle (· == '^') _ _ (List.mem_of_getElem? (i := 5) rfl) k
    simp only [inkAt, hc, Option.any_some] at hoperator hcolon hpower
    rw [isEarly, hoperator, hcolon, hpower] at hclass
    cases hclass

theorem isEarly_of_isSign {c : Char} (h : isSign c = true) : isEarly c = true := by
  simp only [isSign, Bool.or_eq_true, beq_iff_eq] at h
  rcases h with rfl | rfl <;> rfl

theorem isEarly_of_isPairHead {c : Char} (h : isPairHead c = true) (hdot : c ≠ '.') :
    isEarly c = true := by
  simp only [isPairHead, Bool.or_eq_true, beq_iff_eq, hdot, false_or] at h
  simp only [isEarly, isOperator, Bool.or_eq_true, beq_iff_eq]
  tauto

/-! ## One bracket -/

/-- The cut of a text at the ink behind the place `k`: nothing is left behind it. -/
def bracketCut (k : Nat) (s : List Char) : Cut :=
  ⟨leadTo k s, ((ink s).drop k).take 1, skipBlanks (past (k + 1) s), false⟩

theorem placed_bracketCut {k : Nat} {s : List Char} (hk : k < (ink s).length) :
    Placed s (bracketCut k s) k 1 (gapAt k s) false :=
  placed_of_leadTo hk rfl rfl rfl

/-- Two cuts at the same place have alike sides. -/
theorem Placed.alike {s : List Char} {c d : Cut} {k n : Nat} {l r : Bool} (h : Placed s c k n l r)
    (h' : Placed s d k n l r) : Alike true c.left d.left ∧ Alike true c.right d.right := by
  obtain ⟨hlink, hlgap⟩ := h.left_eq h' rfl fun _ _ => rfl
  obtain ⟨hrink, hrgap⟩ := h.right_eq h' rfl fun _ => rfl
  exact ⟨alike_of_gapAt hlink hlgap, alike_of_gapAt hrink hrgap⟩

namespace Bracketed

variable {s : List Char} {k : Nat}

theorem inkAt_isSign (h : Bracketed s) (k : Nat) : inkAt isSign k s = false := by
  by_contra hsign
  have hearly := inkAt_imp (fun c => isEarly_of_isSign) (by simpa using hsign)
  rw [h.early] at hearly
  cases hearly

theorem unaryAt_eq (h : Bracketed s) (k : Nat) : unaryAt k s = false := by
  rw [unaryAt, h.inkAt_isSign, Bool.false_and, Bool.false_and, Bool.false_and]

theorem tame (h : Bracketed s) : Tame s where
  toClear := h.toClear
  marks := fun k hk => by
    -- the characters that crowd would be three dots
    have hdot : ∀ j, inkAt isPairHead j s = true → inkAt (· == '.') j s = true := by
      intro j hj
      obtain ⟨c, hc, hclass⟩ := inkAt_iff.1 hj
      refine inkAt_iff.2 ⟨c, hc, ?_⟩
      by_contra hother
      have hearly := inkAt_iff.2 ⟨c, hc, isEarly_of_isPairHead hclass (by simpa using hother)⟩
      rw [h.early] at hearly
      cases hearly
    rw [crowded_eq, Bool.and_eq_true, Bool.and_eq_true, Bool.and_eq_true, decide_eq_true_eq] at hk
    obtain ⟨hlt, hfirst, hsecond, hthird⟩ := hk
    have hlacks := h.dots.fits_eq (k - 2)
    rw [fits_drop, fits_drop, fits_drop, hdot _ hfirst, show k - 2 + 1 = k - 1 by omega,
      hdot _ hsecond, show k - 1 + 1 = k by omega, hdot _ hthird] at hlacks
    cases hlacks
  dotSign := fun k _ => by
    rw [fits_drop, fits_drop, h.inkAt_isSign, Bool.false_and, Bool.and_false]

theorem left (h : Bracketed s) (hk : k < (ink s).length) : Bracketed (bracketCut k s).left := by
  have hcut := placed_bracketCut hk
  refine ⟨⟨?_, h.exponent.of_take hcut.left_ink, h.quotient.of_take hcut.left_ink,
    h.dots.of_take hcut.left_ink⟩, fun j => ?_, fun j => ?_⟩
  · intro c hc hmem
    apply h.code c hc
    rw [← leadTo_append_skipBlanks k s]
    exact List.mem_append_left _ hmem
  · rw [hcut.inkAt_left, h.early, Bool.and_false]
  · have hcall := h.calls j
    simp only [callView, hcut.inkAt_left] at hcall ⊢
    by_cases hj : j < k
    · have hj' : j - 1 < k := by omega
      rw [hcut.left_gap j hj, decide_eq_true hj, decide_eq_true hj', Bool.true_and, Bool.true_and,
        hcall]
    · rw [decide_eq_false hj, Bool.false_and, Bool.false_and, Bool.false_and]

theorem right (h : Bracketed s) (hk : k < (ink s).length) : Bracketed (bracketCut k s).right := by
  have hcut := placed_bracketCut hk
  refine ⟨⟨?_, h.exponent.of_suffix ⟨_, hcut.right_ink⟩, h.quotient.of_suffix ⟨_, hcut.right_ink⟩,
    h.dots.of_suffix ⟨_, hcut.right_ink⟩⟩, fun j => ?_, fun j => ?_⟩
  · intro c hc hmem
    apply h.code c hc
    exact (past_suffix (k + 1) s).mem ((List.dropWhile_suffix isBlank).mem hmem)
  · rw [hcut.inkAt_right, h.early]
  · cases j with
    | zero => simp [callView]
    | succ j =>
        have hcall := h.calls (k + 1 + (j + 1))
        simp only [callView] at hcall ⊢
        rw [hcut.inkAt_right, hcut.inkAt_right, hcut.right_gap, Nat.add_sub_cancel,
          decide_eq_true (Nat.succ_pos j), Bool.true_and]
        rwa [show k + 1 + (j + 1) - 1 = k + 1 + j by omega,
          decide_eq_true (show 0 < k + 1 + (j + 1) by omega), Bool.true_and] at hcall

/-- If there is a bracket, one is cut. -/
theorem exists_step (h : Bracketed s) (hk : inkAt isOpening k s = true) :
    ∃ c m, Step s c openingView m := by
  obtain ⟨hclear, hnone⟩ := bracketed_iff.1 h
  have hviews : views[10]? = some openingView := rfl
  rcases hclear.cases with ⟨-, hspots⟩ | ⟨c, v, m, hstep⟩
  · have hspot : inkAt isOpening k s = false := hspots openingView (List.mem_of_getElem? hviews) k
    rw [hk] at hspot
    cases hspot
  · obtain ⟨before, after, hparts, hbefore⟩ := hstep.order
    have hv : views[before.length]? = some v := by rw [hparts]; simp
    rcases Nat.lt_trichotomy before.length 10 with hlt | hten | hgt
    · have hspot := hstep.chosen.spot
      have hmem : (views.take 10)[before.length]? = some v := by
        rw [List.getElem?_take, if_pos hlt, hv]
      rw [hnone v (List.mem_of_getElem? hmem)] at hspot
      cases hspot
    · rw [hten] at hv
      obtain rfl := Option.some.inj hv
      exact ⟨c, m, hstep⟩
    · rw [hparts, List.getElem?_append_left hgt] at hviews
      have hspot : inkAt isOpening k s = false :=
        hbefore openingView (List.mem_of_getElem? hviews) k
      rw [hk] at hspot
      cases hspot

end Bracketed

/-! ## Any bracket first -/

/-- The gaps that come out if the bracket at the place `k` is cut first. -/
def seam (k : Nat) (s : List Char) (j : Nat) : Bool :=
  if j ≤ k then gapAt j (format (bracketCut k s).left)
  else gapAt (j - (k + 1)) (format (bracketCut k s).right)

/-- **Two brackets may change places**: the three parts that they leave are the same. -/
theorem seam_comm {a b : Nat} (hab : a < b) {s : List Char}
    (hleft : ∀ j, gapAt j (format (bracketCut b s).left) = seam a (bracketCut b s).left j)
    (hright : ∀ j, gapAt j (format (bracketCut a s).right) =
      seam (b - (a + 1)) (bracketCut a s).right j) (j : Nat) : seam a s j = seam b s j := by
  have hfirst : (bracketCut a (bracketCut b s).left).left = (bracketCut a s).left :=
    leadTo_leadTo hab s
  have hmiddle : (bracketCut a (bracketCut b s).left).right =
      (bracketCut (b - (a + 1)) (bracketCut a s).right).left := by
    show skipBlanks (past (a + 1) (leadTo b s)) =
      leadTo (b - (a + 1)) (skipBlanks (past (a + 1) s))
    rw [show leadTo b s = leadTo (a + 1 + (b - (a + 1))) s by rw [Nat.add_sub_cancel' hab],
      past_leadTo, skipBlanks_leadTo]
  have hlast :
      (bracketCut (b - (a + 1)) (bracketCut a s).right).right = (bracketCut b s).right := by
    show skipBlanks (past (b - (a + 1) + 1) (skipBlanks (past (a + 1) s))) =
      skipBlanks (past (b + 1) s)
    rw [past_skipBlanks, ← past_add, show a + 1 + (b - (a + 1) + 1) = b + 1 by omega]
  rw [seam, seam, hleft, hright, seam, seam, hfirst, hmiddle, hlast]
  by_cases ha : j ≤ a
  · rw [if_pos ha, if_pos (by omega), if_pos ha]
  · by_cases hb : j ≤ b
    · rw [if_neg ha, if_pos (by omega), if_pos hb, if_neg ha]
    · rw [if_neg ha, if_neg (by omega), if_neg hb,
        show j - (a + 1) - (b - (a + 1) + 1) = j - (b + 1) by omega]

/-- The bracket that is cut gives its seam. -/
theorem Bracketed.gapAt_format_step {s : List Char} (hs : Bracketed s) {c : Cut} {k : Nat}
    (h : Step s c openingView k) (j : Nat) : gapAt j (format s) = seam k s j := by
  have hk : k < (ink s).length := h.bound
  obtain ⟨hleft, hright⟩ := Placed.alike h.cuts (placed_bracketCut hk)
  by_cases hj : j ≤ k
  · rw [h.gapAt_format_left hs.code hj, seam, if_pos hj]
    exact Alike.gapAt_format_of (h.tame_left hs.tame) _ true (Or.inl rfl) (hs.left hk).tame hleft j
      (Or.inl rfl)
  · obtain ⟨i, rfl⟩ : ∃ i, j = k + 1 + i := ⟨j - (k + 1), by omega⟩
    rw [seam, if_neg hj, Nat.add_sub_cancel_left]
    exact (h.gapAt_format_right hs.code i).trans
      (Alike.gapAt_format_of (h.tame_right hs.tame) _ true (Or.inl rfl) (hs.right hk).tame hright i
        (Or.inl rfl))

/-- **Any bracket may be cut first.** -/
theorem Bracketed.gapAt_format {s : List Char} (hs : Bracketed s) {k : Nat}
    (hk : inkAt isOpening k s = true) (j : Nat) : gapAt j (format s) = seam k s j := by
  induction hn : (ink s).length using Nat.strong_induction_on generalizing s k j with
  | _ n ih =>
      obtain ⟨c, m, hstep⟩ := hs.exists_step hk
      have hm : inkAt isOpening m s = true := hstep.chosen.spot
      -- of two brackets, the right one is in the text behind the left one, and this one in the
      -- text in front of that one
      have hcomm : ∀ a b, a < b → inkAt isOpening a s = true → inkAt isOpening b s = true →
          seam a s j = seam b s j := by
        intro a b hab ha hb
        have hlt : b < (ink s).length := lt_of_inkAt hb
        have hleft := placed_bracketCut hlt
        have hright := placed_bracketCut (s := s) (k := a) (by omega)
        refine seam_comm hab (fun i => ih b (by omega) (hs.left hlt) ?_ i ?_)
          (fun i => ih _ ?_ (hs.right (by omega)) ?_ i rfl) j
        · rw [hleft.inkAt_left, decide_eq_true hab, ha]
          rfl
        · rw [hleft.left_ink, List.length_take]
          omega
        · rw [hright.right_ink, List.length_drop]
          omega
        · rw [hright.inkAt_right, show a + 1 + (b - (a + 1)) = b by omega, hb]
      rw [hs.gapAt_format_step hstep]
      rcases Nat.lt_trichotomy m k with hlt | rfl | hgt
      · exact hcomm m k hlt hm hk
      · rfl
      · exact (hcomm k m hgt hk hm).symm

/-! ## The gap at the start -/

theorem frontFree : FrontFree := by
  intro s t hs ht h hopen hnone j hj
  have hbracketed : Bracketed s := bracketed_iff.2 ⟨hs.toClear, hnone⟩
  have hbracketed' : Bracketed t := bracketed_iff.2 ⟨ht.toClear, fun v hv k => by
    rw [← h.spot_eq (List.mem_of_mem_take hv), hnone v hv k]⟩
  have hopen' : inkAt isOpening 0 t = true := by rw [← inkAt_of_ink_eq h.ink_eq, hopen]
  have hpos := lt_of_inkAt hopen
  have hpos' := lt_of_inkAt hopen'
  have hcut := placed_bracketCut hpos
  have hcut' := placed_bracketCut hpos'
  -- with the bracket cut first, the texts behind it are alike
  have halike : Alike true (bracketCut 0 s).right (bracketCut 0 t).right := by
    refine ⟨by rw [hcut.right_ink, hcut'.right_ink, h.ink_eq], fun i _ hplain => ?_, fun i => ?_⟩
    · cases i with
      | zero => rw [hcut.right_start, hcut'.right_start]
      | succ i =>
          rw [hcut.right_gap, hcut'.right_gap]
          refine h.gap _ (Or.inr (by omega)) ⟨fun _ => ?_, ?_, fun hdot => ?_⟩
          · have hbehind := hplain.behind (Nat.succ_pos i)
            rwa [hcut.inkAt_right] at hbehind
          · have hbefore := hplain.before
            rwa [hcut.inkAt_right] at hbefore
          · have htail := hplain.dot (by rwa [hcut.inkAt_right])
            rwa [hcut.inkAt_right] at htail
    · rw [(hbracketed.right hpos).unaryAt_eq, (hbracketed'.right hpos').unaryAt_eq]
  rw [hbracketed.gapAt_format hopen, hbracketed'.gapAt_format hopen', seam, seam, if_neg (by omega),
    if_neg (by omega)]
  exact Alike.gapAt_format_of (hbracketed.right hpos).tame _ true (Or.inl rfl)
    (hbracketed'.right hpos').tame halike _ (Or.inl rfl)

/-- **Alike texts come out with the same gaps**, the gap at the start apart. -/
theorem Alike.gapAt_format {front : Bool} {s t : List Char} (h : Alike front s t) (hs : Tame s)
    (ht : Tame t) {j : Nat} (hj : 0 < j) : gapAt j (format s) = gapAt j (format t) :=
  Alike.gapAt_format_of hs t front (Or.inr frontFree) ht h j (Or.inr hj)

end Pcode.Spacing
