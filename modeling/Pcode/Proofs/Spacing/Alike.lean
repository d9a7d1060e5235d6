import Pcode.Proofs.Spacing.Keep

set_option autoImplicit false

/-! # Texts that are spaced alike

Code is *tame* if it is clear and its operator characters do not crowd: three stand in a row only if
the third is the sign of a word or a negation, and no sign follows a dot. Two tame texts are *alike*
if they have the same ink, the same gaps at plain places and the same signs of words. A cut leaves
sides that are alike (`Alike.sides`), so that alike texts come out with the same gaps
(`Alike.gapAt_format`): nothing else of a text tells where the blanks go. -/

namespace Pcode.Spacing

open Pcode.Text

/-! ## Tame code -/

def isNegation (c : Char) : Bool := c == '!' || c == '~'

/-- Clear code in which operator characters do not crowd. -/
structure Tame (s : List Char) : Prop extends Clear s where
  marks : ∀ k, crowded k s = true → unaryAt k s = true ∨ inkAt isNegation k s = true
  dotSign : Lacks [(· == '.'), isSign] s

theorem lt_of_crowded {k : Nat} {s : List Char} (h : crowded k s = true) : k < (ink s).length := by
  rw [crowded_eq, Bool.and_eq_true, Bool.and_eq_true, Bool.and_eq_true] at h
  exact lt_of_inkAt h.2.2.2

theorem tame_iff {s : List Char} :
    Tame s ↔ Clear s ∧ (∀ k < (ink s).length,
      crowded k s = true → unaryAt k s = true ∨ inkAt isNegation k s = true) ∧
      Lacks [(· == '.'), isSign] s :=
  ⟨fun h => ⟨h.toClear, fun k _ => h.marks k, h.dotSign⟩,
    fun h => ⟨h.1, fun k hk => h.2.1 k (lt_of_crowded hk) hk, h.2.2⟩⟩

instance (s : List Char) : Decidable (Tame s) := decidable_of_iff _ tame_iff.symm

theorem isNegation_of_isSign {c : Char} (h : isSign c = true) : isNegation c = false := by
  simp only [isSign, Bool.or_eq_true, beq_iff_eq] at h
  rcases h with rfl | rfl <;> rfl

theorem isNegation_of_isPairTail {c : Char} (h : isPairTail c = true) : isNegation c = false := by
  simp only [isPairTail, Bool.or_eq_true, beq_iff_eq] at h
  rcases h with (((((((rfl | rfl) | rfl) | rfl) | rfl) | rfl) | rfl) | rfl) | rfl <;> rfl

theorem isPairHead_of_isPairTail {c : Char} (h : isPairTail c = true) : isPairHead c = true := by
  simp only [isPairTail, isPairHead, Bool.or_eq_true, beq_iff_eq] at h ⊢
  tauto

namespace Step

variable {s : List Char} {c : Cut} {v : View} {k : Nat}

theorem tame_left (h : Step s c v k) (hs : Tame s) : Tame c.left where
  toClear := h.clear_left hs.toClear
  marks := fun j hj => by
    have hlt : j < k := by
      have hbound := lt_of_crowded hj
      rwa [h.length_ink_left] at hbound
    refine (hs.marks j (h.crowded_left hj)).imp (fun hunary => ?_) fun hnot => ?_
    · -- the word behind the sign is no part of the middle
      have hnext : j + 1 ≠ k := by
        rintro rfl
        have hword := inkAt_word_of_unaryAt hunary
        rw [isWord_of_spot h.mem h.chosen.spot (Nat.le_refl _)
          (Nat.lt_add_of_pos_right h.size_pos)] at hword
        cases hword
      rw [h.unaryAt_left, hunary, decide_eq_true (by omega), Bool.true_and]
    · rw [h.inkAt_left, hnot, decide_eq_true hlt, Bool.true_and]
  dotSign := hs.dotSign.of_take h.cuts.left_ink

theorem tame_right (h : Step s c v k) (hs : Tame s) : Tame c.right where
  toClear := h.clear_right hs.toClear
  marks := fun j hj => by
    obtain ⟨i, rfl⟩ : ∃ i, j = i + 1 := by
      rw [crowded, Bool.and_eq_true, decide_eq_true_eq] at hj
      exact ⟨j - 1, by omega⟩
    rw [h.unaryAt_right, h.inkAt_right]
    exact hs.marks _ (h.crowded_right hj)
  dotSign := hs.dotSign.of_suffix ⟨_, h.cuts.right_ink⟩

/-- A cut makes no sign of a word. -/
theorem unaryAt_zero_right (h : Step s c v k) (hs : Tame s) : unaryAt 0 c.right = false := by
  by_contra hzero
  rw [Bool.not_eq_false] at hzero
  obtain ⟨hnone, hcrowded⟩ := h.crowded_of_unaryAt hzero
  have hsign := inkAt_sign_of_unaryAt hzero
  rw [h.inkAt_right, Nat.add_zero] at hsign
  rcases hs.marks _ hcrowded with hunary | hnot
  · rw [hnone] at hunary
    cases hunary
  · rw [inkAt_eq_false (fun c => isNegation_of_isSign) hsign] at hnot
    cases hnot

end Step

namespace Tame

variable {s : List Char} {e : Nat}

theorem not_sign_of_dot (hs : Tame s) (hdot : inkAt (· == '.') e s = true) :
    inkAt isSign (e + 1) s = false := by
  have hlacks := hs.dotSign.fits_eq e
  rwa [fits_drop, fits_drop, hdot, fits, Bool.true_and, Bool.and_true] at hlacks

/-- Behind a dot stands no operator of two characters, since the three of them would crowd. -/
theorem not_pair_of_dot (hs : Tame s) (hdot : inkAt (· == '.') e s = true)
    (hunary : ∀ m, unaryAt m s = false) (hhead : inkAt isPairHead (e + 1) s = true) :
    inkAt isPairTail (e + 1 + 1) s = false := by
  by_contra hlast
  rw [Bool.not_eq_false] at hlast
  have hfirst : inkAt isPairHead e s = true :=
    inkAt_imp (fun d hd => by rw [beq_iff_eq.1 hd]; rfl) hdot
  have hcrowded : crowded (e + 1 + 1) s = true := by
    rw [crowded_eq, decide_eq_true (by omega), show e + 1 + 1 - 2 = e by omega,
      show e + 1 + 1 - 1 = e + 1 by omega, hfirst, hhead,
      inkAt_imp (fun c => isPairHead_of_isPairTail) hlast]
    rfl
  rcases hs.marks _ hcrowded with hword | hnot
  · rw [hunary] at hword
    cases hword
  · rw [inkAt_eq_false (fun c => isNegation_of_isPairTail) hlast] at hnot
    cases hnot

end Tame

theorem isPairTail_of_isDotTail {c : Char} (hoperator : isOperator c = true)
    (h : isDotTail c = true) :
    isPairTail c = true := by
  rw [isDotTail, Bool.or_eq_true, beq_iff_eq] at h
  rcases h with h | rfl
  · exact h
  · exact absurd hoperator (by decide)

/-- A cut does not separate a dot from the rest of its operator. -/
theorem Step.not_dotTail {s : List Char} {c : Cut} {v : View} {e : Nat} (h : Step s c v (e + 1))
    (hs : Tame s) (hdot : inkAt (· == '.') e s = true) : inkAt isDotTail (e + 1) s = false := by
  by_contra htail
  rw [Bool.not_eq_false] at htail
  have hsign := hs.not_sign_of_dot hdot
  have hfits := fits_of_spot h.mem h.chosen.spot
  rcases h.view_cases with rfl | ⟨-, rfl | ⟨hunary, ⟨rfl, hnone⟩ | ⟨rfl, hnone⟩ | hmem⟩⟩
  · rw [inkAt_of_fits hfits (j := 0) rfl] at hsign
    cases hsign
  · rw [inkAt_of_fits hfits (j := 0) rfl] at hsign
    cases hsign
  · -- the power with its dot is found first
    have hpower : inkAt (· == '^') (e + 1) s = true := inkAt_of_fits hfits (j := 0) rfl
    have hspot : fits [(· == '.'), (· == '^')] ((ink s).drop e) = true := by
      rw [fits_drop, fits_drop, hdot, hpower]
      rfl
    rw [show fits [(· == '.'), (· == '^')] ((ink s).drop e) = false from hnone e] at hspot
    cases hspot
  · -- so is the operator of two characters that begins with the dot
    obtain ⟨d, hd, hoperator⟩ := inkAt_iff.1 (inkAt_of_fits hfits (j := 0) rfl)
    obtain ⟨d', hd', hclass⟩ := inkAt_iff.1 htail
    obtain rfl : d = d' := Option.some.inj (hd.symm.trans hd')
    have hspot : pairView.spot e s = true := by
      rw [spot_pairView, inkAt_imp (fun d hd => by rw [beq_iff_eq.1 hd]; rfl) hdot,
        inkAt_iff.2 ⟨d, hd', isPairTail_of_isDotTail hoperator hclass⟩]
      rfl
    rw [(hnone e).1] at hspot
    cases hspot
  · -- what other views take does not go on behind a dot, or is an operator of two characters
    have hall : ∀ v ∈ [colonView, dotEqualsView, dotPowerView, pairView, negationView, callView,
        openingView, closingView, separatorView],
        ((v.Holds 0 fun c => !isDotTail c) || (v.Holds 0 isPairHead && v.Holds 1 isPairTail)) =
          true := List.all_eq_true.1 (by decide)
    have hview := hall v hmem
    rw [Bool.or_eq_true, Bool.and_eq_true] at hview
    rcases hview with hother | ⟨hfirst, hsecond⟩
    · have hink := inkAt_of_spot h.mem h.chosen.spot hother
      rw [Nat.add_zero] at hink
      rw [inkAt_eq_false (fun c hc => by simpa using hc) hink] at htail
      cases htail
    · have hlast := inkAt_of_spot h.mem h.chosen.spot hsecond
      rw [hs.not_pair_of_dot hdot hunary (inkAt_of_spot h.mem h.chosen.spot hfirst)] at hlast
      cases hlast

/-! ### Plain places of the sides -/

namespace Step

variable {s : List Char} {c : Cut} {v : View} {k j : Nat}

theorem plain_of_left (h : Step s c v k) (hs : Tame s) (hj : j < k) (hplain : Plain j c.left) :
    Plain j s where
  behind := fun hpos => by
    have hbehind := hplain.behind hpos
    rwa [h.inkAt_left, decide_eq_true (by omega), Bool.true_and] at hbehind
  before := by
    have hbefore := hplain.before
    rwa [h.inkAt_left, decide_eq_true hj, Bool.true_and] at hbefore
  dot := fun hdot => by
    -- a dot at the end of the left side is no part of an operator
    by_cases hend : k = j + 1
    · subst hend
      exact h.not_dotTail hs hdot
    · have htail := hplain.dot (by rwa [h.inkAt_left, decide_eq_true hj, Bool.true_and])
      rwa [h.inkAt_left, decide_eq_true (by omega), Bool.true_and] at htail

theorem plain_of_right (h : Step s c v k) (hplain : Plain (j + 1) c.right) :
    Plain (k + v.size + (j + 1)) s where
  behind := fun _ => by
    have hbehind := hplain.behind (Nat.succ_pos j)
    rwa [h.inkAt_right] at hbehind
  before := by
    have hbefore := hplain.before
    rwa [h.inkAt_right] at hbefore
  dot := fun hdot => by
    have htail := hplain.dot (by rwa [h.inkAt_right])
    rwa [h.inkAt_right] at htail

end Step

/-! ## Texts in which the views see the same -/

/-- The views that are tried before one with spots do not reach beyond a view that has a spot. -/
theorem length_le_of_noSpot {vs ws vs' ws' : List View} {v w : View}
    (hparts : vs ++ v :: ws = vs' ++ w :: ws') {u : List Char} {k : Nat} (hspot : v.spot k u = true)
    (hnone : NoSpot vs' u) : vs'.length ≤ vs.length := by
  by_contra hlt
  have hmem : v ∈ vs' := by
    have hget := congrArg (fun views => views[vs.length]?) hparts
    simp only [List.getElem?_append_right (Nat.le_refl _), Nat.sub_self, List.getElem?_cons_zero,
      List.getElem?_append_left (show vs.length < vs'.length by omega)] at hget
    exact List.mem_of_getElem? hget.symm
  rw [hnone v hmem k] at hspot
  cases hspot

section

variable {s t : List Char} (hspot : ∀ v ∈ views, ∀ k, v.spot k s = v.spot k t)
  {c d : Cut} {v w : View} {k m : Nat}

include hspot

/-- The same view cuts both texts. -/
theorem Step.view_eq (hstep : Step s c v k) (hother : Step t d w m) : v = w := by
  obtain ⟨vs, ws, hviews, hnone⟩ := hstep.order
  obtain ⟨vs', ws', hviews', hnone'⟩ := hother.order
  have hparts : vs ++ v :: ws = vs' ++ w :: ws' := hviews.symm.trans hviews'
  -- a view that is tried before the other one would have a spot in both texts
  have hle : vs'.length ≤ vs.length :=
    length_le_of_noSpot hparts (by rw [← hspot v hstep.mem]; exact hstep.chosen.spot) hnone'
  have hge : vs.length ≤ vs'.length :=
    length_le_of_noSpot hparts.symm (by rw [hspot w hother.mem]; exact hother.chosen.spot) hnone
  exact (List.cons.inj (List.append_inj hparts (by omega)).2).1

/-- It cuts them at the same place, if it cuts both or neither at the start. -/
theorem Step.place_eq (hstep : Step s c v k) (hother : Step t d v m)
    (hstart : v.start s = v.start t) : k = m := by
  cases hfirst : v.start s with
  | true => rw [hstep.chosen.first hfirst, hother.chosen.first (by rw [← hstart, hfirst])]
  | false =>
      apply Nat.le_antisymm
      · apply hother.chosen.last (by rw [← hstart, hfirst]) k
        rw [← hspot v hstep.mem, hstep.chosen.spot]
      · apply hstep.chosen.last hfirst m
        rw [hspot v hstep.mem, hother.chosen.spot]

end

/-! ## Alike texts -/

theorem isWord_of_absorbsBehind {c : Char} (h : absorbsBehind c = true) : isWord c = false := by
  rw [absorbsBehind, Bool.and_eq_true, List.contains_iff_mem] at h
  exact isWord_of_mem_markChars (List.mem_cons_of_mem _ h.1)

/-- The same ink, the same gaps at plain places, the same signs of words. Without `front` the gap at
the start may differ. -/
structure Alike (front : Bool) (s t : List Char) : Prop where
  ink_eq : ink s = ink t
  gap : ∀ k, front = true ∨ 0 < k → Plain k s → gapAt k s = gapAt k t
  unary : ∀ k, unaryAt k s = unaryAt k t

theorem plain_of_opening {k : Nat} {s : List Char} (hopen : inkAt isOpening k s = true)
    (hbehind : 0 < k → inkAt absorbsBehind (k - 1) s = false) : Plain k s where
  behind := hbehind
  before := inkAt_eq_false (fun c hc => by rw [absorbsBefore, hc, Bool.not_true, Bool.and_false])
    hopen
  dot := fun hdot => by
    have hother : ∀ c, isOpening c = true → (c == '.') = false := fun c hc => by
      by_contra hdot
      rw [Bool.not_eq_false, beq_iff_eq] at hdot
      rw [hdot] at hc
      exact absurd hc (by decide)
    rw [inkAt_eq_false hother hopen] at hdot
    cases hdot

/-- Ink that calls for an operand takes in the blanks behind it. -/
theorem inkAt_isBeforeSign {k : Nat} {s : List Char} (h : inkAt absorbsBehind k s = false) :
    inkAt isBeforeSign k s = false := by
  by_contra hbefore
  obtain ⟨c, hc, hclass⟩ := inkAt_iff.1 (by simpa using hbefore)
  have hink : isBlank c = false := by
    have hmem := List.mem_of_getElem? hc
    simpa [ink] using (List.mem_filter.1 hmem).2
  have habsorbs : absorbsBehind c = true := by
    simp only [isBeforeSign, isOpening, hink, Bool.or_eq_true, beq_iff_eq, Bool.false_eq_true,
      or_false] at hclass
    rcases hclass with (((((((rfl | rfl) | rfl) | rfl) | rfl) | rfl) | rfl) | rfl) | rfl <;> decide
  rw [inkAt_iff.2 ⟨c, hc, habsorbs⟩] at h
  cases h

namespace Alike

variable {front : Bool} {s t : List Char}

/-- Views see the same in alike texts. -/
theorem spot_eq (h : Alike front s t) {v : View} (hv : v ∈ views) (k : Nat) :
    v.spot k s = v.spot k t := by
  simp only [views, List.mem_cons, List.not_mem_nil, or_false] at hv
  rcases hv with rfl | rfl | rfl | rfl | rfl | rfl | rfl | rfl | rfl | rfl | rfl | rfl | rfl
  · exact congrArg (fun i => fitsIncrement (i.drop k)) h.ink_eq
  · exact h.unary k
  iterate 7
    · exact congrArg (fun i => fits _ (i.drop k)) h.ink_eq
  · -- in front of the parenthesis of a call is a plain place
    show (inkAt (· == '(') k s && !gapAt k s && (decide (0 < k) && inkAt isWord (k - 1) s)) =
      (inkAt (· == '(') k t && !gapAt k t && (decide (0 < k) && inkAt isWord (k - 1) t))
    rw [← inkAt_of_ink_eq h.ink_eq, ← inkAt_of_ink_eq h.ink_eq]
    by_cases hcall : inkAt (· == '(') k s = true ∧ 0 < k ∧ inkAt isWord (k - 1) s = true
    · obtain ⟨hparen, hpos, hword⟩ := hcall
      have hopen : inkAt isOpening k s = true :=
        inkAt_imp (fun c hc => by rw [beq_iff_eq.1 hc]; rfl) hparen
      have hbehind : inkAt absorbsBehind (k - 1) s = false := by
        by_contra habsorbs
        rw [inkAt_eq_false (fun c => isWord_of_absorbsBehind) (by simpa using habsorbs)] at hword
        cases hword
      rw [h.gap k (Or.inr hpos) (plain_of_opening hopen fun _ => hbehind)]
    · have hzero :
          (inkAt (· == '(') k s && (decide (0 < k) && inkAt isWord (k - 1) s)) = false := by
        rw [Bool.eq_false_iff, ne_eq, Bool.and_eq_true, Bool.and_eq_true, decide_eq_true_eq]
        exact hcall
      rw [Bool.and_right_comm, hzero, Bool.and_right_comm, hzero, Bool.false_and, Bool.false_and]
  · exact inkAt_of_ink_eq h.ink_eq isOpening k
  iterate 2
    · exact congrArg (fun i => fits _ (i.drop k)) h.ink_eq

/-- No view but that for opening brackets looks at the gap at the start before it cuts there. -/
theorem start_eq (h : Alike front s t) {v : View} {i : Nat} (hv : views[i]? = some v)
    (hi : i ≠ 10) :
    v.start s = v.start t := by
  have hlt : i < 13 := (List.getElem?_eq_some_iff.1 hv).1
  obtain rfl | rfl | rfl | rfl | rfl | rfl | rfl | rfl | rfl | rfl | rfl | rfl : i = 0 ∨ i = 1 ∨
      i = 2 ∨ i = 3 ∨ i = 4 ∨ i = 5 ∨ i = 6 ∨ i = 7 ∨ i = 8 ∨ i = 9 ∨ i = 11 ∨ i = 12 := by omega
  all_goals obtain rfl := Option.some.inj hv
  · exact congrArg fitsIncrement h.ink_eq
  · rfl
  iterate 7
    · exact congrArg (fits _) h.ink_eq
  · rfl
  iterate 2
    · exact congrArg (fits _) h.ink_eq

section

variable {c d : Cut} {v w : View} {k m : Nat}

/-- Otherwise an opening bracket at the start is left to cut, and the gap in front of it is open. -/
theorem opening_of_start_ne (h : Alike front s t) (hstep : Step s c v k)
    (hstart : v.start s ≠ v.start t) :
    front = false ∧ inkAt isOpening 0 s = true ∧ NoSpot (views.take 10) s := by
  obtain ⟨before, after, hviews, hbefore⟩ := hstep.order
  have hv : views[before.length]? = some v := by rw [hviews]; simp
  have hten : before.length = 10 := by
    by_contra hne
    exact hstart (h.start_eq hv hne)
  have htake : views.take 10 = before := by rw [hviews, ← hten, List.take_left]
  rw [hten] at hv
  obtain rfl : openingView = v := Option.some.inj hv
  change (inkAt isOpening 0 s && !gapAt 0 s) ≠ (inkAt isOpening 0 t && !gapAt 0 t) at hstart
  rw [← inkAt_of_ink_eq h.ink_eq] at hstart
  have hopen : inkAt isOpening 0 s = true := by
    by_contra hnone
    rw [Bool.not_eq_true] at hnone
    exact hstart (by rw [hnone]; rfl)
  refine ⟨?_, hopen, by rw [htake]; exact hbefore⟩
  -- in front of a bracket is a plain place
  by_contra hfront
  have hplain := plain_of_opening hopen fun hpos => absurd hpos (Nat.lt_irrefl 0)
  exact hstart (by rw [h.gap 0 (Or.inl (by simpa using hfront)) hplain])

/-- The same view cuts alike texts, and at the same place, unless an opening bracket at the start is
left to cut. -/
theorem step (h : Alike front s t) (ht : Tame t) (hstep : Step s c v k) :
    (∃ d, Step t d v k) ∨
      front = false ∧ inkAt isOpening 0 s = true ∧ NoSpot (views.take 10) s := by
  rcases ht.toClear.cases with ⟨-, hnone⟩ | ⟨d, w, m, hother⟩
  · have hspot := hstep.chosen.spot
    rw [h.spot_eq hstep.mem, hnone v hstep.mem k] at hspot
    cases hspot
  · have hspot : ∀ v ∈ views, ∀ k, v.spot k s = v.spot k t := fun v hv => h.spot_eq hv
    obtain rfl := hstep.view_eq hspot hother
    by_cases hstart : v.start s = v.start t
    · obtain rfl := hstep.place_eq hspot hother hstart
      exact Or.inl ⟨d, hother⟩
    · exact Or.inr (h.opening_of_start_ne hstep hstart)

end

variable {c d : Cut} {v : View} {k : Nat}

/-- In front of a middle whose view keeps the gap there, alike texts have the same gap. -/
theorem left_end (h : Alike front s t) (hs : Step s c v k) (ht : Step t d v k)
    (hfront : front = true ∨ 0 < k) (hplain : Plain k c.left) :
    gapAt k c.left = gapAt k d.left := by
  rw [hs.cuts.left_end, ht.cuts.left_end]
  cases hleft : v.left with
  | some b => rfl
  | none =>
      rw [Option.getD_none, Option.getD_none]
      have hbehind : 0 < k → inkAt absorbsBehind (k - 1) s = false := by
        intro hpos
        have hplace := hplain.behind hpos
        rwa [hs.inkAt_left, decide_eq_true (by omega), Bool.true_and] at hplace
      rcases eq_or_mem_drop hs.mem with rfl | rfl | hmem
      · cases hleft
      · -- behind ink that takes in no blank, the sign of a word has a gap in front of it
        have hgap : ∀ u, ink s = ink u → unaryAt k u = true → gapAt k u = true := by
          intro u hu hunary
          by_cases hpos : 0 < k
          · apply gapAt_of_unaryAt hunary
            rw [← inkAt_of_ink_eq hu]
            exact inkAt_isBeforeSign (hbehind hpos)
          · obtain rfl : k = 0 := by omega
            exact gapAt_zero_of_unaryAt hunary
        rw [hgap s rfl hs.chosen.spot, hgap t h.ink_eq ht.chosen.spot]
      · have hall : ∀ v ∈ views.drop 2, (v.left.isSome || v.Holds 0 isOpening) = true :=
          List.all_eq_true.1 (by decide)
        have hview := hall v hmem
        rw [hleft, Option.isSome_none, Bool.false_or] at hview
        have hopen := inkAt_of_spot hs.mem hs.chosen.spot hview
        exact h.gap k hfront (plain_of_opening hopen hbehind)

/-- So they have behind a middle whose view keeps the gap there. -/
theorem right_start (h : Alike front s t) (hs : Step s c v k) (ht : Step t d v k)
    (hplain : Plain 0 c.right) : gapAt 0 c.right = gapAt 0 d.right := by
  rw [hs.cuts.right_start, ht.cuts.right_start]
  cases hright : v.right with
  | some b => rfl
  | none =>
      rw [Option.getD_none, Option.getD_none]
      have hpos := hs.size_pos
      have hall : ∀ v ∈ views, (v.right.isSome || v.Holds (v.size - 1) isClosing) = true :=
        List.all_eq_true.1 (by decide)
      have hview := hall v hs.mem
      rw [hright, Option.isSome_none, Bool.false_or] at hview
      have hclosing := inkAt_of_spot hs.mem hs.chosen.spot hview
      refine h.gap (k + v.size) (Or.inr (by omega)) ⟨fun _ => ?_, ?_, fun hdot => ?_⟩
      · rw [show k + v.size - 1 = k + (v.size - 1) by omega]
        exact inkAt_eq_false (fun c hc => by rw [absorbsBehind, hc, Bool.not_true, Bool.and_false])
          hclosing
      · have hbefore := hplain.before
        rwa [hs.inkAt_right] at hbefore
      · have htail := hplain.dot (by rwa [hs.inkAt_right])
        rwa [hs.inkAt_right] at htail

/-- **The sides of a cut of alike texts are alike.** -/
theorem sides (h : Alike front s t) (hs : Tame s) (ht : Tame t) (hstep : Step s c v k)
    (hstep' : Step t d v k) : Alike front c.left d.left ∧ Alike true c.right d.right := by
  constructor
  · refine ⟨?_, fun j hfront hplain => ?_, fun j => ?_⟩
    · rw [hstep.cuts.left_ink, hstep'.cuts.left_ink, h.ink_eq]
    · rcases Nat.lt_trichotomy j k with hlt | rfl | hgt
      · rw [hstep.cuts.left_gap j hlt, hstep'.cuts.left_gap j hlt]
        exact h.gap j hfront (hstep.plain_of_left hs hlt hplain)
      · exact h.left_end hstep hstep' hfront hplain
      · rw [gapAt_of_gt (by rw [hstep.length_ink_left]; exact hgt),
          gapAt_of_gt (by rw [hstep'.length_ink_left]; exact hgt)]
    · rw [hstep.unaryAt_left, hstep'.unaryAt_left, h.unary]
  · refine ⟨?_, fun j _ hplain => ?_, fun j => ?_⟩
    · rw [hstep.cuts.right_ink, hstep'.cuts.right_ink, h.ink_eq]
    · cases j with
      | zero => exact h.right_start hstep hstep' hplain
      | succ j =>
          rw [hstep.cuts.right_gap, hstep'.cuts.right_gap]
          exact h.gap _ (Or.inr (by omega)) (hstep.plain_of_right hplain)
    · cases j with
      | zero => rw [hstep.unaryAt_zero_right hs, hstep'.unaryAt_zero_right ht]
      | succ j => rw [hstep.unaryAt_right, hstep'.unaryAt_right, h.unary]

end Alike

/-- Every place of a quiet text is plain. -/
theorem Quiet.plain {s : List Char} (hs : Quiet s) (k : Nat) : Plain k s where
  behind := fun _ => hs.inkAt_eq_false (fun c hc => by
    rw [absorbsBehind, Bool.and_eq_true, List.contains_iff_mem] at hc
    exact hc.1) _
  before := hs.inkAt_eq_false (fun c hc => by
    rw [absorbsBefore, Bool.and_eq_true, List.contains_iff_mem] at hc
    exact hc.1) _
  dot := fun _ => hs.inkAt_eq_false (fun c hc => by
    simp only [isDotTail, isPairTail, Bool.or_eq_true, beq_iff_eq] at hc
    simp only [loudChars, List.mem_cons]
    tauto) _

/-! ## Texts with the same gaps -/

theorem alike_of_gapAt {s t : List Char} (hink : ink s = ink t)
    (hgap : ∀ k, gapAt k s = gapAt k t) :
    Alike true s t where
  ink_eq := hink
  gap := fun k _ _ => hgap k
  unary := fun k => by
    rw [unaryAt, unaryAt, hgap, hgap, inkAt_of_ink_eq hink, inkAt_of_ink_eq hink,
      inkAt_of_ink_eq hink]

section

variable {s t : List Char} {c d : Cut} {k n : Nat} {l l' r r' : Bool}

/-- Cuts at one place of texts with the same ink up to there have left sides with the same gaps, if
the gaps up to that place are the same. -/
theorem Placed.left_eq (h : Placed s c k n l r) (h' : Placed t d k n l r')
    (hink : (ink s).take k = (ink t).take k) (hgap : ∀ j < k, gapAt j s = gapAt j t) :
    ink c.left = ink d.left ∧ ∀ j, gapAt j c.left = gapAt j d.left := by
  refine ⟨by rw [h.left_ink, h'.left_ink, hink], fun j => ?_⟩
  rcases Nat.lt_trichotomy j k with hlt | rfl | hgt
  · rw [h.left_gap j hlt, h'.left_gap j hlt, hgap j hlt]
  · rw [h.left_end, h'.left_end]
  · have hlength : ∀ u, ink u = (ink s).take k → (ink u).length < j := fun u hu => by
      rw [hu, List.length_take]
      omega
    rw [gapAt_of_gt (hlength _ h.left_ink), gapAt_of_gt (hlength _ (h'.left_ink.trans hink.symm))]

/-- So have their right sides, if the gaps behind it are the same. -/
theorem Placed.right_eq (h : Placed s c k n l r) (h' : Placed t d k n l' r) (hink : ink s = ink t)
    (hgap : ∀ j, gapAt j s = gapAt j t) :
    ink c.right = ink d.right ∧ ∀ j, gapAt j c.right = gapAt j d.right := by
  refine ⟨by rw [h.right_ink, h'.right_ink, hink], fun j => ?_⟩
  cases j with
  | zero => rw [h.right_start, h'.right_start]
  | succ j => rw [h.right_gap, h'.right_gap, hgap]

end

/-- **Clear texts with the same gaps come out with the same gaps.** -/
theorem Clear.gapAt_format_congr {s t : List Char} (hs : Clear s) (ht : Clear t)
    (hink : ink s = ink t) (hgap : ∀ k, gapAt k s = gapAt k t) (j : Nat) :
    gapAt j (format s) = gapAt j (format t) := by
  refine hs.induction (P := fun s => ∀ t, Clear t → ink s = ink t → (∀ k, gapAt k s = gapAt k t) →
    ∀ j, gapAt j (format s) = gapAt j (format t)) ?_ ?_ t ht hink hgap j
  · intro s hs hquiet hnone t ht hink hgap j
    rcases ht.cases with ⟨hquiet', -⟩ | ⟨d, w, m, hother⟩
    · rw [hquiet.gapAt_format hs.code hs.exponent, hquiet'.gapAt_format ht.code ht.exponent, hgap]
    · have hspot := hother.chosen.spot
      rw [← (alike_of_gapAt hink hgap).spot_eq hother.mem, hnone w hother.mem m] at hspot
      cases hspot
  · intro s c v k hs hstep hleft hright t ht hink hgap j
    have halike := alike_of_gapAt hink hgap
    have hspot : ∀ v ∈ views, ∀ k, v.spot k s = v.spot k t := fun v hv => halike.spot_eq hv
    obtain ⟨d, hstep'⟩ : ∃ d, Step t d v k := by
      rcases ht.cases with ⟨-, hnone⟩ | ⟨d, w, m, hother⟩
      · have hchosen := hstep.chosen.spot
        rw [hspot v hstep.mem, hnone v hstep.mem k] at hchosen
        cases hchosen
      · obtain rfl := hstep.view_eq hspot hother
        have hstart : v.start s = v.start t := by
          by_contra hne
          exact absurd (halike.opening_of_start_ne hstep hne).1 (by simp)
        obtain rfl := hstep.place_eq hspot hother hstart
        exact ⟨d, hother⟩
    have hcuts : v.Cuts t d k := hstep'.cuts
    rw [View.Cuts, ← hgap, ← hgap] at hcuts
    obtain ⟨hlink, hlgap⟩ := hstep.cuts.left_eq hcuts (by rw [hink]) fun j _ => hgap j
    obtain ⟨hrink, hrgap⟩ := hstep.cuts.right_eq hcuts hink hgap
    rcases Nat.lt_or_ge k j with hlt | hle
    · rcases Nat.lt_or_ge j (k + v.size) with hmid | hge
      · rw [hstep.gapAt_format_mid hs.code hlt hmid, hstep'.gapAt_format_mid ht.code hlt hmid]
      · obtain ⟨i, rfl⟩ : ∃ i, j = k + v.size + i := ⟨j - (k + v.size), by omega⟩
        rw [hstep.gapAt_format_right hs.code, hstep'.gapAt_format_right ht.code]
        exact hright d.right (hstep'.clear_right ht) hrink hrgap i
    · rw [hstep.gapAt_format_left hs.code hle, hstep'.gapAt_format_left ht.code hle]
      exact hleft d.left (hstep'.clear_left ht) hlink hlgap j

/-! ## Alike texts once spaced -/

/-- Where nothing is left to cut before an opening bracket at the start, the gap in front of that is
of no account. -/
def FrontFree : Prop :=
  ∀ s t, Tame s → Tame t → Alike false s t → inkAt isOpening 0 s = true → NoSpot (views.take 10) s →
    ∀ j, 0 < j → gapAt j (format s) = gapAt j (format t)

/-- **Alike texts come out with the same gaps.** -/
theorem Alike.gapAt_format_of {s : List Char} (hs : Tame s) : ∀ (t : List Char) (front : Bool),
    (front = true ∨ FrontFree) → Tame t → Alike front s t → ∀ j, front = true ∨ 0 < j →
      gapAt j (format s) = gapAt j (format t) := by
  refine hs.toClear.induction (P := fun s => Tame s → ∀ (t : List Char) (front : Bool),
    (front = true ∨ FrontFree) → Tame t → Alike front s t → ∀ j, front = true ∨ 0 < j →
      gapAt j (format s) = gapAt j (format t)) ?_ ?_ hs
  · intro s hclear hquiet hnone _ t front _ ht h j hj
    rcases ht.toClear.cases with ⟨hquiet', -⟩ | ⟨d, w, m, hother⟩
    · rw [hquiet.gapAt_format hclear.code hclear.exponent, hquiet'.gapAt_format ht.code ht.exponent]
      exact h.gap j hj (hquiet.plain j)
    · have hspot := hother.chosen.spot
      rw [← h.spot_eq hother.mem, hnone w hother.mem m] at hspot
      cases hspot
  · intro s c v k hclear hstep hleft hright hs t front hfree ht h j hj
    rcases h.step ht hstep with ⟨d, hstep'⟩ | ⟨rfl, hopen, hnone⟩
    · obtain ⟨halike, halike'⟩ := h.sides hs ht hstep hstep'
      by_cases hle : j ≤ k
      · rw [hstep.gapAt_format_left hs.code hle, hstep'.gapAt_format_left ht.code hle]
        exact hleft (hstep.tame_left hs) d.left front hfree (hstep'.tame_left ht) halike j hj
      · by_cases hlt : j < k + v.size
        · rw [hstep.gapAt_format_mid hs.code (by omega) hlt,
            hstep'.gapAt_format_mid ht.code (by omega) hlt]
        · obtain ⟨i, rfl⟩ : ∃ i, j = k + v.size + i := ⟨j - (k + v.size), by omega⟩
          rw [hstep.gapAt_format_right hs.code, hstep'.gapAt_format_right ht.code]
          exact hright (hstep.tame_right hs) d.right true (Or.inl rfl) (hstep'.tame_right ht)
            halike' i (Or.inl rfl)
    · exact hfree.resolve_left (by simp) s t hs ht h hopen hnone j (hj.resolve_left (by simp))

end Pcode.Spacing
