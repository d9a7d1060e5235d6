import Pcode.Proofs.Spacing.Twice

set_option autoImplicit false

/-! # Continuation marks

Three dots at the end of a line continue it on the next one. They stand where an operand would, and
the rules for code see as little in them as in a name (`Dotted.spot_eq`). So the same cuts are made
in code that ends with a continuation mark and in the code with a name in its place, until nothing
but the mark is left to cut, which gets a blank on each side.

Main statement: what stands in front of the mark comes out with the same gaps as in front of the
name (`Dotted.marked`). -/

namespace Pcode.Spacing

open Pcode.Text

/-! ## The view of the rule -/

/-- The text begins with three dots in a row, blanks in front apart. -/
def beginsDots (t : List Char) : Bool :=
  fits [(· == '.'), (· == '.'), (· == '.')] (ink t) && !gapAt 1 t && !gapAt 2 t

/-- The view of the rule for continuation marks. -/
def ellipsisView : View :=
  textView beginsDots [(· == '.'), (· == '.'), (· == '.')] (some true) (some true)

/-- The ink at a place begins the text there. -/
theorem exists_skipBlanks_past {k : Nat} {s i : List Char} {c : Char}
    (h : (ink s).drop k = c :: i) :
    skipBlanks (past k s) = c :: past (k + 1) s ∧ (ink s).drop (k + 1) = i := by
  have hblank : (past k s).all isBlank = false := by
    rw [Bool.eq_false_iff, ne_eq, ← ink_eq_nil_iff, ink_past, h]
    simp
  obtain ⟨d, r, hcons, hd⟩ := (beginsInk_skipBlanks hblank).exists_cons
  have hink : (ink s).drop k = d :: ink r := by
    rw [← ink_past, ← ink_skipBlanks, hcons, ink_cons_of_ink hd]
  have hpast : past (k + 1) s = r := by
    rw [past_add, ← past_skipBlanks, hcons, past_cons_of_ink hd, past_zero]
  obtain ⟨rfl, rfl⟩ := List.cons.inj (h.symm.trans hink)
  refine ⟨by rw [hcons, hpast], ?_⟩
  rw [← ink_past, hpast]

theorem exists_of_fits_dots {i : List Char}
    (h : fits [(· == '.'), (· == '.'), (· == '.')] i = true) : ∃ r, i = '.' :: '.' :: '.' :: r := by
  rcases i with _ | ⟨a, _ | ⟨b, _ | ⟨c, r⟩⟩⟩
  · simp [fits] at h
  · simp [fits] at h
  · simp [fits] at h
  · simp only [fits, Bool.and_eq_true, beq_iff_eq, Bool.and_true] at h
    obtain ⟨rfl, rfl, rfl⟩ := h
    exact ⟨r, rfl⟩

theorem skipBlanks_of_beginsDots {t : List Char} (h : beginsDots t = true) :
    ∃ r, skipBlanks t = '.' :: '.' :: '.' :: r := by
  rw [beginsDots, Bool.and_eq_true, Bool.and_eq_true] at h
  obtain ⟨⟨hrow, hfirst⟩, hsecond⟩ := h
  obtain ⟨i, hi⟩ := exists_of_fits_dots (i := (ink t).drop 0) hrow
  obtain ⟨h0, hi⟩ := exists_skipBlanks_past hi
  obtain ⟨h1, hi⟩ := exists_skipBlanks_past hi
  obtain ⟨h2, -⟩ := exists_skipBlanks_past hi
  rw [skipBlanks_past_of_gapAt (by simpa using hfirst)] at h1
  rw [skipBlanks_past_of_gapAt (by simpa using hsecond)] at h2
  rw [past_zero] at h0
  exact ⟨_, by rw [h0, h1, h2]⟩

theorem ellipsis_readsInk : Probe.ReadsInk ellipsis beginsDots 3 skipBlanks := by
  intro t ht
  have hdot : ∀ u, ink ('.' :: u) = '.' :: ink u := ink_cons_of_ink (by decide)
  have hpast : ∀ k u, past (k + 1) ('.' :: u) = past k u :=
    fun k u => past_cons_of_ink (by decide) k u
  rw [ellipsis]
  split
  · next r hskip =>
      have hink : ink t = '.' :: '.' :: '.' :: ink r := by
        rw [← ink_skipBlanks, hskip, hdot, hdot, hdot]
      have hbehind : ∀ k, past (k + 1) t = past k ('.' :: '.' :: r) := fun k => by
        rw [← past_skipBlanks, hskip, hpast]
      have hfits : beginsDots t = true := by
        rw [beginsDots, hink, gapAt, gapAt, hbehind, hbehind, hpast, past_zero, past_zero]
        rfl
      have hrest : past 3 t = r := by rw [hbehind, hpast, hpast, past_zero]
      rw [if_pos hfits, hrest, hink, remainder_eq]
      · rfl
      · exact fun hmem => newline_not_mem_past ht 3 (by rwa [hrest])
  · next hne =>
      rw [if_neg]
      intro hfits
      obtain ⟨r, hr⟩ := skipBlanks_of_beginsDots hfits
      exact hne r hr

theorem ellipsisRule_sees : Rule.Sees ellipsisRule ellipsisView :=
  ellipsis_readsInk.sees (by decide) (fun t ht => by
    rw [beginsDots, Bool.and_eq_true, Bool.and_eq_true] at ht
    exact ht.1.1) (keeps_pad true)

/-! ## A mark and a name -/

/-- Two texts with the same ink and the same gaps up to a continuation mark in the one and a name in
the other, both at the end. No sign belongs to the name. -/
structure Dotted (i x y : List Char) : Prop where
  mark : ink x = i ++ ['.', '.', '.']
  name : ink y = i ++ ['x']
  gap : ∀ j < i.length, gapAt j x = gapAt j y
  joined : gapAt (i.length + 1) x = false ∧ gapAt (i.length + 2) x = false
  loose : gapAt i.length y = true ∨ ∀ c ∈ i.getLast?, isSign c = false

/-- Ink of classes that a character is in none of does not reach to that character. -/
theorem fits_append_of_not {ps : List (Char → Bool)} {c : Char} (h : ∀ p ∈ ps, p c = false)
    (w r : List Char) : fits ps (w ++ c :: r) = fits ps w := by
  induction ps generalizing w with
  | nil => rfl
  | cons p ps ih =>
      cases w with
      | nil => simp [fits, h p (by simp)]
      | cons d w => rw [List.cons_append, fits, fits, ih (fun q hq => h q (by simp [hq]))]

/-- Classes of ink in a row that fit neither a name nor a continuation mark. -/
def isBlunt : List (Char → Bool) → Bool
  | [] => false
  | p :: ps => !p 'x' && (ps.all fun q => !q 'x' && !q '.') && (!ps.isEmpty || !p '.')

theorem isBlunt_cons {p : Char → Bool} {ps : List (Char → Bool)} (h : isBlunt (p :: ps) = true) :
    p 'x' = false ∧ (∀ q ∈ ps, q 'x' = false ∧ q '.' = false) ∧ (ps = [] → p '.' = false) := by
  simpa [isBlunt, and_assoc, or_iff_not_imp_left] using h

theorem fits_drop_name {ps : List (Char → Bool)} (h : ∀ p ∈ ps, p 'x' = false)
    (i : List Char) (k : Nat) : fits ps ((i ++ ['x']).drop k) = fits ps (i.drop k) := by
  rcases Nat.lt_or_ge i.length k with hlt | hle
  · rw [List.drop_eq_nil_of_le (by simp; omega), List.drop_eq_nil_of_le (by omega)]
  · rw [List.drop_append_of_le_length hle]
    exact fits_append_of_not h _ _

theorem fits_drop_mark {ps : List (Char → Bool)} (h : isBlunt ps = true) (i : List Char) (k : Nat) :
    fits ps ((i ++ ['.', '.', '.']).drop k) = fits ps (i.drop k) := by
  cases ps with
  | nil => cases h
  | cons p ps =>
      obtain ⟨-, hothers, hsingle⟩ := isBlunt_cons h
      -- a first class that fits a dot is not the last one
      have hdots : ∀ n, fits (p :: ps) (List.replicate n '.') = false := by
        intro n
        cases n with
        | zero => rfl
        | succ n =>
            rw [List.replicate_succ, fits]
            cases ps with
            | nil => rw [hsingle rfl, Bool.false_and]
            | cons q ps =>
                cases n with
                | zero => rw [List.replicate_zero, fits, Bool.and_false]
                | succ n =>
                    rw [List.replicate_succ, fits, (hothers q (by simp)).2, Bool.false_and,
                      Bool.and_false]
      have hmark : ['.', '.', '.'] = List.replicate 3 '.' := rfl
      rcases Nat.lt_or_ge k i.length with hlt | hle
      · rw [List.drop_append_of_le_length (by omega)]
        obtain ⟨d, w, hw⟩ := List.exists_cons_of_length_pos (l := i.drop k) (by simp; omega)
        rw [hw, List.cons_append, fits, fits, fits_append_of_not fun q hq => (hothers q hq).2]
      · rw [List.drop_append, List.drop_eq_nil_of_le hle, List.nil_append, hmark,
          List.drop_replicate, hdots]
        rfl

theorem fits_drop_blunt {ps : List (Char → Bool)} (h : isBlunt ps = true) (i : List Char)
    (k : Nat) :
    fits ps ((i ++ ['x']).drop k) = fits ps (i.drop k) := by
  cases ps with
  | nil => cases h
  | cons p ps =>
      obtain ⟨hfirst, hothers, -⟩ := isBlunt_cons h
      exact fits_drop_name (List.forall_mem_cons.2 ⟨hfirst, fun q hq => (hothers q hq).1⟩) i k

namespace Dotted

variable {i x y : List Char} (h : Dotted i x y)

include h

theorem fits_eq {ps : List (Char → Bool)} (hps : isBlunt ps = true) (k : Nat) :
    fits ps ((ink x).drop k) = fits ps ((ink y).drop k) := by
  rw [h.mark, h.name, fits_drop_mark hps, fits_drop_blunt hps]

theorem increment_eq (k : Nat) :
    fitsIncrement ((ink x).drop k) = fitsIncrement ((ink y).drop k) := by
  have hblunt : isBlunt [isSign, isSign] = true := by decide
  rw [fitsIncrement, fitsIncrement, h.fits_eq hblunt]
  cases hfits : fits [isSign, isSign] ((ink y).drop k) with
  | false => rw [Bool.false_and, Bool.false_and]
  | true =>
      have hlength : k + 2 ≤ i.length := by
        rw [h.name, fits_drop_blunt hblunt] at hfits
        have hle := length_le_of_fits hfits
        simp only [List.length_cons, List.length_nil, List.length_drop] at hle
        omega
      rw [List.getElem?_drop, List.getElem?_drop, h.mark, h.name]
      rcases Nat.lt_or_ge (k + 2) i.length with hlt | hge
      · rw [List.getElem?_append_left hlt, List.getElem?_append_left hlt]
      · -- neither a dot nor a name closes anything
        rw [List.getElem?_append_right hge, List.getElem?_append_right hge,
          show k + 2 - i.length = 0 by omega]
        rfl

theorem inkAt_of_lt {k : Nat} (hk : k < i.length) (p : Char → Bool) :
    inkAt p k x = inkAt p k y := by
  rw [inkAt, inkAt, h.mark, h.name, List.getElem?_append_left hk, List.getElem?_append_left hk]

theorem inkAt_eq {p : Char → Bool} (hdot : p '.' = false) (hname : p 'x' = false) (k : Nat) :
    inkAt p k x = inkAt p k y ∧ (inkAt p k y = true → k < i.length) := by
  rcases Nat.lt_or_ge k i.length with hlt | hle
  · exact ⟨h.inkAt_of_lt hlt p, fun _ => hlt⟩
  · have hmark : ∀ c ∈ ['.', '.', '.'], p c = false := by simp [hdot]
    have hrest : ∀ c ∈ ['x'], p c = false := by simp [hname]
    have hnone : ∀ r : List Char, (∀ c ∈ r, p c = false) → (i ++ r)[k]?.any p = false := by
      intro r hr
      rw [List.getElem?_append_right hle]
      cases hget : r[k - i.length]? with
      | none => rfl
      | some c => rw [Option.any_some, hr c (List.mem_of_getElem? hget)]
    have hy : inkAt p k y = false := by rw [inkAt, h.name, hnone _ hrest]
    refine ⟨by rw [hy, inkAt, h.mark, hnone _ hmark], fun htrue => ?_⟩
    rw [hy] at htrue
    cases htrue

/-- No sign belongs to the name. -/
theorem unaryAt_last {k : Nat} (hk : k + 1 = i.length) : unaryAt k y = false := by
  rcases h.loose with hgap | hlast
  · rw [unaryAt, hk, hgap, Bool.not_true, Bool.and_false, Bool.false_and]
  · have hsign : inkAt isSign k y = false := by
      rw [inkAt, h.name, List.getElem?_append_left (by omega), show k = i.length - 1 by omega,
        ← List.getLast?_eq_getElem?]
      cases hget : i.getLast? with
      | none => rfl
      | some c => rw [Option.any_some, hlast c hget]
    rw [unaryAt, hsign, Bool.false_and, Bool.false_and, Bool.false_and]

theorem unaryAt_eq (k : Nat) : unaryAt k x = unaryAt k y := by
  obtain ⟨hsign, hlt⟩ := h.inkAt_eq (p := isSign) (by decide) (by decide) k
  cases hplace : inkAt isSign k y with
  | false => rw [unaryAt, unaryAt, hsign, hplace, Bool.false_and, Bool.false_and, Bool.false_and,
      Bool.false_and, Bool.false_and, Bool.false_and]
  | true =>
      have hlt := hlt hplace
      rcases Nat.lt_or_ge (k + 1) i.length with hnext | hge
      · rw [unaryAt, unaryAt, h.inkAt_of_lt hlt, h.inkAt_of_lt hnext, h.gap k hlt,
          h.gap (k + 1) hnext, h.inkAt_of_lt (show k - 1 < i.length by omega)]
      · -- the sign is the last ink in front of the mark
        have hend : k + 1 = i.length := by omega
        have hword : inkAt isWord (k + 1) x = false := by
          rw [inkAt, h.mark, hend, List.getElem?_append_right (Nat.le_refl _), Nat.sub_self]
          decide
        rw [h.unaryAt_last hend, unaryAt, hword, Bool.and_false, Bool.false_and, Bool.false_and]

/-- **The views see the same** in front of a mark and of a name. -/
theorem spot_eq {v : View} (hv : v ∈ views) (k : Nat) : v.spot k x = v.spot k y := by
  simp only [views, List.mem_cons, List.not_mem_nil, or_false] at hv
  rcases hv with rfl | rfl | rfl | rfl | rfl | rfl | rfl | rfl | rfl | rfl | rfl | rfl | rfl
  · exact h.increment_eq k
  · exact h.unaryAt_eq k
  iterate 7
    · exact h.fits_eq (by decide) k
  · show (inkAt (· == '(') k x && !gapAt k x && (decide (0 < k) && inkAt isWord (k - 1) x)) =
      (inkAt (· == '(') k y && !gapAt k y && (decide (0 < k) && inkAt isWord (k - 1) y))
    obtain ⟨hparen, hlt⟩ := h.inkAt_eq (p := (· == '(')) (by decide) (by decide) k
    rw [hparen]
    cases hplace : inkAt (· == '(') k y with
    | false => rw [Bool.false_and, Bool.false_and, Bool.false_and, Bool.false_and]
    | true =>
        have hlt := hlt hplace
        rw [h.gap k hlt, h.inkAt_of_lt (show k - 1 < i.length by omega)]
  · exact (h.inkAt_eq (by decide) (by decide) k).1
  iterate 2
    · exact h.fits_eq (by decide) k

/-- So they do at the start. -/
theorem start_eq {v : View} (hv : v ∈ views) : v.start x = v.start y := by
  have hzero : ∀ {ps : List (Char → Bool)}, isBlunt ps = true → fits ps (ink x) = fits ps (ink y) :=
    fun hps => by simpa using h.fits_eq hps 0
  simp only [views, List.mem_cons, List.not_mem_nil, or_false] at hv
  rcases hv with rfl | rfl | rfl | rfl | rfl | rfl | rfl | rfl | rfl | rfl | rfl | rfl | rfl
  · show fitsIncrement (ink x) = fitsIncrement (ink y)
    simpa using h.increment_eq 0
  · rfl
  iterate 7
    · exact hzero (by decide)
  · rfl
  · show (inkAt isOpening 0 x && !gapAt 0 x) = (inkAt isOpening 0 y && !gapAt 0 y)
    obtain ⟨hopen, hlt⟩ := h.inkAt_eq (p := isOpening) (by decide) (by decide) 0
    rw [hopen]
    cases hplace : inkAt isOpening 0 y with
    | false => rw [Bool.false_and, Bool.false_and]
    | true => rw [h.gap 0 (hlt hplace)]
  iterate 2
    · exact hzero (by decide)

/-- What a view takes stands in front of the name. -/
theorem bound {d : Cut} {v : View} {k : Nat} (hstep : Step y d v k) : k + v.size ≤ i.length := by
  have hall : ∀ v ∈ views, (v.takes.all fun p => !p 'x') = true := List.all_eq_true.1 (by decide)
  have hpos := hstep.size_pos
  have hfits := fits_of_spot hstep.mem hstep.chosen.spot
  rw [h.name, fits_drop_name fun p hp => by
    simpa using List.all_eq_true.1 (hall v hstep.mem) p hp] at hfits
  have hle := length_le_of_fits hfits
  rw [List.length_drop] at hle
  have hsize : v.size = v.takes.length := rfl
  omega

/-- **A mark and a name are cut alike**, unless nothing but the mark is left to cut. -/
theorem cut_cases (hx : Code x) (hy : Clear y) :
    (NoSpot views y ∧ ∀ c, ellipsisRule.cut? x = some c → cut? x = some c) ∨
      ∃ c d v k, Step x c v k ∧ Step y d v k := by
  have hink : x.all isBlank = false := by
    rw [Bool.eq_false_iff, ne_eq, ← ink_eq_nil_iff, h.mark]
    simp
  have hfind := findSome?_inkRules (s := x)
    (fun k _ => (h.fits_eq (by decide) k).trans (hy.exponent.fits_eq k))
    (fun k _ => (h.fits_eq (by decide) k).trans (hy.quotient.fits_eq k))
  have hspot : ∀ v ∈ views, ∀ k, v.spot k x = v.spot k y := fun v hv => h.spot_eq hv
  rcases findSome?_sees inkRules_sees hx.newline_not_mem with
    ⟨hnone, hspots⟩ | ⟨c, v, k, hcut, horder, hchosen, hcuts⟩
  · refine Or.inl ⟨fun v hv k => by rw [← hspot v hv, hspots v hv k], fun c hc => ?_⟩
    rw [hx.cut?_eq hink, hfind, hnone, hc]
    rfl
  · have hstep : Step x c v k := by
      refine ⟨?_, horder, hchosen, hcuts⟩
      rw [hx.cut?_eq hink, hfind, hcut]
      rfl
    rcases hy.cases with ⟨-, hnone⟩ | ⟨d, w, m, hother⟩
    · have hchosen := hstep.chosen.spot
      rw [hspot v hstep.mem, hnone v hstep.mem k] at hchosen
      cases hchosen
    · obtain rfl := hstep.view_eq hspot hother
      obtain rfl := hstep.place_eq hspot hother (h.start_eq hstep.mem)
      exact Or.inr ⟨c, d, v, k, hstep, hother⟩

/-- The mark is cut out where it stands. -/
theorem exists_ellipsis_cut (hx : Code x) (hy : Clear y) (hlast : i.getLast? ≠ some '.') :
    ∃ c, ellipsisRule.cut? x = some c ∧ Placed x c i.length 3 true true := by
  have hspot : ellipsisView.spot i.length x = true := by
    show beginsDots (past i.length x) = true
    rw [beginsDots, ink_past, h.mark, List.drop_left, gapAt_past, gapAt_past, h.joined.1,
      h.joined.2]
    rfl
  rcases ellipsisRule_sees x hx.newline_not_mem with ⟨-, hnone⟩ | ⟨c, k, hcut, hchosen, hcuts⟩
  · rw [hnone] at hspot
    cases hspot
  · refine ⟨c, hcut, ?_⟩
    -- three dots stand nowhere else
    have hfits : fits [(· == '.'), (· == '.'), (· == '.')] ((ink x).drop k) = true := by
      have hbegins : beginsDots (past k x) = true := hchosen.spot
      rw [beginsDots, Bool.and_eq_true, Bool.and_eq_true, ink_past] at hbegins
      exact hbegins.1.1
    have hlength := length_le_of_fits hfits
    rw [h.mark, List.length_drop, List.length_append] at hlength
    simp only [List.length_cons, List.length_nil] at hlength
    have hplace : k = i.length := by
      by_contra hne
      rcases Nat.lt_or_ge i.length (k + 3) with hlt | hge
      · -- one of them would be the last ink in front of the mark
        have hdot : inkAt (· == '.') (i.length - 1) x = true := by
          have hall : ∀ j < 3, inkAt (· == '.') (k + j) x = true := by
            intro j hj
            refine inkAt_of_fits hfits ?_
            obtain rfl | rfl | rfl : j = 0 ∨ j = 1 ∨ j = 2 := by omega
            all_goals rfl
          have hthere := hall (i.length - 1 - k) (by omega)
          rwa [show k + (i.length - 1 - k) = i.length - 1 by omega] at hthere
        obtain ⟨c, hc, hclass⟩ := inkAt_iff.1 hdot
        rw [h.mark, List.getElem?_append_left (by omega), ← List.getLast?_eq_getElem?] at hc
        exact hlast (by rw [hc, beq_iff_eq.1 hclass])
      · have hname : fits [(· == '.'), (· == '.'), (· == '.')] ((ink y).drop k) = true := by
          rw [h.mark, List.drop_append_of_le_length (by omega)] at hfits
          rw [h.name, List.drop_append_of_le_length (by omega)]
          obtain ⟨r, hr⟩ := exists_of_fits_dots hfits
          obtain ⟨a, b, c, w, hw⟩ : ∃ a b c w, i.drop k = a :: b :: c :: w := by
            rcases hdrop : i.drop k with _ | ⟨a, _ | ⟨b, _ | ⟨c, w⟩⟩⟩
            iterate 3
              · have hshort := congrArg List.length hdrop
                simp only [List.length_drop, List.length_cons, List.length_nil] at hshort
                omega
            · exact ⟨a, b, c, w, rfl⟩
          rw [hw] at hr ⊢
          simp only [List.cons_append, List.cons.injEq] at hr
          obtain ⟨rfl, rfl, rfl, -⟩ := hr
          rfl
        rw [hy.dots.fits_eq] at hname
        cases hname
    rw [← hplace]
    exact hcuts

end Dotted

/-! ## Spacing with a mark -/

/-- The first text, with a continuation mark at its end, has the gaps of the second up to the mark,
and a gap on each side of that. -/
structure Marked (i x y : List Char) : Prop where
  gap : ∀ j < i.length, gapAt j x = gapAt j y
  front : gapAt i.length x = true
  joined : gapAt (i.length + 1) x = false ∧ gapAt (i.length + 2) x = false
  last : gapAt (i.length + 3) x = true

/-- What is behind the front of a mark is the same for all marks. -/
theorem Marked.gapAt_eq {i x y x' y' : List Char} (h : Marked i x y) (h' : Marked i x' y')
    (hink : ink x = i ++ ['.', '.', '.']) (hink' : ink x' = i ++ ['.', '.', '.']) {j : Nat}
    (hgap : j < i.length → gapAt j y = gapAt j y') : gapAt j x = gapAt j x' := by
  rcases Nat.lt_or_ge j i.length with hlt | hge
  · rw [h.gap j hlt, hgap hlt, h'.gap j hlt]
  · have hend : ∀ u, ink u = i ++ ['.', '.', '.'] → (ink u).length = i.length + 3 := fun u hu => by
      rw [hu]
      simp
    obtain rfl | rfl | rfl | rfl | hgt : j = i.length ∨ j = i.length + 1 ∨ j = i.length + 2 ∨
        j = i.length + 3 ∨ i.length + 3 < j := by omega
    · rw [h.front, h'.front]
    · rw [h.joined.1, h'.joined.1]
    · rw [h.joined.2, h'.joined.2]
    · rw [h.last, h'.last]
    · rw [gapAt_of_gt (by rwa [hend x hink]), gapAt_of_gt (by rwa [hend x' hink'])]

/-- The mark is found where it is said to be. -/
theorem Marked.infix_dots {i x y : List Char} (h : Marked i x y)
    (hink : ink x = i ++ ['.', '.', '.']) :
    ['.', '.', '.'] <:+: x := by
  have hbegins : beginsDots (past i.length x) = true := by
    rw [beginsDots, ink_past, hink, List.drop_left, gapAt_past, gapAt_past, h.joined.1, h.joined.2]
    rfl
  obtain ⟨r, hr⟩ := skipBlanks_of_beginsDots hbegins
  have hdots : ['.', '.', '.'] <+: skipBlanks (past i.length x) := ⟨r, hr.symm⟩
  exact hdots.isInfix.trans ((List.dropWhile_suffix isBlank).trans (past_suffix _ x)).isInfix

theorem Lacks.not_dots {s : List Char} (h : Lacks [(· == '.'), (· == '.'), (· == '.')] s) :
    ¬['.', '.', '.'] <:+: s := by
  rintro ⟨u, w, rfl⟩
  have hink : ink (u ++ ['.', '.', '.'] ++ w) = ink u ++ ('.' :: '.' :: '.' :: ink w) := by
    rw [ink_append, ink_append, List.append_assoc]
    rfl
  have hfits := h.fits_eq (ink u).length
  rw [hink, List.drop_left] at hfits
  cases hfits

section

variable {i x y : List Char}

/-- Where nothing is left to cut but the mark, the gaps in front of it stay. -/
theorem Dotted.marked_of_quiet (h : Dotted i x y) (hx : Code x) (hy : Clear y) (hquiet : Quiet y)
    (hnone : NoSpot views y) (hlast : i.getLast? ≠ some '.') : Marked i (format x) (format y) := by
  have hcut : ∃ c, cut? x = some c ∧ Placed x c i.length 3 true true := by
    obtain ⟨c, hc, hplaced⟩ := h.exists_ellipsis_cut hx hy hlast
    rcases h.cut_cases hx hy with ⟨-, hcut⟩ | ⟨_, _, v, k, -, hstep⟩
    · exact ⟨c, hcut c hc, hplaced⟩
    · have hspot := hstep.chosen.spot
      rw [hnone v hstep.mem k] at hspot
      cases hspot
  obtain ⟨c, hcut, hplaced⟩ := hcut
  obtain ⟨hleft, hright⟩ := hx.sides hcut
  -- what stands in front of the mark is quiet
  have hink : ink c.left = (ink y).take i.length := by
    rw [hplaced.left_ink, h.mark, h.name, List.take_left, List.take_left]
  have hquiet' : Quiet c.left := by
    refine ⟨fun d hd hmem => hquiet.loud d hd ?_, (hy.dots.of_take hink).not_dots⟩
    have hmem' : d ∈ ink c.left := List.mem_filter.2 ⟨hmem, by simp [isBlank_of_mem_loudChars hd]⟩
    rw [hink] at hmem'
    exact List.mem_of_mem_filter (List.mem_of_mem_take hmem')
  have hkept : ∀ j ≤ i.length, gapAt j (format x) = gapAt j c.left := fun j hj => by
    rw [hplaced.gapAt_format_left hcut (by decide) hx hj,
      hquiet'.gapAt_format hleft (hy.exponent.of_take hink)]
  refine ⟨fun j hj => ?_, ?_, ⟨?_, ?_⟩, ?_⟩
  · rw [hkept j (by omega), hplaced.left_gap j hj, h.gap j hj,
      hquiet.gapAt_format hy.code hy.exponent]
  · rw [hkept _ (Nat.le_refl _), hplaced.left_end]
  · exact hplaced.gapAt_format_mid hcut hx (by omega) (by omega)
  · exact hplaced.gapAt_format_mid hcut hx (by omega) (by omega)
  · have hblank : ink c.right = [] := by
      rw [hplaced.right_ink, h.mark]
      simp
    have hlacks : Lacks [isNumeral, isExponent, fun c => isDecimal c || isSign c] c.right := by
      intro j hj
      rw [hblank] at hj
      exact absurd hj (Nat.not_lt_zero j)
    have hend := hplaced.gapAt_format_right hcut (by decide) hx 0
    rw [Nat.add_zero] at hend
    rw [hend, (quiet_of_blank ((ink_eq_nil_iff _).1 hblank)).gapAt_format hright hlacks,
      hplaced.right_start]

/-- The right sides of a cut have a mark and a name at their ends again. -/
theorem Dotted.right {c d : Cut} {v : View} {k : Nat} (h : Dotted i x y) (hx : Step x c v k)
    (hy : Step y d v k) : Dotted (i.drop (k + v.size)) c.right d.right := by
  have hbound := h.bound hy
  have hlength : (i.drop (k + v.size)).length = i.length - (k + v.size) := List.length_drop
  refine ⟨?_, ?_, fun j hj => ?_, ⟨?_, ?_⟩, ?_⟩
  · rw [hx.cuts.right_ink, h.mark, List.drop_append_of_le_length hbound]
  · rw [hy.cuts.right_ink, h.name, List.drop_append_of_le_length hbound]
  · rw [hlength] at hj
    cases j with
    | zero => rw [hx.cuts.right_start, hy.cuts.right_start, h.gap _ (by omega)]
    | succ j => rw [hx.cuts.right_gap, hy.cuts.right_gap, h.gap _ (by omega)]
  · rw [hx.cuts.right_gap, hlength, ← h.joined.1]
    congr 1
    omega
  · rw [hx.cuts.right_gap, hlength, ← h.joined.2]
    congr 1
    omega
  · rcases Nat.eq_zero_or_pos (i.drop (k + v.size)).length with hzero | hpos
    · rw [List.length_eq_zero_iff] at hzero
      rw [hzero]
      exact Or.inr fun c hc => by cases hc
    · refine h.loose.imp (fun hgap => ?_) fun hsign => ?_
      · obtain ⟨m, hm⟩ : ∃ m, (i.drop (k + v.size)).length = m + 1 :=
          ⟨_, (Nat.sub_add_cancel hpos).symm⟩
        rw [hm, hy.cuts.right_gap, ← hgap]
        congr 1
        omega
      · rw [List.getLast?_drop, if_neg (by omega)]
        exact hsign

end

/-- **Code with a continuation mark at its end is spaced as with a name there**, and the mark gets a
blank on each side. -/
theorem Dotted.marked {i x y : List Char} (h : Dotted i x y) (hx : Code x) (hy : Clear y)
    (hlast : i.getLast? ≠ some '.') : Marked i (format x) (format y) := by
  refine hy.induction (P := fun y => ∀ i x, Dotted i x y → Code x → i.getLast? ≠ some '.' →
    Marked i (format x) (format y)) ?_ ?_ i x h hx hlast
  · exact fun y hy hquiet hnone i x h hx => h.marked_of_quiet hx hy hquiet hnone
  · intro y d w m hy hother _ hright i x h hx hlast
    obtain ⟨c, d', v, k, hstep, hstep'⟩ : ∃ c d v k, Step x c v k ∧ Step y d v k := by
      rcases h.cut_cases hx hy with ⟨hnone, -⟩ | hsteps
      · have hspot := hother.chosen.spot
        rw [hnone w hother.mem m] at hspot
        cases hspot
      · exact hsteps
    obtain rfl : d' = d := Option.some.inj (hstep'.cut.symm.trans hother.cut)
    have hbound := h.bound hstep'
    have hpos := hstep.size_pos
    -- the left sides have the same gaps
    have hleft : ∀ j, gapAt j (format c.left) = gapAt j (format d'.left) := by
      have hcuts : v.Cuts y d' k := hstep'.cuts
      rw [View.Cuts, ← h.gap k (by omega)] at hcuts
      obtain ⟨hink, hgap⟩ := hstep.cuts.left_eq hcuts (by
        rw [h.mark, h.name, List.take_append_of_le_length (by omega),
          List.take_append_of_le_length (by omega)]) fun j hj => h.gap j (by omega)
      have hclear := hstep'.clear_left hy
      exact (hclear.of_ink_eq (hx.sides hstep.cut).1 hink.symm).gapAt_format_congr hclear hink hgap
    have hlength : (i.drop (k + v.size)).length = i.length - (k + v.size) := List.length_drop
    have hmarked :=
      hright (i.drop (k + v.size)) c.right (h.right hstep hstep') (hx.sides hstep.cut).2
      (by
        rw [List.getLast?_drop]
        split
        · simp
        · exact hlast)
    have hplace : ∀ n, gapAt (i.length + n) (format x) =
        gapAt ((i.drop (k + v.size)).length + n) (format c.right) := fun n => by
      rw [← hstep.gapAt_format_right hx, hlength]
      congr 1
      omega
    refine ⟨fun j hj => ?_, (hplace 0).trans hmarked.front, ⟨(hplace 1).trans hmarked.joined.1,
      (hplace 2).trans hmarked.joined.2⟩, (hplace 3).trans hmarked.last⟩
    rcases Nat.lt_or_ge k j with hlt | hle
    · rcases Nat.lt_or_ge j (k + v.size) with hmid | hge
      · rw [hstep.gapAt_format_mid hx hlt hmid, hstep'.gapAt_format_mid hy.code hlt hmid]
      · obtain ⟨m, rfl⟩ : ∃ m, j = k + v.size + m := ⟨j - (k + v.size), by omega⟩
        rw [hstep.gapAt_format_right hx, hstep'.gapAt_format_right hy.code]
        exact hmarked.gap m (by omega)
    · rw [hstep.gapAt_format_left hx hle, hstep'.gapAt_format_left hy.code hle, hleft]

end Pcode.Spacing
