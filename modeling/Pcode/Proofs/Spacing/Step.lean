import Pcode.Proofs.Spacing.Tight
import Pcode.Proofs.Spacing.View

set_option autoImplicit false

/-! # One cut of clear code

Code is *clear* if it has no number with an exponent, no quotient of numerals and no continuation
mark. Every cut of clear code is then one that a view describes (`Clear.cases`), unless the code is
quiet, and its sides are clear again (`Step.clear_left`, `Step.clear_right`). What a cut does with
the gaps of a text can be said place by place: the gaps of the two sides are those of the text, and
so are those of the result (`Step.gapAt_format_left`, `Step.gapAt_format_right`). -/

namespace Pcode.Spacing

open Pcode.Text

/-! ## Clear code -/

/-- Nowhere in the ink stand characters of the classes in a row. -/
def Lacks (ps : List (Char → Bool)) (s : List Char) : Prop :=
  ∀ k < (ink s).length, fits ps ((ink s).drop k) = false

instance (ps : List (Char → Bool)) (s : List Char) : Decidable (Lacks ps s) :=
  inferInstanceAs (Decidable (∀ k < (ink s).length, fits ps ((ink s).drop k) = false))

theorem Lacks.fits_eq {p : Char → Bool} {ps : List (Char → Bool)} {s : List Char}
    (h : Lacks (p :: ps) s) (k : Nat) : fits (p :: ps) ((ink s).drop k) = false := by
  by_cases hk : k < (ink s).length
  · exact h k hk
  · rw [List.drop_eq_nil_of_le (by omega)]
    rfl

theorem Lacks.of_suffix {ps : List (Char → Bool)} {s t : List Char} (h : Lacks ps s)
    (hink : ∃ k, ink t = (ink s).drop k) : Lacks ps t := by
  obtain ⟨k, hink⟩ := hink
  intro j hj
  rw [hink, List.length_drop] at hj
  rw [hink, List.drop_drop]
  exact h (k + j) (by omega)

theorem fits_of_take {ps : List (Char → Bool)} {i : List Char} {k : Nat}
    (h : fits ps (i.take k) = true) : fits ps i = true := by
  induction ps generalizing i k with
  | nil => rfl
  | cons p ps ih =>
      cases k with
      | zero => cases h
      | succ k =>
          cases i with
          | nil => cases h
          | cons c i =>
              rw [List.take_succ_cons, fits, Bool.and_eq_true] at h
              rw [fits, Bool.and_eq_true]
              exact ⟨h.1, ih h.2⟩

theorem Lacks.of_take {ps : List (Char → Bool)} {s t : List Char} (h : Lacks ps s) {k : Nat}
    (hink : ink t = (ink s).take k) : Lacks ps t := by
  intro j hj
  rw [hink, List.length_take] at hj
  by_contra hfits
  rw [Bool.not_eq_false, hink, List.drop_take] at hfits
  have hwhole := fits_of_take hfits
  rw [h j (by omega)] at hwhole
  cases hwhole

/-- The characters in front of the mark of an exponent. -/
def isNumeral (c : Char) : Bool := isDecimal c || c == '.'

def isExponent (c : Char) : Bool := c == 'e' || c == 'E'

/-- Code without numbers with an exponent, quotients of numerals and continuation marks. -/
structure Clear (s : List Char) : Prop where
  code : Code s
  exponent : Lacks [isNumeral, isExponent, fun c => isDecimal c || isSign c] s
  quotient : Lacks [isDecimal, (· == '/'), isDecimal] s
  dots : Lacks [(· == '.'), (· == '.'), (· == '.')] s

theorem clear_iff {s : List Char} :
    Clear s ↔ Code s ∧ Lacks [isNumeral, isExponent, fun c => isDecimal c || isSign c] s ∧
      Lacks [isDecimal, (· == '/'), isDecimal] s ∧ Lacks [(· == '.'), (· == '.'), (· == '.')] s :=
  ⟨fun h => ⟨h.code, h.exponent, h.quotient, h.dots⟩, fun h => ⟨h.1, h.2.1, h.2.2.1, h.2.2.2⟩⟩

instance (s : List Char) : Decidable (Clear s) := decidable_of_iff _ clear_iff.symm

/-! ## Numbers -/

theorem exists_fits {i u v : List Char} {ps : List (Char → Bool)} (hi : i = u ++ v)
    (hv : fits ps v = true) : ∃ k, fits ps (i.drop k) = true :=
  ⟨u.length, by rwa [hi, List.drop_left]⟩

theorem isBlank_of_isNumeral {c : Char} (h : isNumeral c = true) : isBlank c = false := by
  rw [isNumeral, Bool.or_eq_true, beq_iff_eq] at h
  rcases h with h | rfl
  · exact isBlank_of_isDecimal h
  · decide

theorem isBlank_of_isExponent {c : Char} (h : isExponent c = true) : isBlank c = false := by
  simp only [isExponent, Bool.or_eq_true, beq_iff_eq] at h
  rcases h with rfl | rfl <;> decide

/-- A number with an exponent shows in the ink. -/
theorem scientific_window {t : List Char} {f : Found} (h : scientific t = some f) :
    ∃ k, fits [isNumeral, isExponent, fun c => isDecimal c || isSign c] ((ink t).drop k) =
      true := by
  obtain ⟨r, hf⟩ := scientific_eq_some h
  obtain ⟨u, a, hlast⟩ : ∃ u a, f.head = u ++ [a] := by
    rcases List.eq_nil_or_concat' f.head with hnil | hconcat
    · obtain ⟨d, hd, -⟩ := hf.digit
      rw [hnil] at hd
      cases hd
    · exact hconcat
  have ha : isNumeral a = true := by
    simpa [isNumeral] using hf.numeral a (by simp [hlast])
  -- behind the mark stands its sign or the first digit of the exponent
  obtain ⟨e, d, v, hrest, he, hd⟩ : ∃ e d v, f.mid ++ r = e :: d :: v ∧ isExponent e = true ∧
      (isDecimal d || isSign d) = true := by
    obtain ⟨e, he, hmid⟩ := hf.mark
    have hmark : isExponent e = true := by simpa [isExponent] using he
    rcases hmid with hmid | ⟨x, hx, hmid⟩
    · obtain ⟨d, hd, hdecimal⟩ := hf.exponent
      obtain ⟨v, rfl⟩ := List.head?_eq_some_iff.1 hd
      exact ⟨e, d, v, by rw [hmid]; rfl, hmark, by simp [hdecimal]⟩
    · exact ⟨e, x, r, by rw [hmid]; rfl, hmark, by simp [hx]⟩
  have hblank : isBlank d = false := by
    rcases Bool.or_eq_true_iff.1 hd with hd | hd
    · exact isBlank_of_isDecimal hd
    · exact isBlank_of_isSign hd
  have hink : ink t = ink u ++ a :: e :: d :: ink v := by
    calc ink t
        = ink (u ++ [a] ++ (e :: d :: v)) := by
          rw [← ink_skipBlanks, hf.text, List.append_assoc, hrest, hlast]
      _ = ink u ++ a :: e :: d :: ink v := by
          simp [ink_cons_of_ink, isBlank_of_isNumeral ha, isBlank_of_isExponent he, hblank]
  refine exists_fits hink ?_
  rw [fits, fits, fits, ha, he, hd]
  rfl

/-- So does a quotient of numerals. -/
theorem ratio_window {t : List Char} {f : Found} (h : ratio t = some f) :
    ∃ k, fits [isDecimal, (· == '/'), isDecimal] ((ink t).drop k) = true := by
  obtain ⟨s, r, hf⟩ := ratio_eq_some h
  obtain ⟨u, a, hlast⟩ : ∃ u a, f.head = u ++ [a] :=
    (List.eq_nil_or_concat' f.head).resolve_left hf.nonempty
  have ha : isDecimal a = true := hf.digits a (by simp [hlast])
  obtain ⟨d, hhead, hd⟩ := hf.denominator
  obtain ⟨v, hden⟩ := List.head?_eq_some_iff.1 hhead
  have hrest : ink s = '/' :: d :: ink v := by
    rw [← ink_skipBlanks, hf.slash, ink_cons_of_ink (by decide), ← ink_skipBlanks r, hden,
      ink_cons_of_ink (isBlank_of_isDecimal hd)]
  have hink : ink t = ink u ++ a :: '/' :: d :: ink v := by
    rw [← ink_skipBlanks, hf.text, ink_append, hrest, hlast, ink_append,
      ink_cons_of_ink (isBlank_of_isDecimal ha)]
    simp
  refine exists_fits hink ?_
  rw [fits, fits, fits, ha, hd]
  rfl

/-- So does a continuation mark. -/
theorem ellipsis_window {t : List Char} {f : Found} (h : ellipsis t = some f) :
    ∃ k, fits [(· == '.'), (· == '.'), (· == '.')] ((ink t).drop k) = true := by
  obtain ⟨r, hskip, -⟩ := ellipsis_eq_some h
  have hdot : ∀ u, ink ('.' :: u) = '.' :: ink u := ink_cons_of_ink (by decide)
  have hink : ink t = [] ++ '.' :: '.' :: '.' :: ink r := by
    rw [← ink_skipBlanks, hskip, hdot, hdot, hdot, List.nil_append]
  exact exists_fits hink rfl

/-- A rule whose probe needs a row of ink that a text lacks finds nothing in it. -/
theorem Lacks.cut?_eq_none {p : Char → Bool} {ps : List (Char → Bool)} {s : List Char} {r : Rule}
    (hs : Lacks (p :: ps) s)
    (hwindow : ∀ t f, r.probe t = some f → ∃ k, fits (p :: ps) ((ink t).drop k) = true) :
    r.cut? s = none := by
  refine Rule.cut?_eq_none fun t ht => ?_
  by_contra hne
  obtain ⟨f, hf⟩ := Option.ne_none_iff_exists'.1 hne
  obtain ⟨k, hk⟩ := hwindow t f hf
  obtain ⟨u, rfl⟩ := ht
  have hsuffix : ∃ m, ink t = (ink (u ++ t)).drop m :=
    ⟨(ink u).length, by rw [ink_append, List.drop_left]⟩
  rw [(hs.of_suffix hsuffix).fits_eq k] at hk
  cases hk

/-! ## Steps -/

/-- The rule for continuation marks, which is tried last. -/
def ellipsisRule : Rule := ⟨true, isInk, ellipsis, true, true⟩

namespace Placed

variable {s : List Char} {c : Cut} {k n : Nat} {l r : Bool}

theorem inkAt_left (h : Placed s c k n l r) (p : Char → Bool) (j : Nat) :
    inkAt p j c.left = (decide (j < k) && inkAt p j s) := by
  rw [inkAt, h.left_ink, List.getElem?_take, inkAt]
  by_cases hj : j < k <;> simp [hj]

theorem inkAt_right (h : Placed s c k n l r) (p : Char → Bool) (j : Nat) :
    inkAt p j c.right = inkAt p (k + n + j) s := by
  rw [inkAt, h.right_ink, List.getElem?_drop, inkAt]

theorem length_ink_left (h : Placed s c k n l r) : (ink c.left).length = k := by
  have hbound := h.bound
  rw [h.left_ink, List.length_take]
  omega

theorem length_mid (h : Placed s c k n l r) : c.mid.length = n := by
  have hbound := h.bound
  rw [h.mid, List.length_take, List.length_drop]
  omega

theorem isBlank_mid (h : Placed s c k n l r) : ∀ d ∈ c.mid, isBlank d = false := by
  intro d hd
  rw [h.mid] at hd
  have hmem := List.mem_of_mem_drop (List.mem_of_mem_take hd)
  simpa [ink] using (List.mem_filter.1 hmem).2

theorem ink_mid (h : Placed s c k n l r) : ink c.mid = c.mid :=
  List.filter_eq_self.2 fun d hd => by simp [h.isBlank_mid d hd]

section

variable (h : Placed s c k n l r) (hcut : cut? s = some c)

include h hcut

theorem length_ink_format_left (hs : Code s) : (ink (format c.left)).length = k := by
  rw [ink_format (hs.sides hcut).1, h.length_ink_left]

/-- Left of the middle the gaps are those of the left side. -/
theorem gapAt_format_left (hpos : 0 < n) (hs : Code s) {j : Nat} (hj : j ≤ k) :
    gapAt j (format s) = gapAt j (format c.left) := by
  have hlength := h.length_ink_format_left hcut hs
  have hmid : BeginsInk (c.mid ++ format c.right) := by
    obtain ⟨d, r, hcons⟩ : ∃ d r, c.mid = d :: r :=
      List.exists_cons_of_length_pos (by rw [h.length_mid]; exact hpos)
    exact ⟨d, by rw [hcons]; rfl, h.isBlank_mid d (by rw [hcons]; exact List.mem_cons_self)⟩
  rw [format_of_cut hcut, List.append_assoc]
  by_cases hlt : j < k
  · exact gapAt_append_of_lt (by omega) _
  · obtain rfl : j = (ink (format c.left)).length := by omega
    rw [gapAt_append_of_eq, gapAt_zero_of_beginsInk hmid, Bool.or_false]

/-- In the middle there is no gap. -/
theorem gapAt_format_mid (hs : Code s) {j : Nat} (hj : k < j) (hlt : j < k + n) :
    gapAt j (format s) = false := by
  have hlength := h.length_ink_format_left hcut hs
  obtain ⟨i, rfl⟩ : ∃ i, j = (ink (format c.left)).length + (i + 1) := ⟨j - k - 1, by omega⟩
  rw [hlength] at hlt
  rw [format_of_cut hcut, List.append_assoc, gapAt_append_of_gt, gapAt_append_of_lt,
    gapAt_of_ink h.isBlank_mid]
  rw [h.ink_mid, h.length_mid]
  omega

/-- Right of the middle the gaps are those of the right side. -/
theorem gapAt_format_right (hpos : 0 < n) (hs : Code s) (j : Nat) :
    gapAt (k + n + j) (format s) = gapAt j (format c.right) := by
  have hlength := h.length_ink_format_left hcut hs
  have hleft : (ink (format c.left ++ c.mid)).length = k + n := by
    rw [ink_append, List.length_append, hlength, h.ink_mid, h.length_mid]
  rw [format_of_cut hcut, ← hleft]
  cases j with
  | zero =>
      have hend : gapAt (ink (format c.left ++ c.mid)).length (format c.left ++ c.mid) = false := by
        obtain ⟨i, hi⟩ : ∃ i, (ink (format c.left ++ c.mid)).length =
            (ink (format c.left)).length + (i + 1) := ⟨n - 1, by omega⟩
        rw [hi, gapAt_append_of_gt, gapAt_of_ink h.isBlank_mid]
      rw [Nat.add_zero, gapAt_append_of_eq, hend, Bool.false_or]
  | succ j => rw [gapAt_append_of_gt]

end

end Placed

/-- No view of a list has a spot. -/
def NoSpot (vs : List View) (s : List Char) : Prop := ∀ v ∈ vs, ∀ k, v.spot k s = false

/-- A cut of a text: a view that has spots cuts at its chosen one, and the views tried before it
have none. -/
structure Step (s : List Char) (c : Cut) (v : View) (k : Nat) : Prop where
  cut : cut? s = some c
  order : ∃ before after, views = before ++ v :: after ∧ NoSpot before s
  chosen : v.Chosen s k
  cuts : v.Cuts s c k

/-- The first rule that finds something cuts as its view says. -/
theorem findSome?_sees {rs : List Rule} {vs : List View} (h : List.Forall₂ Rule.Sees rs vs)
    {s : List Char} (hs : '\n' ∉ s) :
    (rs.findSome? (fun r => r.cut? s) = none ∧ NoSpot vs s) ∨
      ∃ c v k, rs.findSome? (fun r => r.cut? s) = some c ∧
        (∃ before after, vs = before ++ v :: after ∧ NoSpot before s) ∧ v.Chosen s k ∧
        v.Cuts s c k := by
  induction h with
  | nil => exact Or.inl ⟨rfl, fun v hv => absurd hv List.not_mem_nil⟩
  | @cons r v rs vs hr _ ih =>
      rw [List.findSome?_cons]
      rcases hr s hs with ⟨hnone, hspot⟩ | ⟨c, k, hcut, hchosen, hcuts⟩
      · rw [hnone]
        have hcons : ∀ ws, NoSpot ws s → NoSpot (v :: ws) s := by
          intro ws hws w hw
          rcases List.mem_cons.1 hw with rfl | hw
          · exact hspot
          · exact hws w hw
        rcases ih with ⟨hrest, hspots⟩ | ⟨c, w, k, hrest, ⟨before, after, hvs, hbefore⟩, hcut⟩
        · exact Or.inl ⟨hrest, hcons vs hspots⟩
        · exact Or.inr
            ⟨c, w, k, hrest, ⟨v :: before, after, by rw [hvs]; rfl, hcons before hbefore⟩, hcut⟩
      · rw [hcut]
        exact Or.inr ⟨c, v, k, rfl, ⟨[], vs, rfl, fun w hw => absurd hw List.not_mem_nil⟩, hchosen,
          hcuts⟩

theorem quiet_of_blank {s : List Char} (hs : s.all isBlank = true) : Quiet s where
  loud := fun c hc hmem => by
    have hblank := List.all_eq_true.1 hs c hmem
    rw [isBlank_of_mem_loudChars hc] at hblank
    cases hblank
  dots := fun hdots => by
    have hblank := List.all_eq_true.1 hs '.' (hdots.subset List.mem_cons_self)
    exact absurd hblank (by decide)

/-- Without numbers in several parts, the rules for symbols are tried and then the one for
continuation marks. -/
theorem findSome?_inkRules {s : List Char}
    (hexponent : Lacks [isNumeral, isExponent, fun c => isDecimal c || isSign c] s)
    (hquotient : Lacks [isDecimal, (· == '/'), isDecimal] s) :
    (inkRules.findSome? fun r => r.cut? s) =
      (((inkRules.drop 2).take 13).findSome? fun r => r.cut? s).or (ellipsisRule.cut? s) := by
  have hrules : inkRules = [⟨true, isBreak, scientific, false, false⟩,
      ⟨true, isBreak, ratio, false, false⟩] ++ (inkRules.drop 2).take 13 ++ [ellipsisRule] := rfl
  have hfirst :
      List.findSome? (fun r : Rule => r.cut? s)
        [⟨true, isBreak, scientific, false, false⟩, ⟨true, isBreak, ratio, false, false⟩] =
          none := by
    rw [List.findSome?_cons, hexponent.cut?_eq_none fun _ _ => scientific_window,
      List.findSome?_cons, hquotient.cut?_eq_none fun _ _ => ratio_window]
    rfl
  have hlast : List.findSome? (fun r : Rule => r.cut? s) [ellipsisRule] = ellipsisRule.cut? s := by
    rw [List.findSome?_cons, List.findSome?_nil]
    cases ellipsisRule.cut? s <;> rfl
  conv_lhs => rw [hrules, List.findSome?_append, List.findSome?_append, hfirst, hlast]
  rw [Option.none_or]

theorem Clear.findSome?_eq {s : List Char} (hs : Clear s) :
    (inkRules.findSome? fun r => r.cut? s) =
      ((inkRules.drop 2).take 13).findSome? fun r => r.cut? s := by
  have hlast : ellipsisRule.cut? s = none := hs.dots.cut?_eq_none fun _ _ => ellipsis_window
  rw [findSome?_inkRules hs.exponent hs.quotient, hlast, Option.or_none]

theorem size_pos {v : View} (hv : v ∈ views) : 0 < v.size := by
  have hall : ∀ v ∈ views, decide (0 < v.size) = true := List.all_eq_true.1 (by decide)
  exact of_decide_eq_true (hall v hv)

/-- **Clear code is quiet or cut as a view says.** -/
theorem Clear.cases {s : List Char} (hs : Clear s) :
    (Quiet s ∧ NoSpot views s) ∨ ∃ c v k, Step s c v k := by
  have hrules := hs.findSome?_eq
  rcases findSome?_sees inkRules_sees hs.code.newline_not_mem with
    ⟨hnone, hspots⟩ | ⟨c, v, k, hcut, horder, hchosen, hcuts⟩
  · refine Or.inl ⟨?_, hspots⟩
    by_cases hblank : s.all isBlank = true
    · exact quiet_of_blank hblank
    · exact quiet_of_inkRules hs.code (hrules.trans hnone)
  · refine Or.inr ⟨c, v, k, ?_, horder, hchosen, hcuts⟩
    have hink : s.all isBlank = false := by
      obtain ⟨before, after, hviews, -⟩ := horder
      have hpos : 0 < v.size := size_pos (by rw [hviews]; simp)
      have hbound := hcuts.bound
      rw [Bool.eq_false_iff, ne_eq, ← ink_eq_nil_iff]
      intro hnil
      rw [hnil, List.length_nil] at hbound
      omega
    rw [hs.code.cut?_eq hink, hrules, hcut]
    rfl

namespace Step

variable {s : List Char} {c : Cut} {v : View} {k : Nat}

theorem mem (h : Step s c v k) : v ∈ views := by
  obtain ⟨before, after, hviews, -⟩ := h.order
  rw [hviews]
  simp

theorem size_pos (h : Step s c v k) : 0 < v.size := Spacing.size_pos h.mem

theorem bound (h : Step s c v k) : k + v.size ≤ (ink s).length := h.cuts.bound

/-- The view of a cut, with what is known of the views tried before it. -/
theorem view_cases (h : Step s c v k) :
    v = incrementView ∨
    (∀ m, incrementView.spot m s = false) ∧
      (v = signView ∨
      (∀ m, unaryAt m s = false) ∧
        (v = powerView ∧ (∀ m, dotPowerView.spot m s = false) ∨
          v = operatorView ∧ (∀ m, pairView.spot m s = false ∧ negationView.spot m s = false) ∨
          v ∈ [colonView, dotEqualsView, dotPowerView, pairView, negationView, callView,
            openingView, closingView, separatorView])) := by
  obtain ⟨before, after, hviews, hspots⟩ := h.order
  have hv : views[before.length]? = some v := by rw [hviews]; simp
  have hnone : ∀ j w, views[j]? = some w → j < before.length → ∀ m, w.spot m s = false := by
    intro j w hw hj
    rw [hviews, List.getElem?_append_left hj] at hw
    exact hspots w (List.mem_of_getElem? hw)
  have hincrement := hnone 0 incrementView rfl
  have hunary := hnone 1 signView rfl
  have hpower := hnone 4 dotPowerView rfl
  have hpair := hnone 6 pairView rfl
  have hnegation := hnone 7 negationView rfl
  have hlt : before.length < 13 := (List.getElem?_eq_some_iff.1 hv).1
  generalize before.length = i at hv hincrement hunary hpower hpair hnegation hlt
  by_cases hfirst : i = 0
  · subst hfirst
    exact Or.inl (Option.some.inj hv).symm
  refine Or.inr ⟨hincrement (by omega), ?_⟩
  by_cases hsecond : i = 1
  · subst hsecond
    exact Or.inl (Option.some.inj hv).symm
  refine Or.inr ⟨hunary (by omega), ?_⟩
  -- two of the others come behind one that would take the same ink
  by_cases hfifth : i = 5
  · subst hfifth
    exact Or.inl ⟨(Option.some.inj hv).symm, hpower (by decide)⟩
  refine Or.inr ?_
  by_cases heighth : i = 8
  · subst heighth
    exact Or.inl ⟨(Option.some.inj hv).symm, fun m =>
      ⟨hpair (by decide) m, hnegation (by decide) m⟩⟩
  refine Or.inr ?_
  obtain rfl | rfl | rfl | rfl | rfl | rfl | rfl | rfl | rfl : i = 2 ∨ i = 3 ∨ i = 4 ∨ i = 6 ∨
      i = 7 ∨ i = 9 ∨ i = 10 ∨ i = 11 ∨ i = 12 := by omega
  all_goals
    obtain rfl := Option.some.inj hv
    simp

/-! ### The sides of a cut -/

theorem inkAt_left (h : Step s c v k) (p : Char → Bool) (j : Nat) :
    inkAt p j c.left = (decide (j < k) && inkAt p j s) :=
  Placed.inkAt_left h.cuts p j

theorem inkAt_right (h : Step s c v k) (p : Char → Bool) (j : Nat) :
    inkAt p j c.right = inkAt p (k + v.size + j) s :=
  Placed.inkAt_right h.cuts p j

theorem clear_left (h : Step s c v k) (hs : Clear s) : Clear c.left where
  code := (hs.code.sides h.cut).1
  exponent := hs.exponent.of_take h.cuts.left_ink
  quotient := hs.quotient.of_take h.cuts.left_ink
  dots := hs.dots.of_take h.cuts.left_ink

theorem clear_right (h : Step s c v k) (hs : Clear s) : Clear c.right where
  code := (hs.code.sides h.cut).2
  exponent := hs.exponent.of_suffix ⟨_, h.cuts.right_ink⟩
  quotient := hs.quotient.of_suffix ⟨_, h.cuts.right_ink⟩
  dots := hs.dots.of_suffix ⟨_, h.cuts.right_ink⟩

theorem unaryAt_left (h : Step s c v k) (j : Nat) :
    unaryAt j c.left = (decide (j + 1 < k) && unaryAt j s) := by
  by_cases hj : j + 1 < k
  · have hgaps : gapAt j c.left = gapAt j s ∧ gapAt (j + 1) c.left = gapAt (j + 1) s :=
      ⟨h.cuts.left_gap j (by omega), h.cuts.left_gap (j + 1) hj⟩
    have hlt : j < k ∧ j - 1 < k := by omega
    simp only [unaryAt, h.inkAt_left, hgaps, hj, hlt, decide_true, Bool.true_and]
  · simp [unaryAt, h.inkAt_left, hj]

theorem unaryAt_right (h : Step s c v k) (j : Nat) :
    unaryAt (j + 1) c.right = unaryAt (k + v.size + (j + 1)) s := by
  simp only [unaryAt, h.inkAt_right, h.cuts.right_gap, Nat.succ_pos, decide_true, Bool.true_and,
    Nat.add_sub_cancel, ← Nat.add_assoc]

/-! ### The gaps of the result -/

theorem length_ink_left (h : Step s c v k) : (ink c.left).length = k :=
  Placed.length_ink_left h.cuts

/-- Left of the middle the gaps are those of the left side. -/
theorem gapAt_format_left (h : Step s c v k) (hs : Code s) {j : Nat} (hj : j ≤ k) :
    gapAt j (format s) = gapAt j (format c.left) :=
  Placed.gapAt_format_left h.cuts h.cut h.size_pos hs hj

/-- In the middle there is no gap. -/
theorem gapAt_format_mid (h : Step s c v k) (hs : Code s) {j : Nat} (hj : k < j)
    (hlt : j < k + v.size) : gapAt j (format s) = false :=
  Placed.gapAt_format_mid h.cuts h.cut hs hj hlt

/-- Right of the middle the gaps are those of the right side. -/
theorem gapAt_format_right (h : Step s c v k) (hs : Code s) (j : Nat) :
    gapAt (k + v.size + j) (format s) = gapAt j (format c.right) :=
  Placed.gapAt_format_right h.cuts h.cut h.size_pos hs j

end Step

/-! ## Quiet code -/

theorem gapAt_append_blanks {a g b : List Char} (hg : g.all isBlank = true) (hne : g ≠ [])
    (k : Nat) :
    gapAt k (a ++ (g ++ b)) =
      if k < (ink a).length then gapAt k a
      else if k = (ink a).length then true else gapAt (k - (ink a).length) b := by
  by_cases hlt : k < (ink a).length
  · rw [if_pos hlt, gapAt_append_of_lt hlt]
  · rw [if_neg hlt]
    by_cases heq : k = (ink a).length
    · have hfirst : gapAt 0 (g ++ b) = true := by
        obtain ⟨d, r, rfl⟩ := List.exists_cons_of_ne_nil hne
        simp at hg
        simp [gapAt, hg.1]
      rw [if_pos heq, heq, gapAt_append_of_eq, hfirst, Bool.or_true]
    · obtain ⟨j, rfl⟩ : ∃ j, k = (ink a).length + (j + 1) := ⟨k - (ink a).length - 1, by omega⟩
      rw [if_neg heq, gapAt_append_of_gt, Nat.add_sub_cancel_left, gapAt, past_blank_append hg,
        gapAt]

/-- Blank texts that are not empty have their gaps in the same places, namely the first. -/
theorem gapAt_of_blank {g g' : List Char} (hg : g.all isBlank = true) (hne : g ≠ [])
    (hg' : g'.all isBlank = true) (hne' : g' ≠ []) (k : Nat) : gapAt k g = gapAt k g' := by
  cases k with
  | zero =>
      rw [gapAt_zero_of_blank hg, gapAt_zero_of_blank hg', List.isEmpty_eq_false_iff.2 hne,
        List.isEmpty_eq_false_iff.2 hne']
  | succ k =>
      have hnil : ∀ {t : List Char}, t.all isBlank = true → (ink t).length < k + 1 := by
        intro t ht
        rw [(ink_eq_nil_iff t).2 ht]
        exact Nat.succ_pos k
      rw [gapAt_of_gt (hnil hg), gapAt_of_gt (hnil hg')]

/-- Quiet code keeps its gaps: only runs of blanks are cut. -/
theorem Quiet.gapAt_format {s : List Char} (hcode : Code s)
    (hexponent : Lacks [isNumeral, isExponent, fun c => isDecimal c || isSign c] s) (hs : Quiet s)
    (k : Nat) : gapAt k (format s) = gapAt k s := by
  induction s using Cutter.tree.induct spacing generalizing k with
  | case1 s huncut => rw [format_of_uncut huncut]
  | case2 s c hcut _ ihleft ihright =>
      obtain ⟨hleft, hright⟩ := hcode.sides hcut
      rw [format_of_cut hcut]
      by_cases hblank : s.all isBlank = true
      · have hne : s ≠ [] := by
          rintro rfl
          cases hcut
        rw [cut?_of_blank hblank hcut, format_nil, List.append_nil, List.nil_append]
        exact gapAt_of_blank (by decide) (by decide) hblank hne k
      · have hink : s.all isBlank = false := by simpa using hblank
        rcases hs.cut?_cases hcode hink hcut with hnumber | hrun
        · rw [exponentRule, hexponent.cut?_eq_none fun _ _ => scientific_window] at hnumber
          cases hnumber
        · obtain ⟨g, hparts, hg, hne, hmid, -, -⟩ := blankRunRule_cut? hcode.newline_not_mem hrun
          -- both sides are quiet again, and the run between them stays a gap
          have hgapink : ink g = [] := (ink_eq_nil_iff g).2 hg
          have hinkparts : ink s = ink c.left ++ ink c.right := by
            conv_lhs => rw [hparts]
            rw [ink_append, ink_append, hgapink, List.nil_append]
          have hlacks : Lacks [isNumeral, isExponent, fun c => isDecimal c || isSign c] c.left ∧
              Lacks [isNumeral, isExponent, fun c => isDecimal c || isSign c] c.right :=
            ⟨hexponent.of_take (k := (ink c.left).length) (by rw [hinkparts, List.take_left]),
              hexponent.of_suffix ⟨(ink c.left).length, by rw [hinkparts, List.drop_left]⟩⟩
          have hquiet : Quiet c.left ∧ Quiet c.right :=
            ⟨hs.of_infix ⟨[], g ++ c.right, by rw [hparts]; simp⟩,
              hs.of_infix ⟨c.left ++ g, [], by rw [hparts]; simp⟩⟩
          rw [hmid, List.append_assoc, gapAt_append_blanks (by decide) (by decide),
            ink_format hleft, ihleft hleft hlacks.1 hquiet.1, ihright hright hlacks.2 hquiet.2]
          conv_rhs => rw [hparts, gapAt_append_blanks hg hne]

/-- What holds of quiet code and is handed on from the sides of a cut holds of clear code. -/
theorem Clear.induction {P : List Char → Prop}
    (hquiet : ∀ s, Clear s → Quiet s → NoSpot views s → P s)
    (hstep : ∀ s c v k, Clear s → Step s c v k → P c.left → P c.right → P s) {s : List Char}
    (hs : Clear s) : P s := by
  induction hn : (ink s).length using Nat.strong_induction_on generalizing s with
  | _ n ih =>
      rcases hs.cases with ⟨hq, hspots⟩ | ⟨c, v, k, h⟩
      · exact hquiet s hs hq hspots
      · -- the middle has ink, so that the sides have less of it
        have hpos := h.size_pos
        have hbound := h.bound
        have hright : (ink c.right).length = (ink s).length - (k + v.size) := by
          rw [h.cuts.right_ink, List.length_drop]
        refine hstep s c v k hs h (ih _ ?_ (h.clear_left hs) rfl) (ih _ ?_ (h.clear_right hs) rfl)
        · rw [h.length_ink_left]
          omega
        · omega

end Pcode.Spacing
