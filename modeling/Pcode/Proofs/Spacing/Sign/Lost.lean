import Pcode.Proofs.Spacing.Sign.Tree

set_option autoImplicit false

/-! # Signs that are set apart

A sign that is neither before a word nor before what closes an element is an operator to the rules,
and operators get a blank on both sides. For a symbol after the sign this is computed, in a row with
the symbol twice, as one alone may form an operator together with the sign. For the other characters
it follows from what the rules do not find: the only cut of the row is at the sign
(`row_cut?`), and the blank that it puts in front of such a character stays (`format_blank`).

Main statement: in every row of code without quotes a sign that has a blank in front of it stays
with the character after it if that is of a word or closes the element, and for every other
character there is a row in which it does not (`format_keeps_sign_iff`). -/

namespace Pcode.Spacing

open Pcode.Text

/-! ## Side by side or apart -/

/-- Where two characters are side by side there is no gap. -/
theorem Joined.not_gap {p q s : List Char} {x y : Char} (hx : isBlank x = false)
    (hy : isBlank y = false) (h : Joined p x y q s) : ¬Gap (p ++ [x]) (y :: q) s := by
  rintro ⟨u, c, v, hsplit, hc, hu, -⟩
  obtain ⟨a, b, rfl, rfl, rfl⟩ := h
  have hcx : c ≠ x := by
    rintro rfl
    rw [hc] at hx
    cases hx
  have hcy : c ≠ y := by
    rintro rfl
    rw [hc] at hy
    cases hy
  rcases List.append_eq_append_iff.1 hsplit with ⟨w, rfl, hw⟩ | ⟨w, rfl, hw⟩
  · -- neither of the two is the blank, and right of them it is too late
    cases w with
    | nil => exact hcx (List.cons.inj hw).1.symm
    | cons x' w =>
        obtain ⟨hx', hw⟩ := List.cons.inj hw
        cases w with
        | nil => exact hcy (List.cons.inj hw).1.symm
        | cons y' w =>
            obtain ⟨hy', -⟩ := List.cons.inj hw
            rw [← hx', ← hy', ink_append, ink_cons_of_ink hx, ink_cons_of_ink hy] at hu
            simp at hu
  · rw [ink_append, List.append_assoc] at hu
    have hnil := List.self_eq_append_right.1 hu
    simp at hnil

/-! ## Symbols -/

/-- In a row such as `[ -..]` a sign is set apart from the symbol after it. -/
theorem take_format_symbols {x y : Char} (hx : isSign x = true) (hy : y ∈ innerChars)
    (hsign : isSign y = false) : (format ['[', ' ', x, y, y, ']']).take 3 = ['[', x, ' '] := by
  have hall : (['+', '-'].all fun x => innerChars.all fun y => isSign y ||
      (formatWithin 9 ['[', ' ', x, y, y, ']']).map (List.take 3) == some ['[', x, ' ']) =
        true := by
    decide +kernel
  have hmem : x ∈ ['+', '-'] := by simpa [isSign] using hx
  have hrow := List.all_eq_true.1 (List.all_eq_true.1 hall x hmem) y hy
  rw [hsign, Bool.false_or, beq_iff_eq] at hrow
  obtain ⟨t, ht, htake⟩ := Option.map_eq_some_iff.1 hrow
  rw [format_of_formatWithin ht, htake]

/-! ## Other characters -/

theorem ne_of_isSign {x c : Char} (hx : isSign x = true) (hc : isSign c = false) : x ≠ c := by
  rintro rfl
  rw [hx] at hc
  cases hc

/-- A text without the marks of numbers that are cut, an exponent mark or a slash. -/
def NoNumber (s : List Char) : Prop := ∀ c ∈ ['e', 'E', '/'], c ∉ s

theorem NoNumber.of_subset {s t : List Char} (hs : NoNumber s) (h : ∀ c ∈ t, c ∈ s ∨ c = ' ') :
    NoNumber t := by
  intro c hc hmem
  rcases h c hmem with hmem | rfl
  · exact hs c hc hmem
  · exact absurd hc (by decide)

theorem exponentMark?_eq_none {s : List Char} (hs : NoNumber s) : exponentMark? s = none := by
  rw [exponentMark?.eq_def]
  split
  · next c d r =>
      have he : c ≠ 'e' := by
        rintro rfl
        exact hs 'e' (by simp) List.mem_cons_self
      have hE : c ≠ 'E' := by
        rintro rfl
        exact hs 'E' (by simp) List.mem_cons_self
      simp [he, hE]
  · rfl

theorem scientific_eq_none {s : List Char} (hs : NoNumber s) : scientific s = none := by
  have hrest : NoNumber (fraction ((skipBlanks s).dropWhile isDecimal)).2 := by
    refine hs.of_subset fun c hc => Or.inl ?_
    refine (skipBlanks_sublist s).mem ((List.dropWhile_sublist isDecimal).mem ?_)
    rw [← fraction_append ((skipBlanks s).dropWhile isDecimal)]
    exact List.mem_append_right _ hc
  simp [scientific, exponentMark?_eq_none hrest]

theorem ratio_eq_none {s : List Char} (hs : NoNumber s) : ratio s = none := by
  simp only [ratio]
  split
  · rfl
  · split
    · next r hr =>
        have hmem : '/' ∈ s := by
          refine (skipBlanks_sublist s).mem ((List.dropWhile_sublist isDecimal).mem ?_)
          refine (skipBlanks_sublist _).mem ?_
          rw [hr]
          exact List.mem_cons_self
        exact absurd hmem (hs '/' (by simp))
    · rfl

section Other

variable {x y : Char} (hy : y ∉ symbolChars) (hblank : isBlank y = false)

include hy in
theorem inkRules_other {t : List Char} (ht : NoNumber t) (hhead : (ink t).head? = some y) :
    ∀ r ∈ inkRules, r.probe t = none := by
  intro r hr
  rcases inkRules_cases r hr with hsymbolic | ⟨hnumber | hnumber, -⟩
  · cases hfound : r.probe t with
    | none => rfl
    | some f =>
        obtain ⟨c, hc, hsymbol⟩ := hsymbolic.starts t f hfound
        rw [hhead] at hc
        obtain rfl : y = c := Option.some.inj hc
        exact absurd hsymbol hy
  · rw [hnumber]
    exact scientific_eq_none ht
  · rw [hnumber]
    exact ratio_eq_none ht

theorem Rule.cut?_other {r : Rule} {g : Char} {b : List Char} {c : Cut}
    (hfirst : r.probe (g :: y :: b) = none) (hsecond : r.probe (y :: b) = none)
    (h : r.cut? (g :: y :: b) = some c) : ∃ l, c.left = g :: y :: l := by
  obtain ⟨lead, t, f, -, hsplit, ht, rfl⟩ := Rule.cut?_eq_some h
  cases lead with
  | nil =>
      rw [List.nil_append] at hsplit
      rw [← hsplit, hfirst] at ht
      cases ht
  | cons d lead =>
      obtain ⟨rfl, hrest⟩ := List.cons.inj hsplit
      cases lead with
      | nil =>
          obtain rfl : y :: b = t := hrest
          rw [hsecond] at ht
          cases ht
      | cons d' lead =>
          obtain ⟨rfl, -⟩ := List.cons.inj hrest
          exact ⟨_, rfl⟩

include hy hblank in
/-- A blank at the start stays if what follows it is no symbol. -/
theorem format_blank {g : Char} (hg : isBlank g = true) {s : List Char} (hs : Code s)
    (hnumber : NoNumber s) (hstart : ∃ b, s = g :: y :: b) : ∃ t, format s = g :: t := by
  induction s using Cutter.tree.induct spacing with
  | case1 s huncut =>
      obtain ⟨b, rfl⟩ := hstart
      exact ⟨_, format_of_uncut huncut⟩
  | case2 s c hcut _ ihleft _ =>
      obtain ⟨b, rfl⟩ := hstart
      have hhead : (ink (y :: b)).head? = some y := by rw [ink_cons_of_ink hblank]; rfl
      have htail : NoNumber (y :: b) := hnumber.of_subset fun d hd => by simp_all
      have hleft : ∃ l, c.left = g :: y :: l := by
        rcases hs.cut?_cases (by simp [hblank]) hcut with ⟨r, hr, hrule⟩ | hrun
        · refine Rule.cut?_other ?_ ?_ hrule
          · exact inkRules_other hy hnumber (by rw [ink_cons_of_isBlank hg, hhead]) r hr
          · exact inkRules_other hy htail hhead r hr
        · refine Rule.cut?_other ?_ ?_ hrun
          · simp [blankRunRule, blankRun, hg, hblank]
          · simp [blankRunRule, blankRun, hblank]
      have hrespaced := cut?_respaces hs.newline_not_mem hcut
      obtain ⟨t, ht⟩ := ihleft (hs.sides hcut).1
        (hnumber.of_subset fun d hd => hrespaced.mem d (by simp [hd])) hleft
      exact ⟨_, by rw [format_of_cut hcut, ht]; rfl⟩

variable (hx : isSign x = true) (hword : isWord y = false)

include hy in
theorem class_other {p : Char → Bool} (hp : ∀ c, p c = true → c ∈ symbolChars) : p y = false := by
  by_contra hclass
  exact hy (hp y (by simpa using hclass))

include hx hblank in
/-- In a row such as `[ -@]` symbols begin with the sign. -/
theorem row_symbols? {p : Char → Bool} (ps : List (Char → Bool)) (hopen : p '[' = false)
    (hother : p y = false) (hclose : p ']' = false) {t : List Char}
    (ht : t <:+ ['[', ' ', x, y, ']']) :
    symbols? (p :: ps) t = none ∨ p x = true ∧
      symbols? (p :: ps) t = (symbols? ps [y, ']']).map fun q => (x :: q.1, q.2) := by
  have hspace : isBlank ' ' = true := by decide
  have hopening : isBlank '[' = false := by decide
  have hclosing : isBlank ']' = false := by decide
  have hxblank := isBlank_of_isSign hx
  simp only [List.suffix_cons_iff, List.suffix_nil] at ht
  rcases ht with rfl | rfl | rfl | rfl | rfl | rfl
  · simp [symbols?, skipBlanks, hopening, hopen]
  · by_cases hpx : p x = true
    · simp [symbols?, skipBlanks, hspace, hxblank, hpx]
    · simp [symbols?, skipBlanks, hspace, hxblank, hpx]
  · by_cases hpx : p x = true
    · simp [symbols?, skipBlanks, hxblank, hpx]
    · simp [symbols?, skipBlanks, hxblank, hpx]
  · simp [symbols?, skipBlanks, hblank, hother]
  · simp [symbols?, skipBlanks, hclosing, hclose]
  · simp [symbols?, skipBlanks]

include hx hy hblank in
theorem Probe.TakesSymbols.row_eq_none {r : Probe} {p : Char → Bool} {ps : List (Char → Bool)}
    (h : r.TakesSymbols (p :: ps)) (hp : ∀ c, p c = true → c ∈ symbolChars) (hopen : p '[' = false)
    (hclose : p ']' = false) (hnext : p x = false ∨ symbols? ps [y, ']'] = none) {t : List Char}
    (ht : t <:+ ['[', ' ', x, y, ']']) : r t = none := by
  have hnone : symbols? (p :: ps) t = none := by
    rcases row_symbols? hblank hx ps hopen (class_other hy hp) hclose ht with hnone | ⟨hpx, hrest⟩
    · exact hnone
    · rcases hnext with hpx' | hnext
      · rw [hpx] at hpx'
        cases hpx'
      · rw [hrest, hnext]
        rfl
  cases hfound : r t with
  | none => rfl
  | some f =>
      obtain ⟨u, hu, -⟩ := h t f hfound
      cases hnone.symm.trans hu

include hx hy hword in
theorem noNumber_row : NoNumber ['[', ' ', x, y, ']'] := by
  intro c hc
  have hcy : c ≠ y := by
    rintro rfl
    rw [List.mem_cons, List.mem_cons, List.mem_singleton] at hc
    rcases hc with rfl | rfl | rfl
    · exact absurd hword (by decide)
    · exact absurd hword (by decide)
    · exact hy (by decide)
  have hall : ∀ c ∈ ['e', 'E', '/'], (!isSign c && !List.contains ['[', ' ', ']'] c) = true :=
    List.all_eq_true.1 (by decide)
  have hfixed := hall c hc
  rw [Bool.and_eq_true, Bool.not_eq_true', Bool.not_eq_true'] at hfixed
  have hcx : c ≠ x := (ne_of_isSign hx hfixed.1).symm
  simp_all

include hx hy hblank hword in
/-- The rules before that for operators find nothing in such a row. -/
theorem row_cut?_eq_none : ∀ r ∈ inkRules.take 10, r.cut? ['[', ' ', x, y, ']'] = none := by
  intro r hr
  apply Rule.cut?_eq_none
  intro t ht
  have hnumber : NoNumber t := (noNumber_row hy hx hword).of_subset fun c hc => Or.inl (ht.mem hc)
  have hsigns : ∀ c, isSign c = true → c ∈ symbolChars := fun _ => mem_symbolChars_of_isSign
  have hheads : ∀ c, isPairHead c = true → c ∈ symbolChars := by
    simp [isPairHead, symbolChars, or_imp, forall_and]
  have htails : ∀ c, isPairTail c = true → c ∈ symbolChars := by
    simp [isPairTail, symbolChars, or_imp, forall_and]
  -- the sign is not one of the symbols that stand alone
  have hne : ∀ c, isSign c = false → (x == c) = false := fun c hc =>
    beq_eq_false_iff_ne.2 (ne_of_isSign hx hc)
  have hsecond : ∀ {p : Char → Bool} {ps : List (Char → Bool)},
      (∀ c, p c = true → c ∈ symbolChars) → symbols? (p :: ps) [y, ']'] = none := by
    intro p ps hp
    simp [symbols?, skipBlanks, hblank, class_other hy hp]
  simp only [inkRules, List.take_succ_cons, List.take_zero, List.mem_cons, List.not_mem_nil,
    or_false] at hr
  rcases hr with rfl | rfl | rfl | rfl | rfl | rfl | rfl | rfl | rfl | rfl
  · exact scientific_eq_none hnumber
  · exact ratio_eq_none hnumber
  · exact increment_takesSymbols.row_eq_none hy hblank hx hsigns rfl rfl
      (Or.inr (hsecond hsigns)) ht
  · show unarySign t = none
    rcases row_symbols? hblank hx [] rfl (class_other hy hsigns) rfl ht with hnone | ⟨-, hsome⟩
    · simp only [unarySign, hnone]
    · have hfound : symbols? [isSign] t = some ([x], [y, ']']) := hsome
      simp [unarySign, hfound, hword]
  · exact (operator_takesSymbols _).row_eq_none hy hblank hx (by simp [symbolChars]) rfl rfl
      (Or.inl (hne ':' rfl)) ht
  · exact (operator_takesSymbols _).row_eq_none hy hblank hx (by simp [symbolChars]) rfl rfl
      (Or.inl (hne '.' rfl)) ht
  · exact (operator_takesSymbols _).row_eq_none hy hblank hx (by simp [symbolChars]) rfl rfl
      (Or.inl (hne '.' rfl)) ht
  · exact (operator_takesSymbols _).row_eq_none hy hblank hx (by simp [symbolChars]) rfl rfl
      (Or.inl (hne '^' rfl)) ht
  · exact (operator_takesSymbols _).row_eq_none hy hblank hx hheads rfl rfl
      (Or.inr (hsecond htails)) ht
  · refine (operator_takesSymbols _).row_eq_none hy hblank hx
      (by simp [symbolChars, or_imp, forall_and]) rfl rfl (Or.inl ?_) ht
    rw [hne '!' rfl, hne '~' rfl]
    rfl

include hx hy hblank in
/-- The rule for operators cuts out the sign. -/
theorem row_operator_cut? :
    Rule.cut? ⟨true, isInk, operator [isOperator], true, true⟩ ['[', ' ', x, y, ']'] =
      some ⟨['[', ' '], [x], [' ', y, ']'], false⟩ := by
  have hoperator := isOperator_of_isSign hx
  have hother : isOperator y = false := by
    apply class_other hy
    simp [isOperator, symbolChars, or_imp, forall_and]
  have hempty : operator [isOperator] ['[', ' ', x, y, ']'] = none := by
    simp [operator, symbols?, skipBlanks, isOperator, isBlank]
  have hfound : operator [isOperator] [' ', x, y, ']'] = some ⟨[], [x], [y, ']']⟩ := by
    have hline : '\n' ∉ [y, ']'] := by simp [newline_ne hblank]
    have hbegins : skipBlanks [y, ']'] = [y, ']'] := BeginsInk.skipBlanks_eq ⟨y, rfl, hblank⟩
    have hsymbols := symbols?_of_blanks (g := [' ']) (w := [y, ']']) rfl (isBlank_of_isSign hx)
      hoperator
    change symbols? [isOperator] [' ', x, y, ']'] = _ at hsymbols
    rw [operator, hsymbols, Option.map_some, remainder_eq hline, hbegins]
  -- behind the sign nothing more is found, so the lead that ends before it is the longest
  have hrest : ∀ t, t <:+ [y, ']'] → operator [isOperator] t = none := by
    intro t ht
    simp only [List.suffix_cons_iff, List.suffix_nil] at ht
    rcases ht with rfl | rfl | rfl
    · simp [operator, symbols?, skipBlanks, hblank, hother]
    · decide
    · rfl
  have hnone : lastSplit isInk (operator [isOperator]) [' ', x, y, ']'] = none := by
    rw [lastSplit, lastSplit_eq_none hrest]
    rfl
  have hlast : lastSplit isInk (operator [isOperator]) ['[', ' ', x, y, ']'] =
      some (['['], ⟨[], [x], [y, ']']⟩) :=
    lastSplit_of_end (v := []) (by simp) rfl hfound hnone
  rw [Rule.cut?, Rule.split?]
  simp only [if_true, hempty, hlast]
  rfl

include hx hy hblank hword in
theorem row_cut? (hcode : Code ['[', ' ', x, y, ']']) :
    cut? ['[', ' ', x, y, ']'] = some ⟨['[', ' '], [x], [' ', y, ']'], false⟩ := by
  have hfirst : ((inkRules.take 10).findSome? fun r => r.cut? ['[', ' ', x, y, ']']) = none :=
    List.findSome?_eq_none_iff.2 (row_cut?_eq_none hy hblank hx hword)
  have hrules : inkRules = inkRules.take 10 ++
    ⟨true, isInk, operator [isOperator], true, true⟩ :: inkRules.drop 11 := rfl
  rw [hcode.cut?_eq (by simp [hblank]), hrules, List.findSome?_append, hfirst, Option.none_or,
    List.findSome?_cons, row_operator_cut? hy hblank hx]
  rfl

include hx hy hblank hword in
/-- In such a row the sign is set apart. -/
theorem take_format_other (hcode : Code ['[', ' ', x, y, ']']) :
    (format ['[', ' ', x, y, ']']).take 3 = ['[', x, ' '] := by
  have hcut := row_cut? hy hblank hx hword hcode
  have hleft : format ['[', ' '] = ['['] := format_of_formatWithin (n := 3) (by decide +kernel)
  have hright : ∃ t, format [' ', y, ']'] = ' ' :: t := by
    refine format_blank hy hblank rfl (hcode.sides hcut).2 ?_ ⟨[']'], rfl⟩
    refine (noNumber_row hy hx hword).of_subset fun c hc => Or.inl ?_
    exact List.mem_cons_of_mem _ ((List.sublist_cons_self x [y, ']']).cons_cons ' ' |>.mem hc)
  obtain ⟨t, ht⟩ := hright
  rw [format_of_cut hcut, hleft, ht]
  rfl

end Other

/-! ## All characters -/

theorem mem_innerChars {y : Char} (hy : y ∈ symbolChars) (hcloser : isCloser y = false)
    (hcomment : y ≠ '%') : y ∈ innerChars := by
  have hall : ∀ c ∈ symbolChars, (isCloser c || c == '%' || innerChars.contains c) = true :=
    List.all_eq_true.1 (by decide)
  simpa [hcloser, hcomment] using hall y hy

theorem code_row {x y : Char} (hx : isSign x = true) (hblank : isBlank y = false)
    (hcode : y ∉ ['\'', '"', '%']) {b : List Char} (hb : ∀ c ∈ b, c = y) :
    Code ('[' :: ' ' :: x :: y :: (b ++ [']'])) := by
  intro c hc
  have hcy : c ≠ y := by
    rintro rfl
    have hline := newline_ne hblank
    simp_all
  have hcb : c ∉ b := fun hmem => hcy (hb c hmem)
  have hall : ∀ c ∈ ['\'', '"', '%', '\n'],
      (!isSign c && !List.contains ['[', ' ', ']'] c) = true := List.all_eq_true.1 (by decide)
  have hfixed := hall c hc
  rw [Bool.and_eq_true, Bool.not_eq_true', Bool.not_eq_true'] at hfixed
  have hcx : c ≠ x := (ne_of_isSign hx hfixed.1).symm
  simp_all

/-- For a character that is not of a word and closes nothing there is a row in which a sign is set
apart from it. -/
theorem exists_set_apart {x y : Char} (hx : isSign x = true) (hblank : isBlank y = false)
    (hsign : isSign y = false) (hcode : y ∉ ['\'', '"', '%']) (hword : isWord y = false)
    (hcloser : isCloser y = false) :
    ∃ b, Code ('[' :: ' ' :: x :: y :: (b ++ [']'])) ∧
      (format ('[' :: ' ' :: x :: y :: (b ++ [']']))).take 3 = ['[', x, ' '] := by
  by_cases hy : y ∈ symbolChars
  · refine ⟨[y], code_row hx hblank hcode (by simp), ?_⟩
    refine take_format_symbols hx (mem_innerChars hy hcloser ?_) hsign
    rintro rfl
    exact hcode (by simp)
  · have hrow : Code ['[', ' ', x, y, ']'] := code_row (b := []) hx hblank hcode (by simp)
    exact ⟨[], hrow, take_format_other hy hblank hx hword hrow⟩

/-- The gap after the sign, as the third character. -/
theorem gap_of_take_format {x y : Char} {w : List Char} (hx : isBlank x = false)
    (hy : isBlank y = false) (hrow : Code ('[' :: ' ' :: x :: y :: w))
    (htake : (format ('[' :: ' ' :: x :: y :: w)).take 3 = ['[', x, ' ']) :
    Gap ['[', x] (y :: ink w) (format ('[' :: ' ' :: x :: y :: w)) := by
  have hopening : isBlank '[' = false := by decide
  have hspace : isBlank ' ' = true := by decide
  have hink := ink_format hrow
  generalize format ('[' :: ' ' :: x :: y :: w) = s at htake hink ⊢
  have hs : s = '[' :: x :: ' ' :: s.drop 3 := by
    rw [← List.take_append_drop 3 s, htake]
    simp
  rw [hs] at hink
  simp only [ink_cons_of_ink hopening, ink_cons_of_isBlank hspace, ink_cons_of_ink hx,
    ink_cons_of_ink hy, List.cons.injEq, true_and] at hink
  exact ⟨['[', x], ' ', s.drop 3, hs, hspace,
    by rw [ink_cons_of_ink hopening, ink_cons_of_ink hx, ink_nil], hink⟩

/-- **Which signs stay.** In a row of code without quotes a sign with a blank in front of it stays
with the character after it, whatever the row, if and only if that character is of a word or closes
the element. -/
theorem format_keeps_sign_iff {x y : Char} (hx : isSign x = true) (hblank : isBlank y = false)
    (hsign : isSign y = false) (hcode : y ∉ ['\'', '"', '%']) :
    (∀ e a g b, Code ('[' :: (e ++ [']'])) → '[' :: (e ++ [']']) = a ++ g :: x :: y :: b →
      isBlank g = true → Joined (ink a) x y (ink b) (format ('[' :: (e ++ [']'])))) ↔
    isWord y = true ∨ isCloser y = true := by
  have hxblank := isBlank_of_isSign hx
  constructor
  · intro hkeeps
    by_contra hkind
    rw [not_or, Bool.not_eq_true, Bool.not_eq_true] at hkind
    obtain ⟨b, hrow, htake⟩ := exists_set_apart hx hblank hsign hcode hkind.1 hkind.2
    have hjoined := hkeeps (' ' :: x :: y :: b) ['['] ' ' (b ++ [']']) hrow rfl rfl
    exact hjoined.not_gap hxblank hblank (gap_of_take_format hxblank hblank hrow htake)
  · rintro hkind e a g b hrow hsplit hg
    have hled : Led (ink a) x y (ink b) ('[' :: (e ++ [']'])) := ⟨a, g, b, hsplit, hg, rfl, rfl⟩
    rcases hkind with hword | hcloser
    · exact joined_format_of_led hrow hx hword hled
    · exact joined_format_of_closer hrow hx hcloser (hled.ink_eq hxblank hblank)

/-- The sign of an element stays with it. -/
theorem format_keeps_sign_row :
    isSign '-' = true ∧ isBlank 'b' = false ∧ isSign 'b' = false ∧ 'b' ∉ ['\'', '"', '%'] ∧
      Joined ['[', 'a'] '-' 'b' ['+', 'c', ']'] (format "[a -b +c]".toList) := by
  have hx : isSign '-' = true := by decide
  have hblank : isBlank 'b' = false := by decide
  have hsign : isSign 'b' = false := by decide
  have hcode : 'b' ∉ ['\'', '"', '%'] := by decide
  refine ⟨hx, hblank, hsign, hcode, ?_⟩
  exact (format_keeps_sign_iff hx hblank hsign hcode).2 (Or.inl (by decide)) "a -b +c".toList
    "[a".toList ' ' " +c]".toList (by decide) rfl (by decide)

/-- **Signs that are set apart.** Two elements of a row become one, a difference. -/
theorem format_sets_sign_apart :
    format "[a -(b)]".toList = "[a - (b)]".toList ∧ format "[a -.5]".toList = "[a - .5]".toList :=
  ⟨format_of_formatWithin (n := 9) (by decide +kernel),
    format_of_formatWithin (n := 9) (by decide +kernel)⟩

end Pcode.Spacing
