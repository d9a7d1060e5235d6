import Pcode.Proofs.Spacing.Respaced
import Pcode.Proofs.Text.Blank

set_option autoImplicit false

/-! # Probes and blanks after a text

A line may be looked at with its line end or without it, and more generally with blanks after it
or without them. Main statement: what a probe finds differs in the blanks that it keeps at the end
of its right part (`Probe.Trails`, one lemma for each probe), or for comments in the middle
(`comment_append`). Runs of blanks are the one exception: a run at the end of a text may get long
enough to be found. -/

namespace Pcode.Spacing

open Pcode.Text

/-! ## What is kept of trailing blanks -/

/-- The blanks `kept` are what a probe may keep of the blanks `t` after its text. -/
def Kept (t kept : List Char) : Prop := kept = [] ∨ kept = firstLine t ∨ kept = t

theorem Kept.none (t : List Char) : Kept t [] := Or.inl rfl

theorem Kept.line (t : List Char) : Kept t (firstLine t) := Or.inr (Or.inl rfl)

theorem Kept.all (t : List Char) : Kept t t := Or.inr (Or.inr rfl)

theorem Kept.trans {t kept kept' : List Char} (h : Kept t kept) (h' : Kept kept kept') :
    Kept t kept' := by
  have hidem : firstLine (firstLine t) = firstLine t := List.takeWhile_idem
  rcases h' with rfl | rfl | rfl
  · exact Kept.none t
  · rcases h with rfl | rfl | rfl
    · exact Kept.none t
    · exact Or.inr (Or.inl hidem)
    · exact Kept.line _
  · exact h

theorem Kept.all_isBlank {t kept : List Char} (h : Kept t kept) (ht : t.all isBlank = true) :
    kept.all isBlank = true := by
  rcases h with rfl | rfl | rfl
  · rfl
  · rw [List.all_eq_true] at ht ⊢
    exact fun c hc => ht c ((firstLine_sublist t).mem hc)
  · exact ht

/-- What is found behind is found again, but for the blanks that `extend` adds to it. -/
def Trailing {β : Type} (extend : List Char → β → β) (t : List Char) (found found' : Option β) :
    Prop :=
  ∃ kept, Kept t kept ∧ found' = found.map (extend kept)

section

variable {β : Type} {extend : List Char → β → β} {t : List Char}

theorem Trailing.none : Trailing extend t none none := ⟨[], Kept.none t, rfl⟩

theorem Trailing.findSome? {α : Type} {xs : List α} {f g : α → Option β}
    (h : ∀ x ∈ xs, Trailing extend t (f x) (g x)) :
    Trailing extend t (xs.findSome? f) (xs.findSome? g) := by
  induction xs with
  | nil => exact Trailing.none
  | cons x xs ih =>
      obtain ⟨kept, hkept, hfound⟩ := h x (by simp)
      rw [List.findSome?_cons, List.findSome?_cons, hfound]
      cases f x with
      | some b => exact ⟨kept, hkept, rfl⟩
      | none => exact ih fun y hy => h y (by simp [hy])

theorem Trailing.some {kept : List Char} (hkept : Kept t kept) {b b' : β} (h : b' = extend kept b) :
    Trailing extend t (some b) (some b') := ⟨kept, hkept, congrArg Option.some h⟩

end

/-- The first line of a line with something after it. -/
theorem firstLine_append {r : List Char} (hr : '\n' ∉ r) (t : List Char) :
    firstLine (r ++ t) = firstLine r ++ firstLine t := by
  rw [firstLine_of_not_mem hr, firstLine, List.takeWhile_append_of_pos (bne_of_not_mem hr),
    firstLine]

theorem remainder_append {r t : List Char} (hr : '\n' ∉ r) (ht : t.all isBlank = true) :
    ∃ kept, Kept t kept ∧ remainder (r ++ t) = remainder r ++ kept := by
  rcases skipBlanks_append_cases ht r with ⟨hnil, hnil'⟩ | ⟨c, u, -, hskip, hskip'⟩
  · exact ⟨[], Kept.none t, by rw [remainder, remainder, hnil, hnil']; rfl⟩
  · have hcu : '\n' ∉ c :: u := hskip ▸ (Respaced.skipBlanks r).newline_not_mem hr
    refine ⟨firstLine t, Kept.line t, ?_⟩
    rw [remainder, remainder, hskip, hskip', ← List.cons_append, firstLine_append hcu]

theorem takeWhile_append_of_all_not {p : Char → Bool} {t : List Char} (ht : ∀ c ∈ t, p c = false)
    (u : List Char) :
    (u ++ t).takeWhile p = u.takeWhile p ∧ (u ++ t).dropWhile p = u.dropWhile p ++ t := by
  induction u with
  | nil =>
      cases t with
      | nil => exact ⟨rfl, rfl⟩
      | cons c t => simp [ht c (by simp)]
  | cons c u ih =>
      by_cases hc : p c = true
      · simp [hc, ih]
      · simp [hc]

theorem ne_of_mem_blank {t : List Char} (ht : t.all isBlank = true) {x : Char}
    (hx : isBlank x = false) : ∀ c ∈ t, c ≠ x := by
  intro c hc heq
  have hblank := List.all_eq_true.1 ht c hc
  rw [heq, hx] at hblank
  cases hblank

/-- What begins at the first character that is not blank: only texts with such a character have to
be looked at. -/
theorem trailing_of_skipBlanks {β : Type} {extend : List Char → β → β} {p : List Char → Option β}
    {u t : List Char} (hu : '\n' ∉ u) (ht : t.all isBlank = true)
    (hnil : ∀ v, skipBlanks v = [] → p v = none)
    (hcons : ∀ c r, '\n' ∉ c :: r → skipBlanks u = c :: r → skipBlanks (u ++ t) = c :: (r ++ t) →
      Trailing extend t (p u) (p (u ++ t))) :
    Trailing extend t (p u) (p (u ++ t)) := by
  rcases skipBlanks_append_cases ht u with ⟨hskip, hskip'⟩ | ⟨c, r, -, hskip, hskip'⟩
  · rw [hnil u hskip, hnil (u ++ t) hskip']
    exact Trailing.none
  · exact hcons c r ((Respaced.of_skipBlanks hskip).newline_not_mem hu) hskip hskip'

/-! ## Probes -/

/-- More of the text on the right. -/
def Found.extend (kept : List Char) (f : Found) : Found := { f with right := f.right ++ kept }

/-- With blanks after a text a probe finds the same, and keeps some of the blanks. It finds
nothing in blanks alone. -/
structure Probe.Trails (p : Probe) : Prop where
  append : ∀ u t, '\n' ∉ u → t.all isBlank = true → Trailing Found.extend t (p u) (p (u ++ t))
  blank : ∀ t, t.all isBlank = true → p t = none

theorem Probe.Trails.of_skipBlanks {p : Probe} (hnil : ∀ v, skipBlanks v = [] → p v = none)
    (hcons : ∀ u t c r, t.all isBlank = true → '\n' ∉ c :: r → skipBlanks u = c :: r →
      skipBlanks (u ++ t) = c :: (r ++ t) → Trailing Found.extend t (p u) (p (u ++ t))) :
    p.Trails where
  append u t hu ht := trailing_of_skipBlanks hu ht hnil fun c r => hcons u t c r ht
  blank t ht := hnil t ((skipBlanks_eq_nil_iff t).2 ht)

theorem symbols?_append {t : List Char} (ht : t.all isBlank = true) (ps : List (Char → Bool))
    (u : List Char) :
    symbols? ps (u ++ t) = (symbols? ps u).map fun q => (q.1, q.2 ++ t) := by
  induction ps generalizing u with
  | nil => rfl
  | cons p ps ih =>
      rw [symbols?, symbols?]
      rcases skipBlanks_append_cases ht u with ⟨hnil, hnil'⟩ | ⟨c, r, -, hskip, hskip'⟩
      · rw [hnil, hnil']
        rfl
      · rw [hskip, hskip']
        by_cases hp : p c = true
        · simp only [hp, if_true, ih r, Option.map_map]
          rfl
        · simp [hp]

theorem symbols?_of_blank {t : List Char} (ht : t.all isBlank = true) {ps : List (Char → Bool)}
    (hps : ps ≠ []) : symbols? ps t = none := by
  cases ps with
  | nil => exact absurd rfl hps
  | cons p ps => rw [symbols?, (skipBlanks_eq_nil_iff t).2 ht]

theorem operator_trails {ps : List (Char → Bool)} (hps : ps ≠ []) : Probe.Trails (operator ps) := by
  refine ⟨fun u t hu ht => ?_, fun t ht => by rw [operator, symbols?_of_blank ht hps]; rfl⟩
  rw [operator, operator, symbols?_append ht]
  cases hsymbols : symbols? ps u with
  | none => exact Trailing.none
  | some q =>
      obtain ⟨kept, hkept, hremainder⟩ := remainder_append (not_mem_symbols?_rest hu hsymbols) ht
      exact Trailing.some hkept (congrArg (Found.mk [] q.1) hremainder)

theorem closing_trails : Probe.Trails closing := by
  refine ⟨fun u t hu ht => ?_, fun t ht => by rw [closing, symbols?_of_blank ht (by simp)]; rfl⟩
  rw [closing, closing, symbols?_append ht]
  cases hsymbols : symbols? [isClosing] u with
  | none => exact Trailing.none
  | some q =>
      have hq := not_mem_symbols?_rest hu hsymbols
      exact Trailing.some (Kept.line t) (congrArg (Found.mk [] q.1) (firstLine_append hq t))

theorem increment_trails : Probe.Trails increment := by
  refine ⟨fun u t hu ht => ?_, fun t ht => by rw [increment, symbols?_of_blank ht (by simp)]⟩
  rw [increment, increment, symbols?_append ht]
  cases hsymbols : symbols? [isSign, isSign] u with
  | none => exact Trailing.none
  | some q =>
      simp only [Option.map_some]
      rcases skipBlanks_append_cases ht q.2 with ⟨hnil, hnil'⟩ | ⟨c, r, -, hskip, hskip'⟩
      · rw [hnil, hnil']
        exact Trailing.some (Kept.none t) rfl
      · have hr : '\n' ∉ r := fun hmem =>
          (Respaced.of_skipBlanks hskip).newline_not_mem (not_mem_symbols?_rest hu hsymbols)
            (List.mem_cons_of_mem c hmem)
        rw [hskip, hskip']
        dsimp only
        split
        · refine Trailing.some (Kept.line t) (congrArg (Found.mk [] q.1) ?_)
          exact congrArg (List.cons c) (firstLine_append hr t)
        · exact Trailing.none

theorem unarySign_trails : Probe.Trails unarySign := by
  refine ⟨fun u t hu ht => ?_, fun t ht => by rw [unarySign, symbols?_of_blank ht (by simp)]⟩
  rw [unarySign, unarySign, symbols?_append ht]
  cases hsymbols : symbols? [isSign] u with
  | none => exact Trailing.none
  | some q =>
      obtain ⟨m, rest⟩ := q
      simp only [Option.map_some]
      cases rest with
      | nil =>
          -- a sign at the end: the blank after it is no word character
          cases t with
          | nil => exact Trailing.none
          | cons c t =>
              have hc : isWord c = false := isWord_of_isBlank (List.all_eq_true.1 ht c (by simp))
              simp only [List.nil_append, hc]
              exact Trailing.none
      | cons c r =>
          have hr : '\n' ∉ r := fun hmem =>
            not_mem_symbols?_rest hu hsymbols (List.mem_cons_of_mem c hmem)
          simp only [List.cons_append]
          split
          · refine Trailing.some (Kept.line t) (congrArg (Found.mk [] m) ?_)
            exact congrArg (List.cons c) (firstLine_append hr t)
          · exact Trailing.none

theorem callOpening_trails : Probe.Trails callOpening := by
  have hblank : ∀ t, t.all isBlank = true → callOpening t = none := by
    intro t ht
    cases t with
    | nil => rfl
    | cons c t =>
        have hc : c ≠ '(' := ne_of_mem_blank ht (by decide) c (by simp)
        simp [callOpening, hc]
  refine ⟨fun u t hu ht => ?_, hblank⟩
  cases u with
  | nil =>
      rw [List.nil_append, hblank t ht]
      exact Trailing.none
  | cons c r =>
      rw [List.cons_append]
      by_cases hc : c = '('
      · obtain ⟨kept, hkept, hremainder⟩ :=
          remainder_append (r := r) (fun hmem => hu (List.mem_cons_of_mem c hmem)) ht
        rw [hc]
        exact Trailing.some hkept (congrArg (Found.mk [] ['(']) hremainder)
      · have hnone : ∀ v, callOpening (c :: v) = none := fun v => by simp [callOpening, hc]
        rw [hnone, hnone]
        exact Trailing.none

theorem opening_trails : Probe.Trails opening := by
  have hblank : ∀ t, t.all isBlank = true → opening t = none := by
    intro t ht
    cases t with
    | nil => rfl
    | cons c t =>
        have hc : isOpening c = false := by
          cases hopening : isOpening c with
          | false => rfl
          | true =>
              have hc := List.all_eq_true.1 ht c (by simp)
              rw [isBlank_of_isOpening hopening] at hc
              cases hc
        simp [opening, hc]
  refine ⟨fun u t hu ht => ?_, hblank⟩
  cases u with
  | nil =>
      rw [List.nil_append, hblank t ht]
      exact Trailing.none
  | cons c r =>
      obtain ⟨kept, hkept, hremainder⟩ :=
        remainder_append (r := r) (fun hmem => hu (List.mem_cons_of_mem c hmem)) ht
      rw [List.cons_append, opening, opening]
      split
      · exact Trailing.some hkept (congrArg (Found.mk [] [c]) hremainder)
      · exact Trailing.none

theorem ellipsis_trails : Probe.Trails ellipsis := by
  refine Probe.Trails.of_skipBlanks (fun v hv => by rw [ellipsis, hv]) ?_
  intro u t c r ht hline hskip hskip'
  have hdot : ∀ d ∈ t, d ≠ '.' := ne_of_mem_blank ht (by decide)
  rw [ellipsis, ellipsis, hskip, hskip']
  split
  · next v hdots =>
      cases hdots
      have hv : '\n' ∉ v := fun hmem => hline (by simp [hmem])
      obtain ⟨kept, hkept, hremainder⟩ := remainder_append hv ht
      exact Trailing.some hkept (congrArg (Found.mk [] ['.', '.', '.']) hremainder)
  · next hnot =>
      split
      · next v hdots =>
          -- the dots would have to reach into the blanks
          rw [List.cons_eq_cons] at hdots
          obtain ⟨rfl, htail⟩ := hdots
          rcases r with _ | ⟨d, _ | ⟨e, r⟩⟩
          · rw [List.nil_append] at htail
            exact absurd rfl (hdot '.' (by simp [htail]))
          · have hthird : t = '.' :: v := (List.cons_eq_cons.1 htail).2
            exact absurd rfl (hdot '.' (by simp [hthird]))
          · obtain ⟨rfl, hthird⟩ := List.cons_eq_cons.1 htail
            have he : e = '.' := (List.cons_eq_cons.1 hthird).1
            exact absurd (by rw [he]) (hnot r)
      · exact Trailing.none

/-! ## Numbers -/

theorem isDecimal_eq_false_of_mem {t : List Char} (ht : t.all isBlank = true) :
    ∀ c ∈ t, isDecimal c = false := fun c hc => isDecimal_of_isBlank (List.all_eq_true.1 ht c hc)

theorem fraction_append_blank {t : List Char} (ht : t.all isBlank = true) (u : List Char) :
    fraction (u ++ t) = ((fraction u).1, (fraction u).2 ++ t) := by
  have hdecimal := takeWhile_append_of_all_not (isDecimal_eq_false_of_mem ht)
  have hplain : ∀ v : List Char, (∀ r, v ≠ '.' :: r) →
      fraction v = (v.takeWhile isDecimal, v.dropWhile isDecimal) := by
    intro v hv
    rw [fraction.eq_def]
    split
    · next r => exact absurd rfl (hv r)
    · rfl
  by_cases hpoint : ∃ r, u = '.' :: r
  · obtain ⟨r, rfl⟩ := hpoint
    simp [fraction, hdecimal r]
  · have hu : ∀ r, u ≠ '.' :: r := fun r h => hpoint ⟨r, h⟩
    have hut : ∀ r, u ++ t ≠ '.' :: r := by
      intro r h
      cases u with
      | nil =>
          have hmem : '.' ∈ t := by
            rw [List.nil_append] at h
            simp [h]
          exact absurd (List.all_eq_true.1 ht '.' hmem) (by decide)
      | cons c u =>
          obtain ⟨rfl, -⟩ := List.cons_eq_cons.1 h
          exact hu u rfl
    rw [hplain u hu, hplain (u ++ t) hut, (hdecimal u).1, (hdecimal u).2]

/-- A mark needs a character after it, which may be a blank; digits do not follow then. -/
theorem exponentMark?_append_blank {t : List Char} (ht : t.all isBlank = true) (u : List Char) :
    exponentMark? (u ++ t) = (exponentMark? u).map (fun q => (q.1, q.2 ++ t)) ∨
      exponentMark? u = none ∧
        ∃ mark r, exponentMark? (u ++ t) = some (mark, r) ∧ r.takeWhile isDecimal = [] := by
  match u with
  | [] =>
      left
      rw [List.nil_append]
      match t, ht with
      | [], _ => rfl
      | [c], _ => rfl
      | c :: d :: r, ht =>
          have hc : ∀ x, isBlank x = false → c ≠ x := fun x hx =>
            ne_of_mem_blank ht hx c (by simp)
          simp [exponentMark?, hc 'e' (by decide), hc 'E' (by decide)]
  | [c] =>
      match t, ht with
      | [], _ => exact Or.inl rfl
      | d :: r, ht =>
          -- the blank is the character that the mark needs after it
          have hd : isBlank d = true := List.all_eq_true.1 ht d (by simp)
          have hsign : isSign d = false := by
            cases h : isSign d with
            | false => rfl
            | true => rw [isBlank_of_isSign h] at hd; cases hd
          by_cases hc : (c == 'e' || c == 'E') = true
          · right
            refine ⟨rfl, [c], d :: r, ?_, ?_⟩
            · simp only [List.singleton_append, exponentMark?, hc, hsign]
              rfl
            · simp [isDecimal_of_isBlank hd]
          · left
            simp only [List.singleton_append, exponentMark?, hc]
            rfl
  | c :: d :: r =>
      left
      simp only [List.cons_append, exponentMark?]
      split
      · split
        · rfl
        · rfl
      · rfl

/-- What follows the mark of an exponent is part of the line. -/
theorem not_mem_exponentMark?_rest {s m r : List Char} (hs : '\n' ∉ s)
    (h : exponentMark? (fraction (s.dropWhile isDecimal)).2 = some (m, r)) : '\n' ∉ r := by
  intro hmem
  have hfraction : '\n' ∈ (fraction (s.dropWhile isDecimal)).2 := by
    rw [(exponentMark?_eq_some h).1]
    exact List.mem_append_right _ hmem
  have hdrop : '\n' ∈ s.dropWhile isDecimal := by
    rw [← fraction_append (s.dropWhile isDecimal)]
    exact List.mem_append_right _ hfraction
  exact hs ((List.dropWhile_sublist isDecimal).mem hdrop)

theorem scientific_trails : Probe.Trails scientific := by
  refine Probe.Trails.of_skipBlanks (fun v hv => by simp [scientific, hv]) ?_
  intro u t c r ht hline hskip hskip'
  have hdecimal := takeWhile_append_of_all_not (isDecimal_eq_false_of_mem ht)
  simp only [scientific]
  rw [hskip, hskip', ← List.cons_append, (hdecimal _).1, (hdecimal _).2, fraction_append_blank ht]
  split
  · exact Trailing.none
  · rcases exponentMark?_append_blank ht (fraction ((c :: r).dropWhile isDecimal)).2 with
      hmark | ⟨hnone, mark, v, hmark, hdigits⟩
    · rw [hmark]
      cases hfound : exponentMark? (fraction ((c :: r).dropWhile isDecimal)).2 with
      | none => exact Trailing.none
      | some q =>
          have hq : '\n' ∉ q.2 := not_mem_exponentMark?_rest hline hfound
          simp only [Option.map_some, (hdecimal q.2).1]
          split
          · exact Trailing.none
          · exact Trailing.some (Kept.line t) (congrArg (Found.mk _ q.1) (firstLine_append hq t))
    · -- a mark that is there only with the blanks has no digits after it
      simp only [hnone, hmark, hdigits]
      exact Trailing.none

theorem ratio_trails : Probe.Trails ratio := by
  refine Probe.Trails.of_skipBlanks (fun v hv => by simp [ratio, hv]) ?_
  intro u t c r ht hline hskip hskip'
  have hdecimal := takeWhile_append_of_all_not (isDecimal_eq_false_of_mem ht)
  simp only [ratio]
  rw [hskip, hskip', ← List.cons_append, (hdecimal _).1, (hdecimal _).2]
  split
  · exact Trailing.none
  · rcases skipBlanks_append_cases ht ((c :: r).dropWhile isDecimal) with
      ⟨hend, hend'⟩ | ⟨d, v, -, hslash, hslash'⟩
    · rw [hend, hend']
      exact Trailing.none
    · have hv : '\n' ∉ v := fun hmem => hline ((List.dropWhile_sublist isDecimal).mem
        ((skipBlanks_sublist _).mem (hslash ▸ List.mem_cons_of_mem d hmem)))
      rw [hslash, hslash']
      by_cases hd : d = '/'
      · rw [hd]
        rcases skipBlanks_append_cases ht v with ⟨hden, hden'⟩ | ⟨e, w, -, hden, hden'⟩
        · simp only [hden, hden']
          exact Trailing.none
        · have hw : '\n' ∉ e :: w := (Respaced.of_skipBlanks hden).newline_not_mem hv
          rw [← List.cons_append] at hden'
          simp only [hden, hden', (hdecimal _).1]
          split
          · exact Trailing.none
          · exact Trailing.some (Kept.line t) (congrArg (Found.mk _ ['/']) (firstLine_append hw t))
      · simp only [List.cons.injEq, hd, false_and, imp_self, implies_true]
        exact Trailing.none

/-! ## Literals and comments -/

theorem afterLiteral?_append {r t : List Char} (hr : '\n' ∉ r) (ht : t.all isBlank = true) :
    Trailing (fun kept u => u ++ kept) t (afterLiteral? r) (afterLiteral? (r ++ t)) := by
  have hnot : ∀ c, isBlank c = true →
      (isClosing c || isSign c || c == ',' || c == ';') = false := by
    intro c hc
    have hne : ∀ x, isBlank x = false → c ≠ x := fun x hx heq => by rw [heq, hx] at hc; cases hc
    simp [isClosing, isSign, hne ')' (by decide), hne ']' (by decide), hne '}' (by decide),
      hne '+' (by decide), hne '-' (by decide), hne ',' (by decide), hne ';' (by decide)]
  -- blanks alone are kept whole
  have hblank : ∀ u, u.all isBlank = true → afterLiteral? u = some u := by
    intro u hu
    cases u with
    | nil => rfl
    | cons c u =>
        have hc : isBlank c = true := List.all_eq_true.1 hu c (by simp)
        have hall := List.all_eq_true.1 hu
        rw [afterLiteral?, hnot c hc, hc, List.dropWhile_eq_nil_iff.2 hall,
          List.takeWhile_eq_self_iff.2 hall]
        simp [firstLine]
  cases hall : r.all isBlank with
  | true =>
      have hboth : (r ++ t).all isBlank = true := by rw [List.all_append, hall, ht]; rfl
      rw [hblank r hall, hblank (r ++ t) hboth]
      exact Trailing.some (Kept.all t) rfl
  | false =>
      cases r with
      | nil => cases hall
      | cons c r =>
          have hline : '\n' ∉ r := fun hmem => hr (List.mem_cons_of_mem c hmem)
          rw [List.cons_append, afterLiteral?, afterLiteral?]
          split
          · exact Trailing.some (Kept.line t)
              (congrArg (List.cons c) (firstLine_append hline t))
          · split
            · obtain ⟨d, v, hskip, -⟩ := (beginsInk_skipBlanks hall).exists_cons
              have hdv : '\n' ∉ d :: v := (Respaced.of_skipBlanks hskip).newline_not_mem hr
              have hdrop : (c :: r).dropWhile isBlank = d :: v := hskip
              obtain ⟨htake', hdrop'⟩ := takeWhile_dropWhile_append hdrop t
              rw [← List.cons_append, htake', hdrop', ← List.cons_append, hdrop]
              refine Trailing.some (Kept.line t) ?_
              rw [firstLine_append hdv, List.append_assoc]
            · exact Trailing.none

theorem singleBody_of_blank {t : List Char} (ht : t.all isBlank = true) : singleBody t = none := by
  induction t with
  | nil => rfl
  | cons c t ih =>
      have hc : c ≠ '\'' := ne_of_mem_blank ht (by decide) c (by simp)
      have hrest : t.all isBlank = true := by
        rw [List.all_cons, Bool.and_eq_true] at ht
        exact ht.2
      rw [singleBody]
      · rw [if_neg hc, ih hrest]
        rfl
      · exact fun s hs => absurd hs hc

theorem singleBody_append_blank {t : List Char} (ht : t.all isBlank = true) (u : List Char) :
    singleBody (u ++ t) = (singleBody u).map fun q => (q.1, q.2 ++ t) := by
  fun_induction singleBody u with
  | case1 => exact singleBody_of_blank ht
  | case2 s ih =>
      rw [List.cons_append, List.cons_append, singleBody, ih, Option.map_map, Option.map_map]
      rfl
  | case3 s hne =>
      -- the closing quote is not doubled, since the next character is not a quote
      rw [List.cons_append, singleBody]
      · rfl
      · intro r _ hr
        cases s with
        | nil => exact absurd rfl (ne_of_mem_blank ht (x := '\'') (by decide) '\'' (by
            rw [List.nil_append] at hr
            simp [hr]))
        | cons d s =>
            have hd : d = '\'' := (List.cons_eq_cons.1 hr).1
            exact hne s rfl (by rw [hd])
  | case4 c s hne hc ih =>
      rw [List.cons_append, singleBody]
      · rw [if_neg hc, ih, Option.map_map, Option.map_map]
        rfl
      · exact fun r hr => absurd hr hc

theorem singleQuoted_trails : Probe.Trails singleQuoted := by
  refine Probe.Trails.of_skipBlanks (fun v hv => by rw [singleQuoted, hv]) ?_
  intro u t c r ht hline hskip hskip'
  by_cases hc : c = '\''
  · subst hc
    rw [singleQuoted, singleQuoted, hskip, hskip']
    simp only [singleBody_append_blank ht]
    cases hbody : singleBody r with
    | none => exact Trailing.none
    | some q =>
        have hq : '\n' ∉ q.2 := fun hmem => hline (List.mem_cons_of_mem _ (by
          rw [singleBody_append hbody]
          exact List.mem_append_right _ hmem))
        obtain ⟨kept, hkept, hafter⟩ := afterLiteral?_append hq ht
        simp only [Option.map_some, hafter, Option.map_map]
        split
        · exact Trailing.none
        · exact ⟨kept, hkept, by rw [Option.map_map]; rfl⟩
  · have hnone : ∀ v w, skipBlanks v = c :: w → singleQuoted v = none := fun v w hv => by
      simp [singleQuoted, hv, hc]
    rw [hnone u r hskip, hnone (u ++ t) (r ++ t) hskip']
    exact Trailing.none

theorem doubleQuoted_trails : Probe.Trails doubleQuoted := by
  refine Probe.Trails.of_skipBlanks (fun v hv => by rw [doubleQuoted, hv]) ?_
  intro u t c r ht hline hskip hskip'
  by_cases hc : c = '"'
  · subst hc
    rw [doubleQuoted, doubleQuoted, hskip, hskip']
    simp only
    cases hdrop : r.dropWhile (· != '"') with
    | nil =>
        have hall : ∀ c ∈ r, (c != '"') = true := List.dropWhile_eq_nil_iff.1 hdrop
        have hblank : ∀ c ∈ t, (c != '"') = true := fun c hmem =>
          bne_iff_ne.2 (ne_of_mem_blank ht (by decide) c hmem)
        have hdrop' : (r ++ t).dropWhile (· != '"') = [] := by
          rw [List.dropWhile_append_of_pos hall]
          exact List.dropWhile_eq_nil_iff.2 hblank
        rw [hdrop']
        exact Trailing.none
    | cons q v =>
        have hv : '\n' ∉ v := fun hmem => hline (List.mem_cons_of_mem _
          ((List.dropWhile_sublist _).mem (hdrop ▸ List.mem_cons_of_mem q hmem)))
        obtain ⟨htake', hdrop'⟩ := takeWhile_dropWhile_append hdrop t
        obtain ⟨kept, hkept, hafter⟩ := afterLiteral?_append hv ht
        rw [htake', hdrop']
        simp only [hafter]
        exact ⟨kept, hkept, by rw [Option.map_map, Option.map_map]; rfl⟩
  · have hnone : ∀ v w, skipBlanks v = c :: w → doubleQuoted v = none := fun v w hv => by
      simp [doubleQuoted, hv, hc]
    rw [hnone u r hskip, hnone (u ++ t) (r ++ t) hskip']
    exact Trailing.none

/-- More of the text in the middle. -/
def Found.extendMid (kept : List Char) (f : Found) : Found := { f with mid := f.mid ++ kept }

theorem comment_of_blank {t : List Char} (ht : t.all isBlank = true) : comment t = none := by
  rw [comment, (skipBlanks_eq_nil_iff t).2 ht]

/-- A comment takes the blanks after it, up to the line end. -/
theorem comment_append {u t : List Char} (hu : '\n' ∉ u) (ht : t.all isBlank = true) :
    Trailing Found.extendMid t (comment u) (comment (u ++ t)) := by
  refine trailing_of_skipBlanks hu ht (fun v hv => by rw [comment, hv]) ?_
  intro c r hline hskip hskip'
  by_cases hc : c = '%'
  · subst hc
    have hr : '\n' ∉ r := fun hmem => hline (List.mem_cons_of_mem _ hmem)
    rw [comment, comment, hskip, hskip']
    refine Trailing.some (Kept.line t) ?_
    show Found.mk [] ('%' :: firstLine (r ++ t)) [] = _
    rw [firstLine_append hr]
    rfl
  · have hnone : ∀ v w, skipBlanks v = c :: w → comment v = none := fun v w hv => by
      simp [comment, hv, hc]
    rw [hnone u r hskip, hnone (u ++ t) (r ++ t) hskip']
    exact Trailing.none

end Pcode.Spacing
