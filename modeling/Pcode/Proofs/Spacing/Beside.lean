import Pcode.Proofs.Spacing.Filled

set_option autoImplicit false

/-! # Literals that stay where they stand

A quote opens a literal behind some characters only, and behind a literal only some may stand. What
stands there once the text has been spaced is the same ink or a blank, and for most ink it is known
which (`opensLiteral`, `followsLiteral`).

Main statement: a proper line with such ink beside its literals is proper again once it has been
spaced (`QuotedLine.proper_spaced`). -/

namespace Pcode.Text

/-- A text has a gap at its end if it ends with a blank. -/
theorem gapAt_end_eq (s : List Char) : gapAt (ink s).length s = s.getLast?.any isBlank := by
  rcases List.eq_nil_or_concat' s with rfl | ⟨u, c, rfl⟩
  · rfl
  · rw [List.getLast?_concat, Option.any_some, ink_append, List.length_append]
    cases hc : isBlank c with
    | true =>
        have hspace : gapAt 0 [c] = true := by simp [gapAt, hc]
        rw [ink_cons_of_isBlank hc, ink_nil, List.length_nil, Nat.add_zero, gapAt_append_of_eq,
          hspace, Bool.or_true]
    | false =>
        rw [ink_cons_of_ink hc, ink_nil, List.length_singleton,
          show (ink u).length + 1 = (ink u).length + (0 + 1) from rfl, gapAt_append_of_gt]
        exact gapAt_of_ink (by simpa using hc) _

theorem gapAt_zero_eq (s : List Char) : gapAt 0 s = s.head?.any isBlank := by
  rw [gapAt, past_zero]

theorem getLast?_ink_of_getLast? {s : List Char} {c : Char} (h : s.getLast? = some c)
    (hc : isBlank c = false) : (ink s).getLast? = some c := by
  obtain ⟨u, rfl⟩ := List.getLast?_eq_some_iff.1 h
  rw [ink_append, ink_cons_of_ink hc, ink_nil, List.getLast?_concat]

theorem head?_ink_of_head? {s : List Char} {c : Char} (h : s.head? = some c)
    (hc : isBlank c = false) : (ink s).head? = some c := by
  obtain ⟨u, rfl⟩ := List.head?_eq_some_iff.1 h
  rw [ink_cons_of_ink hc, List.head?_cons]

theorem head?_ink_of_gapAt {s : List Char} (h : gapAt 0 s = false) : (ink s).head? = s.head? := by
  rw [gapAt_zero_eq] at h
  cases hs : s.head? with
  | none => rw [List.head?_eq_none_iff.1 hs, ink_nil, List.head?_nil]
  | some c =>
      rw [hs] at h
      exact head?_ink_of_head? hs h

/-- A text that ends with a character of a class, but not with ink of it, ends with a blank. -/
theorem gapAt_end_of_getLast? {p : Char → Bool} {s : List Char} {c : Char}
    (hlast : ∀ d ∈ s.getLast?, p d = true) (hink : (ink s).getLast? = some c) (hc : p c = false) :
    gapAt (ink s).length s = true := by
  by_contra hgap
  rw [gapAt_end_eq, Bool.not_eq_true] at hgap
  cases hs : s.getLast? with
  | none =>
      rw [List.getLast?_eq_none_iff.1 hs] at hink
      cases hink
  | some d =>
      rw [hs] at hgap
      have hsame : d = c := Option.some.inj ((getLast?_ink_of_getLast? hs hgap).symm.trans hink)
      rw [← hsame, hlast d hs] at hc
      cases hc

/-- A text that begins with a character of a class, but not with ink of it, begins with a blank. -/
theorem gapAt_zero_of_head? {p : Char → Bool} {s : List Char} {c : Char}
    (hfirst : ∀ d ∈ s.head?, p d = true) (hink : (ink s).head? = some c) (hc : p c = false) :
    gapAt 0 s = true := by
  by_contra hgap
  rw [Bool.not_eq_true] at hgap
  rw [head?_ink_of_gapAt hgap] at hink
  rw [hfirst c hink] at hc
  cases hc

end Pcode.Text

namespace Pcode.Spacing

open Pcode.Text

/-! ## Characters beside a literal -/

/-- A character behind which, once the text has been spaced, a quote opens a literal if it did. -/
def opensLiteral (c : Char) : Bool := isBeforeLiteral c || isPadded c || !absorbsBehind c

/-- A character that, once the text has been spaced, may follow a literal if it did. -/
def followsLiteral (c : Char) : Bool :=
  isAfterLiteral c || isOperator c || !(absorbsBefore c || c == '.')

section

variable {s : List Char} (hs : Clear s)

include hs

/-- A gap at the end is kept behind ink that a literal may follow, or there is one. -/
theorem Clear.gapAt_format_of_opensLiteral {c : Char} (hc : (ink s).getLast? = some c)
    (hopens : opensLiteral c = true) (hother : isBeforeLiteral c = false)
    (hend : gapAt (ink s).length s = true) : gapAt (ink s).length (format s) = true := by
  obtain ⟨u, hu⟩ := List.getLast?_eq_some_iff.1 hc
  have hlength : (ink s).length = u.length + 1 := by rw [hu]; simp
  have hplace : ∀ p : Char → Bool, inkAt p u.length s = p c := fun p => by simp [inkAt, hu]
  rw [opensLiteral, hother, Bool.false_or, Bool.or_eq_true] at hopens
  rcases hopens with hpadded | hkeeps
  · have hsign : isSign c = false := by
      by_contra hsign
      simp [isBeforeLiteral, hsign] at hother
    rw [hlength]
    refine hs.gapAt_format_of_padded u.length hlength (by rw [hplace, hpadded]) fun hsigns => ?_
    rw [hplace, hsign] at hsigns
    exact absurd hsigns.2.2 Bool.false_ne_true
  · have hnone : ∀ p : Char → Bool, inkAt p (ink s).length s = false := fun p => by simp [inkAt]
    rw [hs.gapAt_format _ ⟨fun _ => ?_, hnone _, fun hdot => ?_⟩, hend]
    · rw [hlength, Nat.add_sub_cancel, hplace]
      simpa using hkeeps
    · rw [hnone] at hdot
      cases hdot

/-- What ends a text that a literal follows, once it has been spaced. -/
theorem Clear.isBeforeLiteral_format (hlast : ∀ c ∈ s.getLast?, isBeforeLiteral c = true)
    (hclass : ∀ c ∈ (ink s).getLast?, opensLiteral c = true) :
    ∀ c ∈ (format s).getLast?, isBeforeLiteral c = true := by
  intro c hc
  cases hblank : isBlank c with
  | true => simp [isBeforeLiteral, hblank]
  | false =>
      have hink := getLast?_ink_of_getLast? hc hblank
      rw [ink_format hs.code] at hink
      by_contra hother
      rw [Bool.not_eq_true] at hother
      -- the text ended with a blank, and this has been kept
      have hkept := hs.gapAt_format_of_opensLiteral hink (hclass c hink) hother
        (gapAt_end_of_getLast? hlast hink hother)
      rw [← ink_format hs.code, gapAt_end_eq, Option.mem_def.1 hc, Option.any_some, hblank] at hkept
      cases hkept

/-- A gap at the start is kept before ink that may follow a literal, or there is one. -/
theorem Clear.gapAt_format_of_followsLiteral {c : Char} (hc : (ink s).head? = some c)
    (hfollows : followsLiteral c = true) (hother : isAfterLiteral c = false)
    (hstart : gapAt 0 s = true) : gapAt 0 (format s) = true := by
  have hplace : ∀ p : Char → Bool, inkAt p 0 s = p c := fun p => by
    rw [List.head?_eq_getElem?] at hc
    simp [inkAt, hc]
  rw [followsLiteral, hother, Bool.false_or, Bool.or_eq_true] at hfollows
  rcases hfollows with hoperator | hplain
  · have hsign : isSign c = false := by
      by_contra hsign
      simp [isAfterLiteral, hsign] at hother
    apply hs.gapAt_format_of_operator
    rw [hplace, hoperator, hsign]
    rfl
  · simp only [Bool.not_eq_true', Bool.or_eq_false_iff] at hplain
    rw [hs.gapAt_format 0 ⟨fun hpos => absurd hpos (Nat.lt_irrefl 0), ?_, fun hdot => ?_⟩, hstart]
    · rw [hplace, hplain.1]
    · rw [hplace, hplain.2] at hdot
      cases hdot

/-- What begins a text that follows a literal, once it has been spaced. -/
theorem Clear.isAfterLiteral_format (hfirst : ∀ c ∈ s.head?, isAfterLiteral c = true)
    (hclass : ∀ c ∈ (ink s).head?, followsLiteral c = true) :
    ∀ c ∈ (format s).head?, isAfterLiteral c = true := by
  intro c hc
  cases hblank : isBlank c with
  | true => simp [isAfterLiteral, hblank]
  | false =>
      have hink := head?_ink_of_head? hc hblank
      rw [ink_format hs.code] at hink
      by_contra hother
      rw [Bool.not_eq_true] at hother
      -- the text began with a blank, and there is one again
      have hkept := hs.gapAt_format_of_followsLiteral hink (hclass c hink) hother
        (gapAt_zero_of_head? hfirst hink hother)
      rw [gapAt_zero_eq, Option.mem_def.1 hc, Option.any_some, hblank] at hkept
      cases hkept

end

section

variable {s : List Char} (hs : Docile s)

include hs

/-- So it is with a continuation mark at the end, which gets a blank behind it. -/
theorem Docile.isBeforeLiteral_format (hlast : ∀ c ∈ s.getLast?, isBeforeLiteral c = true)
    (hclass : ∀ c ∈ (ink (filled s)).getLast?, opensLiteral c = true) :
    ∀ c ∈ (format s).getLast?, isBeforeLiteral c = true := by
  cases hm : isMarked s with
  | false =>
      have htame := hs.tame
      rw [filled_of_not hm] at htame hclass
      exact htame.toClear.isBeforeLiteral_format hlast hclass
  | true =>
      obtain ⟨i, hi⟩ := exists_dotted hm
      have hlength : (ink (format s)).length = i.length + 3 := by
        rw [ink_format hs.code, hi.mark]
        simp
      have hend := gapAt_end_eq (format s)
      rw [hlength, (hs.marked hi).last] at hend
      intro c hc
      rw [Option.mem_def.1 hc, Option.any_some] at hend
      simp [isBeforeLiteral, ← hend]

theorem Docile.isAfterLiteral_format (hfirst : ∀ c ∈ s.head?, isAfterLiteral c = true)
    (hclass : ∀ c ∈ (ink (filled s)).head?, followsLiteral c = true) :
    ∀ c ∈ (format s).head?, isAfterLiteral c = true := by
  cases hm : isMarked s with
  | false =>
      have htame := hs.tame
      rw [filled_of_not hm] at htame hclass
      exact htame.toClear.isAfterLiteral_format hfirst hclass
  | true =>
      obtain ⟨u, b, hparts, hb, -, hfilled⟩ := exists_of_isMarked hm
      obtain ⟨i, hi⟩ := exists_dotted hm
      have hmarked := hs.marked hi
      intro c hc
      cases hblank : isBlank c with
      | true => simp [isAfterLiteral, hblank]
      | false =>
          have hzero : gapAt 0 (format s) = false := by
            rw [gapAt_zero_eq, Option.mem_def.1 hc, Option.any_some, hblank]
          -- there is ink in front of the mark, and it stands where it does in front of the name
          have hpos : 0 < i.length := by
            refine Nat.pos_of_ne_zero fun hnil => ?_
            have hfront := hmarked.front
            rw [hnil, hzero] at hfront
            cases hfront
          have hinkhead : (ink s).head? = (ink (filled s)).head? := by
            rw [hi.mark, hi.name, List.head?_append_of_ne_nil _ (List.ne_nil_of_length_pos hpos),
              List.head?_append_of_ne_nil _ (List.ne_nil_of_length_pos hpos)]
          have hhead : ∀ d ∈ (filled s).head?, isAfterLiteral d = true := by
            have hne : u ≠ [] := by
              rintro rfl
              rw [hfilled] at hi
              have hlength := congrArg List.length hi.name
              simp only [List.length_append, List.length_singleton] at hlength
              have hink : (ink ([] ++ [' ', 'x'])).length = 1 := by decide
              omega
            rw [hfilled, List.head?_append_of_ne_nil _ hne]
            rwa [hparts, List.head?_append_of_ne_nil _ hne] at hfirst
          refine hs.tame.toClear.isAfterLiteral_format hhead hclass c ?_
          have hink := head?_ink_of_head? hc hblank
          rw [ink_format hs.code, hinkhead, ← ink_format hs.tame.code] at hink
          have hgap : gapAt 0 (format (filled s)) = false := by rw [← hmarked.gap 0 hpos, hzero]
          rwa [head?_ink_of_gapAt hgap] at hink

theorem Docile.format_ne_nil (hne : s ≠ []) : format s ≠ [] := by
  intro hnil
  have hink : ink s = [] := by rw [← ink_format hs.code, hnil, ink_nil]
  have hm : isMarked s = false := by
    by_contra hm
    obtain ⟨i, hi⟩ := exists_dotted (by simpa using hm)
    rw [hi.mark] at hink
    simp at hink
  -- a text of blanks would leave one
  have htame := hs.tame
  rw [filled_of_not hm] at htame
  have hgap := htame.toClear.gapAt_format 0 (plain_zero_of_nil hink)
  rw [hnil, gapAt_nil, gapAt_zero_of_blank ((ink_eq_nil_iff s).1 hink)] at hgap
  exact hne (by simpa using hgap)

end

namespace QuotedLine

/-! ## Literals one by one -/

/-- Each literal stands behind a segment that it may follow and before one that may follow it.
Between two literals, or a literal and a comment, the segment is not empty. -/
def ProperFrom (commented : Bool) : Segment → List (Literal × Segment) → Prop
  | _, [] => True
  | s, (_, t) :: v =>
      (∀ c ∈ s.text.getLast?, isBeforeLiteral c = true) ∧
        (∀ c ∈ t.text.head?, isAfterLiteral c = true) ∧ (t.text = [] → v = [] ∧ commented = false) ∧
        ProperFrom commented t v

/-- Where a segment is empty, a quote or the sign of a comment follows, and neither may follow a
literal. -/
theorem isAfterLiteral_rest {line : QuotedLine}
    (h : ∀ c ∈ line.rest.head?, isAfterLiteral c = true) :
    line.pieces = [] ∧ line.remark.isSome = false := by
  cases hpieces : line.pieces with
  | nil =>
      refine ⟨rfl, ?_⟩
      cases hr : line.remark with
      | none => rfl
      | some r => exact absurd (h '%' (by simp [rest, ending, hpieces, hr])) (by decide)
  | cons p v =>
      have hquote : ∀ d, isAfterLiteral (quoteOf d) = false := by decide
      have hhead := h (quoteOf p.1.double) (by simp [rest, hpieces, Literal.text])
      rw [hquote] at hhead
      cases hhead

/-- A line is proper if its literals are, one by one. -/
theorem proper_iff_properFrom (line : QuotedLine) :
    line.Proper ↔ ProperFrom line.remark.isSome line.first line.pieces := by
  obtain ⟨s, pieces, remark⟩ := line
  induction pieces generalizing s with
  | nil =>
      refine iff_of_true ⟨fun u l t v h => ?_, fun u l t v h => ?_⟩ trivial
      · exact absurd h.symm (by simp)
      · exact absurd h.symm (by simp)
  | cons p v ih =>
      obtain ⟨l, t⟩ := p
      have hfirst : (before ⟨s, (l, t) :: v, remark⟩ []).text = s.text := by
        simp [before, text, body, ending]
      constructor
      · intro h
        have hafter := h.after [] l t v rfl
        rw [text_eq_rest] at hafter
        refine ⟨hfirst ▸ h.before [] l t v rfl, fun c hc => hafter c ?_, fun hnil => ?_,
          (ih t).1 (h.behind_proper (u := []) rfl)⟩
        · exact List.mem_head?_append_of_mem_head? hc
        · have hnil' : (behind ⟨s, (l, t) :: v, remark⟩ t v).first.text = [] := hnil
          rw [hnil', List.nil_append] at hafter
          exact isAfterLiteral_rest hafter
      · rintro ⟨hlast, hhead, hempty, hrest⟩
        have hbehind : Proper ⟨t, v, remark⟩ := (ih t).2 hrest
        refine ⟨fun u l' s' v' h => ?_, fun u l' s' v' h => ?_⟩
        · cases u with
          | nil => rwa [hfirst]
          | cons q w =>
              obtain ⟨rfl, hv⟩ :=
                List.cons.inj (show (l, t) :: v = q :: (w ++ (l', s') :: v') from h)
              have hne : (before ⟨t, v, remark⟩ w).text ≠ [] := by
                intro hnil
                rw [text_eq_rest, List.append_eq_nil_iff] at hnil
                rw [(hempty hnil.1).1] at hv
                exact absurd hv.symm (by simp)
              have htext : (before ⟨s, (l, t) :: v, remark⟩ ((l, t) :: w)).text =
                  (s.text ++ l.text) ++ (before ⟨t, v, remark⟩ w).text := by
                simp [before, text, body, ending]
              rw [htext, List.getLast?_append_of_ne_nil _ hne]
              exact hbehind.before w l' s' v' hv
        · cases u with
          | nil =>
              obtain ⟨hp, rfl⟩ := List.cons.inj (show (l, t) :: v = (l', s') :: v' from h)
              obtain ⟨rfl, rfl⟩ := Prod.mk.inj hp
              intro c hc
              by_cases hnil : t.text = []
              · obtain ⟨rfl, hremark⟩ := hempty hnil
                obtain rfl : remark = none := by simpa using hremark
                simp [behind, text, body, ending, hnil] at hc
              · have htext : (behind ⟨s, (l, t) :: v, remark⟩ t v).text =
                    t.text ++ (behind ⟨s, (l, t) :: v, remark⟩ t v).rest := text_eq_rest _
                rw [htext, List.head?_append_of_ne_nil _ hnil] at hc
                exact hhead c hc
          | cons q w =>
              obtain ⟨rfl, hv⟩ :=
                List.cons.inj (show (l, t) :: v = q :: (w ++ (l', s') :: v') from h)
              exact hbehind.after w l' s' v' hv

/-- A segment with its spacing in order, and perhaps with a blank at its end before. -/
def Respells (s t : Segment) : Prop := t.text = format s.text ∨ t.text = format (spaceEnd s.text)

section

variable {s t : Segment} (h : Respells s t) (hs : Docile s.text)

include h hs

theorem Respells.isBeforeLiteral (hlast : ∀ c ∈ s.text.getLast?, isBeforeLiteral c = true)
    (hclass : ∀ c ∈ (ink (filled s.text)).getLast?, opensLiteral c = true) :
    ∀ c ∈ t.text.getLast?, isBeforeLiteral c = true := by
  rcases h with ht | ht
  · rw [ht]
    exact hs.isBeforeLiteral_format hlast hclass
  · rw [ht]
    rw [ink_filled_eq (isMarked_spaceEnd s.text) (ink_spaceEnd s.text).symm] at hclass
    refine hs.spaceEnd.isBeforeLiteral_format ?_ hclass
    intro c hc
    rw [spaceEnd, List.getLast?_concat] at hc
    cases hc
    decide

theorem Respells.isAfterLiteral (hfirst : ∀ c ∈ s.text.head?, isAfterLiteral c = true)
    (hclass : ∀ c ∈ (ink (filled s.text)).head?, followsLiteral c = true) :
    ∀ c ∈ t.text.head?, isAfterLiteral c = true := by
  rcases h with ht | ht
  · rw [ht]
    exact hs.isAfterLiteral_format hfirst hclass
  · rw [ht]
    rw [ink_filled_eq (isMarked_spaceEnd s.text) (ink_spaceEnd s.text).symm] at hclass
    refine hs.spaceEnd.isAfterLiteral_format ?_ hclass
    intro c hc
    by_cases hblank : s.text.all isBlank = true
    · rw [spaceEnd_of_blank hblank] at hc
      cases hc
      decide
    · have hne : trimEnd s.text ≠ [] := fun hnil => hblank ((trimEnd_eq_nil_iff _).1 hnil)
      obtain ⟨b, hb, -⟩ := exists_trimEnd_append s.text
      rw [spaceEnd, List.head?_append_of_ne_nil _ hne] at hc
      apply hfirst c
      rw [hb, List.head?_append_of_ne_nil _ hne]
      exact hc

theorem Respells.text_eq_nil (hnil : t.text = []) : s.text = [] := by
  rcases h with ht | ht
  · by_contra hne
    exact hs.format_ne_nil hne (ht ▸ hnil)
  · exact absurd (ht ▸ hnil) (hs.spaceEnd.format_ne_nil (by simp [spaceEnd]))

end

/-- Literals keep standing where they may. -/
theorem properFrom_again {remark : Option Remark} {s t : Segment} {v w : List (Literal × Segment)}
    (hst : Respells s t)
    (hvw : List.Forall₂ (fun p q => p.1 = q.1 ∧ Respells p.2 q.2) v w) (hs : Docile s.text)
    (hv : ∀ p ∈ v, Docile p.2.text)
    (hopens : ∀ x ∈ fronts ⟨s, v, remark⟩, ∀ c ∈ (ink (filled x.text)).getLast?,
      opensLiteral c = true)
    (hfollows : ∀ p ∈ v, ∀ c ∈ (ink (filled p.2.text)).head?, followsLiteral c = true)
    (h : ProperFrom remark.isSome s v) : ProperFrom remark.isSome t w := by
  induction hvw generalizing s t with
  | nil => trivial
  | @cons p q v w hpq hvw ih =>
      obtain ⟨l, s'⟩ := p
      obtain ⟨l', t'⟩ := q
      obtain ⟨rfl, hst'⟩ := hpq
      obtain ⟨hlast, hfirst, hempty, hrest⟩ := h
      have hs' : Docile s'.text := hv (l, s') (by simp)
      refine ⟨hst.isBeforeLiteral hs hlast (hopens s List.mem_cons_self),
        hst'.isAfterLiteral hs' hfirst (hfollows (l, s') (by simp)), fun hnil => ?_,
        ih hst' hs' (fun p hp => hv p (by simp [hp]))
          (fun x hx => hopens x (List.mem_cons_of_mem s hx)) (fun p hp => hfollows p (by simp [hp]))
          hrest⟩
      obtain ⟨rfl, hremark⟩ := hempty (hst'.text_eq_nil hs' hnil)
      cases hvw
      exact ⟨rfl, hremark⟩

theorem respells_padLast (s : Segment) (v : List (Literal × Segment)) :
    Respells s (mapLast Segment.spaceEnd s v).1.spaced ∧
      List.Forall₂ (fun p q => p.1 = q.1 ∧ Respells p.2 q.2) v
        ((mapLast Segment.spaceEnd s v).2.map fun p => (p.1, p.2.spaced)) := by
  induction v generalizing s with
  | nil => exact ⟨Or.inr rfl, .nil⟩
  | cons p v ih => exact ⟨Or.inl rfl, .cons ⟨rfl, (ih p.2).1⟩ (ih p.2).2⟩

theorem respells_closed (line : QuotedLine) :
    Respells line.first line.closed.spaced.first ∧
      List.Forall₂ (fun p q => p.1 = q.1 ∧ Respells p.2 q.2) line.pieces
        line.closed.spaced.pieces := by
  rw [closed]
  split
  · refine ⟨Or.inl rfl, ?_⟩
    show List.Forall₂ _ line.pieces (line.pieces.map _)
    rw [List.forall₂_map_right_iff, List.forall₂_same]
    exact fun p _ => ⟨rfl, Or.inl rfl⟩
  · exact respells_padLast line.first line.pieces

/-- **A proper line stays proper** where the ink beside its literals lets it. -/
theorem proper_spaced {line : QuotedLine} (h : line.Proper)
    (hdocile : ∀ s ∈ line.segments, Docile s.text)
    (hopens : ∀ s ∈ line.fronts, ∀ c ∈ (ink (filled s.text)).getLast?, opensLiteral c = true)
    (hfollows : ∀ p ∈ line.pieces, ∀ c ∈ (ink (filled p.2.text)).head?, followsLiteral c = true) :
    line.closed.spaced.Proper := by
  obtain ⟨hfirst, hpieces⟩ := line.respells_closed
  have hall := forall_mem_segments.1 hdocile
  have hremark : line.closed.spaced.remark = line.remark := line.closed_remark
  rw [proper_iff_properFrom, hremark]
  exact properFrom_again hfirst hpieces hall.1 hall.2 hopens hfollows
    (line.proper_iff_properFrom.1 h)

/-! ## The ends of a line -/

theorem properFrom_mapLast {s : Segment} {v : List (Literal × Segment)} (h : ProperFrom false s v) :
    ProperFrom false (mapLast Segment.trimEnd s v).1 (mapLast Segment.trimEnd s v).2 := by
  induction v generalizing s with
  | nil => trivial
  | cons p v ih =>
      obtain ⟨l, t⟩ := p
      obtain ⟨hlast, hfirst, hempty, hrest⟩ := h
      cases v with
      | nil =>
          refine ⟨hlast, fun c hc => hfirst c ?_, fun _ => ⟨rfl, rfl⟩, trivial⟩
          obtain ⟨b, hb, -⟩ := exists_trimEnd_append t.text
          rw [hb]
          exact List.mem_head?_append_of_mem_head? hc
      | cons q w =>
          exact ⟨hlast, hfirst, fun hnil => absurd (hempty hnil).1 (by simp), ih hrest⟩

/-- Without the blanks at its end a proper line is proper. -/
theorem Proper.trimmed {line : QuotedLine} (h : line.Proper) : line.trimmed.Proper := by
  rw [proper_iff_properFrom] at h ⊢
  obtain ⟨s, pieces, remark⟩ := line
  cases remark with
  | some r => exact h
  | none => exact properFrom_mapLast h

/-- With another first segment a proper line is proper, if the first literal may follow that. -/
theorem Proper.withFirst {line : QuotedLine} (h : line.Proper) {t : Segment}
    (ht : line.pieces ≠ [] → ∀ c ∈ t.text.getLast?, isBeforeLiteral c = true) :
    (line.withFirst t).Proper := by
  rw [proper_iff_properFrom] at h ⊢
  obtain ⟨s, pieces, remark⟩ := line
  cases pieces with
  | nil => trivial
  | cons p v => exact ⟨ht (by simp), h.2⟩

/-- With other text in front a proper line is proper, if it does not begin with a literal that may
not follow that. -/
theorem Proper.fronted {line : QuotedLine} (h : line.Proper) {u : List Char}
    (hu : ∀ c ∈ ['\'', '"', '%', '\n'], c ∉ u)
    (hlast : line.pieces ≠ [] → line.first.text.all isBlank = true →
      ∀ c ∈ u.getLast?, isBeforeLiteral c = true) : (line.fronted u hu).Proper := by
  refine h.withFirst fun hne c hc => ?_
  change c ∈ (u ++ skipBlanks line.first.text).getLast? at hc
  by_cases hskip : skipBlanks line.first.text = []
  · rw [hskip, List.append_nil] at hc
    exact hlast hne ((skipBlanks_eq_nil_iff _).1 hskip) c hc
  · -- the last character of the segment is the one that was there
    rw [List.getLast?_append_of_ne_nil _ hskip] at hc
    obtain ⟨p, v, hp⟩ := List.exists_cons_of_ne_nil hne
    have hproper := line.proper_iff_properFrom.1 h
    rw [hp] at hproper
    apply hproper.1 c
    have hfirst :
        line.first.text = line.first.text.takeWhile isBlank ++ skipBlanks line.first.text :=
      List.takeWhile_append_dropWhile.symm
    rw [hfirst, List.getLast?_append_of_ne_nil _ hskip]
    exact hc

theorem Proper.unindented {line : QuotedLine} (h : line.Proper) : line.unindented.Proper :=
  h.fronted _ fun _ _ _ hc => by cases hc

end QuotedLine

end Pcode.Spacing
