import Mathlib.Data.List.Chain
import Pcode.Proofs.Spacing.Sign.Tree
import Pcode.Proofs.Spacing.Trailing.Tree

set_option autoImplicit false

/-! # No blank beside a blank

A text is *tight* if no two blanks of it are neighbours. A rule for code puts ink between the parts
of a text, so that the result is tight if the parts are. Where a run of blanks is cut out, a blank
stands between the parts, and what matters is how they end and begin. By then the text is *quiet*:
no rule for code finds anything, so there is no symbol in it but single dots
(`quiet_of_inkRules`). Of the rules for code only the one for numbers with an exponent can find
something in a part of a quiet text (`Quiet.rule_eq`), and it adds no blank.

Main statement: code with its spacing in order is tight (`tight_format`, and spelled out
`format_no_blank_pair`). -/

namespace Pcode.Text

theorem BeginsInk.of_append {s t : List Char} (h : BeginsInk (s ++ t)) (hs : s ≠ []) :
    BeginsInk s := by
  obtain ⟨c, r, heq, hc⟩ := h.exists_cons
  cases s with
  | nil => exact absurd rfl hs
  | cons d s =>
      obtain ⟨rfl, -⟩ := List.cons.inj heq
      exact ⟨d, rfl, hc⟩

/-- A text that begins with ink has no blanks in front. -/
theorem BeginsInk.eq_nil_of_blanks {g s : List Char} (h : BeginsInk (g ++ s))
    (hg : g.all isBlank = true) : g = [] := by
  cases g with
  | nil => rfl
  | cons d g =>
      obtain ⟨c, hc, hink⟩ := h
      obtain rfl : d = c := Option.some.inj hc
      simp [hink] at hg

end Pcode.Text

namespace Pcode.Spacing

open Pcode.Text

/-! ## Tight texts -/

/-- No two neighbours are blanks. -/
def Tight (s : List Char) : Prop :=
  s.IsChain fun c d => isBlank c = false ∨ isBlank d = false

instance (s : List Char) : Decidable (Tight s) :=
  inferInstanceAs (Decidable (s.IsChain fun c d => isBlank c = false ∨ isBlank d = false))

theorem tight_iff {s : List Char} :
    Tight s ↔ ∀ u v c d, s = u ++ c :: d :: v → isBlank c = false ∨ isBlank d = false := by
  rw [Tight, List.isChain_iff_forall_rel_of_append_cons_cons]
  constructor
  · intro h u v c d hs
    exact h hs
  · intro h c d u v hs
    exact h u v c d hs

namespace Tight

variable {s t : List Char}

theorem append (hs : Tight s) (ht : Tight t)
    (hseam : ∀ c ∈ s.getLast?, ∀ d ∈ t.head?, isBlank c = false ∨ isBlank d = false) :
    Tight (s ++ t) :=
  List.isChain_append.2 ⟨hs, ht, hseam⟩

theorem of_ink {m : List Char} (hm : ∀ c ∈ m, isBlank c = false) : Tight m := by
  rw [tight_iff]
  intro u v c d hs
  exact Or.inl (hm c (by simp [hs]))

/-- Tight texts with ink between them. -/
theorem append_ink {m : List Char} (hs : Tight s) (ht : Tight t) (hne : m ≠ [])
    (hm : ∀ c ∈ m, isBlank c = false) : Tight (s ++ m ++ t) := by
  apply (hs.append (of_ink hm) _).append ht
  · intro c hc d _
    rw [List.getLast?_append_of_ne_nil s hne] at hc
    exact Or.inl (hm c (List.mem_of_getLast? hc))
  · intro c _ d hd
    exact Or.inr (hm d (List.mem_of_head? hd))

end Tight

/-- A text without runs of blanks is tight. -/
theorem tight_of_blankRunRule {s : List Char} (hs : '\n' ∉ s) (h : blankRunRule.cut? s = none) :
    Tight s := by
  rw [tight_iff]
  rintro u v c d rfl
  by_contra hblank
  obtain ⟨hc, hd⟩ : isBlank c = true ∧ isBlank d = true := by simpa using hblank
  have hfound : ∀ g, g.all isBlank = true → blankRun (g ++ c :: d :: v) ≠ none := by
    intro g hg
    have hrun : 2 ≤ ((g ++ c :: d :: v).takeWhile isBlank).length := by
      rw [List.takeWhile_append_of_pos (List.all_eq_true.1 hg), List.takeWhile_cons_of_pos hc,
        List.takeWhile_cons_of_pos hd]
      simp only [List.length_append, List.length_cons]
      omega
    simp [blankRun, hrun]
  exact Rule.cut?_ne_none_of_blanks (r := blankRunRule) rfl rfl
    (fun hmem => hs (List.mem_append_left _ hmem)) hfound h

/-! ## Quiet texts -/

/-- The characters that a rule for code finds wherever they stand. -/
def loudChars : List Char :=
  [':', '+', '-', '*', '\\', '/', '=', '!', '~', '<', '>', '|', '&', '^', ',', ';', '(', '[', '{',
    ')', ']', '}']

theorem isBlank_of_mem_loudChars {c : Char} (h : c ∈ loudChars) : isBlank c = false := by
  have hall : ∀ c ∈ loudChars, (!isBlank c) = true := List.all_eq_true.1 (by decide)
  simpa using hall c h

/-- A text without symbols, single dots apart. -/
structure Quiet (s : List Char) : Prop where
  loud : ∀ c ∈ loudChars, c ∉ s
  dots : ¬['.', '.', '.'] <:+: s

theorem Quiet.of_infix {s t : List Char} (hs : Quiet s) (h : t <:+: s) : Quiet t where
  loud := fun c hc hmem => hs.loud c hc (h.subset hmem)
  dots := fun hdots => hs.dots (hdots.trans h)

theorem opening_cut?_ne_none {v w : List Char} {x : Char} (hv : '\n' ∉ v)
    (hx : isOpening x = true) :
    Rule.cut? ⟨true, (· != '\n'), opening, false, false⟩ (v ++ x :: w) ≠ none := by
  have hfound : opening (x :: w) = some ⟨[], [x], remainder w⟩ := by simp [opening, hx]
  apply Rule.cut?_ne_none
  rcases List.eq_nil_or_concat' v with rfl | ⟨u, d, rfl⟩
  · exact Or.inl ⟨rfl, by simp [hfound]⟩
  · refine Or.inr ?_
    rw [List.append_assoc]
    refine lastSplit_ne_none (fun hmem => hv (List.mem_append_left _ hmem)) ?_ hfound
    have hd : d ≠ '\n' := fun heq => hv (by simp [heq])
    simpa using hd

/-- A rule finds a loud character. -/
theorem exists_rule_of_loud {s : List Char} {x : Char} (hs : Code s) (hx : x ∈ loudChars)
    (hmem : x ∈ s) : ∃ r ∈ inkRules, r.cut? s ≠ none := by
  obtain ⟨v, w, rfl⟩ := List.append_of_mem hmem
  have hline : '\n' ∉ v := fun h => hs.newline_not_mem (List.mem_append_left _ h)
  have hink := isBlank_of_mem_loudChars hx
  have hclass : ∀ c ∈ loudChars, (c == ':' || c == '^' || isOperator c || (c == ',' || c == ';') ||
      isOpening c || isClosing c) = true := List.all_eq_true.1 (by decide)
  have hkind := hclass x hx
  rw [Bool.or_eq_true, Bool.or_eq_true, Bool.or_eq_true, Bool.or_eq_true, Bool.or_eq_true] at hkind
  rcases hkind with ((((hcolon | hpower) | hoperator) | hcomma) | hopening) | hclosing
  · exact ⟨⟨true, isInk, operator [(· == ':')], false, false⟩, by simp [inkRules],
      Rule.cut?_ne_none_of_blanks rfl rfl hline (operator_ne_none_of_blanks hink hcolon)⟩
  · exact ⟨⟨true, isInk, operator [(· == '^')], false, false⟩, by simp [inkRules],
      Rule.cut?_ne_none_of_blanks rfl rfl hline (operator_ne_none_of_blanks hink hpower)⟩
  · exact ⟨⟨true, isInk, operator [isOperator], true, true⟩, by simp [inkRules],
      Rule.cut?_ne_none_of_blanks rfl rfl hline (operator_ne_none_of_blanks hink hoperator)⟩
  · exact ⟨⟨true, isInk, operator [fun c => c == ',' || c == ';'], false, true⟩, by simp [inkRules],
      Rule.cut?_ne_none_of_blanks rfl rfl hline (operator_ne_none_of_blanks hink hcomma)⟩
  · exact ⟨⟨true, (· != '\n'), opening, false, false⟩, by simp [inkRules],
      opening_cut?_ne_none hline hopening⟩
  · refine ⟨⟨true, isInk, closing, false, false⟩, by simp [inkRules],
      Rule.cut?_ne_none_of_blanks rfl rfl hline fun g hg => ?_⟩
    simp only [closing, symbols?_of_blanks hg hink hclosing]
    simp

theorem exists_rule_of_dots {s : List Char} (hs : Code s) (hdots : ['.', '.', '.'] <:+: s) :
    ∃ r ∈ inkRules, r.cut? s ≠ none := by
  obtain ⟨v, w, rfl⟩ := hdots
  have hline : '\n' ∉ v := fun h => hs.newline_not_mem (by simp [h])
  refine ⟨⟨true, isInk, ellipsis, true, true⟩, by simp [inkRules], ?_⟩
  rw [List.append_assoc]
  refine Rule.cut?_ne_none_of_blanks rfl rfl hline fun g hg => ?_
  have hskip : skipBlanks (g ++ '.' :: '.' :: '.' :: w) = '.' :: '.' :: '.' :: w := by
    rw [skipBlanks_append_of_blank hg]
    exact BeginsInk.skipBlanks_eq ⟨'.', rfl, by decide⟩
  show ellipsis (g ++ '.' :: '.' :: '.' :: w) ≠ none
  simp [ellipsis, hskip]

/-- Where no rule for code finds anything, there is nothing to find. -/
theorem quiet_of_inkRules {s : List Char} (hs : Code s)
    (h : (inkRules.findSome? fun r => r.cut? s) = none) : Quiet s := by
  have hnone := List.findSome?_eq_none_iff.1 h
  constructor
  · intro x hx hmem
    obtain ⟨r, hr, hfound⟩ := exists_rule_of_loud hs hx hmem
    exact hfound (hnone r hr)
  · intro hdots
    obtain ⟨r, hr, hfound⟩ := exists_rule_of_dots hs hdots
    exact hfound (hnone r hr)

/-! ## Cuts of quiet texts -/

/-- Symbols end in one of the last class. -/
theorem symbols?_last {ps : List (Char → Bool)} {q : Char → Bool} {s m r : List Char}
    (h : symbols? (ps ++ [q]) s = some (m, r)) : ∃ x ∈ m, q x = true := by
  induction ps generalizing s m with
  | nil =>
      rw [List.nil_append] at h
      obtain ⟨hlength, hmem⟩ := of_symbols? h
      obtain ⟨x, rfl⟩ := List.length_eq_one_iff.1 hlength
      obtain ⟨-, q', hq', hx⟩ := hmem x List.mem_cons_self
      rw [List.mem_singleton.1 hq'] at hx
      exact ⟨x, List.mem_cons_self, hx⟩
  | cons p ps ih =>
      obtain ⟨c, t, m', -, -, hq, rfl⟩ := symbols?_cons_eq_some h
      obtain ⟨x, hx, hclass⟩ := ih hq
      exact ⟨x, List.mem_cons_of_mem c hx, hclass⟩

/-- A probe takes a loud character or three dots. -/
def Probe.Loud (p : Probe) : Prop :=
  ∀ t f, '\n' ∉ t → p t = some f → (∃ x ∈ loudChars, x ∈ t) ∨ ['.', '.', '.'] <:+: t

theorem Probe.TakesSymbols.isLoud {p : Probe} (ps : List (Char → Bool)) {q : Char → Bool}
    (h : p.TakesSymbols (ps ++ [q])) (hq : ∀ c, q c = true → c ∈ loudChars) : p.Loud := by
  intro t f ht hf
  obtain ⟨r, hsymbols, -⟩ := h t f hf
  obtain ⟨x, hx, hclass⟩ := symbols?_last hsymbols
  have hloud := hq x hclass
  have hink := isBlank_of_mem_loudChars hloud
  refine Or.inl ⟨x, hloud, ?_⟩
  have hpieces := (respaced_symbols? hsymbols).mem x (List.mem_append_left r hx)
  rcases hpieces with hmem | rfl
  · exact hmem
  · cases hink

theorem ratio_isLoud : Probe.Loud ratio := by
  intro t f ht h
  obtain ⟨u, r, hf⟩ := ratio_eq_some h
  rcases (ratio_respaces t f ht h).mem '/' (by simp [hf.mid]) with hmem | heq
  · exact Or.inl ⟨'/', by decide, hmem⟩
  · exact absurd heq (by decide)

theorem ellipsis_isLoud : Probe.Loud ellipsis := by
  intro t f _ h
  obtain ⟨r, hskip, -⟩ := ellipsis_eq_some h
  have hsuffix : ('.' :: '.' :: '.' :: r) <:+ t := by
    rw [← hskip]
    exact List.dropWhile_suffix isBlank
  exact Or.inr (List.IsInfix.trans ⟨[], r, rfl⟩ hsuffix.isInfix)

/-- All rules for code but the one for numbers with an exponent. -/
theorem inkRules_isLoud : ∀ r ∈ inkRules.tail, Probe.Loud r.probe := by
  intro r hr
  simp only [inkRules, List.tail_cons, List.mem_cons, List.not_mem_nil, or_false] at hr
  rcases hr with rfl | rfl | rfl | rfl | rfl | rfl | rfl | rfl | rfl | rfl | rfl | rfl | rfl | rfl |
    rfl
  · exact ratio_isLoud
  · exact increment_takesSymbols.isLoud [isSign]
      (by simp [isSign, loudChars, or_imp, forall_and])
  · exact unarySign_takesSymbols.isLoud []
      (by simp [isSign, loudChars, or_imp, forall_and])
  · exact (operator_takesSymbols _).isLoud [] (by simp [loudChars])
  · exact (operator_takesSymbols _).isLoud [_, _] (by simp [loudChars])
  · exact (operator_takesSymbols _).isLoud [_] (by simp [loudChars])
  · exact (operator_takesSymbols _).isLoud [] (by simp [loudChars])
  · exact (operator_takesSymbols _).isLoud [isPairHead]
      (by simp [isPairTail, loudChars, or_imp, forall_and])
  · exact (operator_takesSymbols _).isLoud [] (by simp [loudChars, or_imp, forall_and])
  · exact (operator_takesSymbols _).isLoud []
      (by simp [isOperator, loudChars, or_imp, forall_and])
  · exact callOpening_takesSymbols.isLoud []
      (by simp [isOpening, loudChars, or_imp, forall_and])
  · exact opening_takesSymbols.isLoud []
      (by simp [isOpening, loudChars, or_imp, forall_and])
  · exact closing_takesSymbols.isLoud []
      (by simp [isClosing, loudChars, or_imp, forall_and])
  · exact (operator_takesSymbols _).isLoud [] (by simp [loudChars, or_imp, forall_and])
  · exact ellipsis_isLoud

/-- The rule for numbers with an exponent. -/
def exponentRule : Rule := ⟨true, isBreak, scientific, false, false⟩

theorem Quiet.rule_eq {s : List Char} (hline : '\n' ∉ s) (hs : Quiet s) {r : Rule}
    (hr : r ∈ inkRules) {c : Cut} (h : r.cut? s = some c) : r = exponentRule := by
  rcases List.mem_cons.1 (show r ∈ exponentRule :: inkRules.tail from hr) with heq | htail
  · exact heq
  · obtain ⟨lead, t, f, -, rfl, ht, -⟩ := Rule.cut?_eq_some h
    rcases inkRules_isLoud r htail t f (fun hmem => hline (by simp [hmem])) ht with
      ⟨x, hx, hmem⟩ | hdots
    · exact absurd (List.mem_append_right lead hmem) (hs.loud x hx)
    · exact absurd (hdots.trans (List.suffix_append lead t).isInfix) hs.dots

theorem Quiet.cut?_cases {s : List Char} (hcode : Code s) (hs : Quiet s)
    (hink : s.all isBlank = false) {c : Cut} (h : cut? s = some c) :
    exponentRule.cut? s = some c ∨ blankRunRule.cut? s = some c := by
  rcases hcode.cut?_cases hink h with ⟨r, hr, hrule⟩ | hrun
  · rw [hs.rule_eq hcode.newline_not_mem hr hrule] at hrule
    exact Or.inl hrule
  · exact Or.inr hrun

theorem scientific_sides {t : List Char} {f : Found} (h : scientific t = some f) :
    f.head ≠ [] ∧ BeginsInk f.right := by
  obtain ⟨r, hf⟩ := scientific_eq_some h
  obtain ⟨d, hd, -⟩ := hf.digit
  refine ⟨fun hnil => ?_, ?_⟩
  · rw [hnil] at hd
    cases hd
  · rw [hf.right]
    exact beginsInk_firstLine (beginsInk_of_decimal hf.exponent)

/-- A number with an exponent is cut where it stands, and nothing is added. -/
theorem exponentRule_cut? {s : List Char} {c : Cut} (hs : '\n' ∉ s)
    (h : exponentRule.cut? s = some c) :
    ∃ g, s = g ++ (c.left ++ c.mid ++ c.right) ∧ g.all isBlank = true ∧ c.left ≠ [] ∧
      BeginsInk c.right := by
  obtain ⟨lead, t, f, hsplit, rfl, ht, rfl⟩ := Rule.cut?_eq_some h
  have hline : '\n' ∉ t := fun hmem => hs (List.mem_append_right lead hmem)
  have hpieces : f.head ++ f.mid ++ f.right = skipBlanks t := scientific_exact t f hline ht
  obtain ⟨hhead, hright⟩ := scientific_sides ht
  simp only [exponentRule, Bool.false_eq_true, if_false, List.append_nil, List.nil_append]
  rw [Rule.split?] at hsplit
  split at hsplit
  · cases hsplit
    refine ⟨t.takeWhile isBlank, ?_, ?_, by simp [hhead], hright⟩
    · rw [List.nil_append, List.nil_append, hpieces, skipBlanks, List.takeWhile_append_dropWhile]
    · exact List.all_eq_true.2 fun c hc => List.mem_takeWhile_imp hc
  · -- the blanks in front of the number belong to the lead
    have hbreak : ∀ c, isBlank c = true → isBreak c = true := fun c hc => by
      rw [isBreak, isWord_of_isBlank hc]
      rfl
    obtain ⟨t', ht', -, hbegins⟩ :=
      lastSplit_beginsInk hs hbreak scientific_operand.skips (by decide) hsplit
    rw [← List.append_cancel_left ht'] at hbegins
    rw [hbegins.skipBlanks_eq] at hpieces
    refine ⟨[], ?_, rfl, by simp [hhead], hright⟩
    rw [← hpieces]
    simp only [List.append_assoc, List.nil_append]

/-- A run of blanks is cut out. -/
theorem blankRunRule_cut? {s : List Char} {c : Cut} (hs : '\n' ∉ s)
    (h : blankRunRule.cut? s = some c) :
    ∃ g, s = c.left ++ (g ++ c.right) ∧ g.all isBlank = true ∧ g ≠ [] ∧ c.mid = [' '] ∧
      (c.left = [] ∨ EndsInk c.left) ∧ (c.right = [] ∨ BeginsInk c.right) := by
  obtain ⟨lead, t, f, hsplit, rfl, ht, rfl⟩ := Rule.cut?_eq_some h
  have hline : '\n' ∉ t := fun hmem => hs (List.mem_append_right lead hmem)
  simp only [blankRunRule, blankRun] at ht
  split at ht
  · next hrun =>
      cases ht
      simp only [blankRunRule, Bool.false_eq_true, if_false, List.append_nil, List.nil_append,
        remainder_eq hline]
      refine ⟨t.takeWhile isBlank, ?_, ?_, ?_, trivial, ?_, ?_⟩
      · rw [skipBlanks, List.takeWhile_append_dropWhile]
      · exact List.all_eq_true.2 fun c hc => List.mem_takeWhile_imp hc
      · rintro hnil
        simp [hnil] at hrun
      · refine (Rule.split?_lead hsplit).imp_right ?_
        rintro ⟨v, d, rfl, hd⟩
        exact ⟨v, d, rfl, by simpa [blankRunRule, isInk] using hd⟩
      · by_cases hall : t.all isBlank = true
        · exact Or.inl ((skipBlanks_eq_nil_iff t).2 hall)
        · exact Or.inr (beginsInk_skipBlanks (by simpa using hall))
  · cases ht

/-! ## The ends of quiet texts -/

/-- No blank is added in front of a quiet text. -/
theorem Quiet.beginsInk_format {s : List Char} (hcode : Code s) (hs : Quiet s)
    (hbegins : BeginsInk s) : BeginsInk (format s) := by
  induction s using Cutter.tree.induct spacing with
  | case1 s huncut => rwa [format_of_uncut huncut]
  | case2 s c hcut _ ihleft _ =>
      have hline := hcode.newline_not_mem
      have hleft := (hcode.sides hcut).1
      rw [format_of_cut hcut]
      rcases hs.cut?_cases hcode hbegins.all_eq_false hcut with hnumber | hrun
      · obtain ⟨g, hparts, hg, hne, -⟩ := exponentRule_cut? hline hnumber
        rw [hparts] at hbegins
        obtain rfl := hbegins.eq_nil_of_blanks hg
        rw [List.nil_append] at hparts hbegins
        have hfront : c.left <:+: s := ⟨[], c.mid ++ c.right, by rw [hparts]; simp⟩
        rw [List.append_assoc] at hbegins ⊢
        exact (ihleft hleft (hs.of_infix hfront) (hbegins.of_append hne)).append _
      · obtain ⟨g, hparts, hg, hne, -⟩ := blankRunRule_cut? hline hrun
        have hnonempty : c.left ≠ [] := by
          intro hnil
          rw [hparts, hnil, List.nil_append] at hbegins
          exact hne (hbegins.eq_nil_of_blanks hg)
        have hfront : c.left <:+: s := ⟨[], g ++ c.right, by rw [hparts]; simp⟩
        rw [hparts] at hbegins
        rw [List.append_assoc]
        exact (ihleft hleft (hs.of_infix hfront) (hbegins.of_append hnonempty)).append _

theorem EndsInk.append {t : List Char} (h : EndsInk t) (s : List Char) : EndsInk (s ++ t) := by
  obtain ⟨v, c, rfl, hc⟩ := h
  exact ⟨s ++ v, c, by simp, hc⟩

/-- No blank is added behind a quiet text. -/
theorem Quiet.endsInk_format {s : List Char} (hcode : Code s) (hs : Quiet s) (hends : EndsInk s) :
    EndsInk (format s) := by
  induction s using Cutter.tree.induct spacing with
  | case1 s huncut => rwa [format_of_uncut huncut]
  | case2 s c hcut _ _ ihright =>
      have hline := hcode.newline_not_mem
      have hright := (hcode.sides hcut).2
      have hsides : c.right <:+ s ∧ c.right ≠ [] := by
        rcases hs.cut?_cases hcode hends.all_eq_false hcut with hnumber | hrun
        · obtain ⟨g, hparts, -, -, hbegins⟩ := exponentRule_cut? hline hnumber
          obtain ⟨d, r, hdigits, -⟩ := hbegins.exists_cons
          exact ⟨⟨g ++ (c.left ++ c.mid), by rw [hparts]; simp⟩, by simp [hdigits]⟩
        · obtain ⟨g, hparts, hg, hne, -⟩ := blankRunRule_cut? hline hrun
          refine ⟨⟨c.left ++ g, by rw [hparts]; simp⟩, fun hnil => ?_⟩
          have hblank := (hends.of_suffix ⟨c.left, (by rw [hparts, hnil]; simp)⟩ hne).all_eq_false
          rw [hg] at hblank
          cases hblank
      obtain ⟨hsuffix, hne⟩ := hsides
      rw [format_of_cut hcut]
      exact (ihright hright (hs.of_infix hsuffix.isInfix) (hends.of_suffix hsuffix hne)).append _

/-! ## Tight spacing -/

theorem format_nil : format [] = [] := format_of_uncut rfl

/-- The middle of a cut by a rule for code is ink. -/
theorem inkRules_mid : ∀ r ∈ inkRules, ∀ s c, r.cut? s = some c →
    c.mid ≠ [] ∧ ∀ d ∈ c.mid, isBlank d = false := by
  intro r hr s c h
  obtain ⟨lead, t, f, -, -, ht, rfl⟩ := Rule.cut?_eq_some h
  refine ⟨fun hnil => ?_, fun d hd => ?_⟩
  · have hpos := (inkRules_takesInk r hr t f ht).1
    rw [show f.mid = [] from hnil] at hpos
    exact absurd hpos (by decide)
  · rcases inkRules_closers r hr with hinner | ⟨-, -, p, hsymbols⟩
    · exact (hinner.mid t f ht d hd).1
    · obtain ⟨u, hu, -⟩ := hsymbols t f ht
      exact ((of_symbols? hu).2 d hd).1

theorem cut?_of_blank {s : List Char} {c : Cut} (hs : s.all isBlank = true) (h : cut? s = some c) :
    c = ⟨[], [' '], [], false⟩ := by
  cases s with
  | nil => cases h
  | cons d s =>
      rw [cut?, if_pos (by rw [hs]; rfl)] at h
      exact (Option.some.inj h).symm

/-- Tight texts with one blank between them and no blank beside it. -/
theorem Tight.append_space {s t : List Char} (hs : Tight s) (ht : Tight t)
    (hends : s = [] ∨ EndsInk s) (hbegins : t = [] ∨ BeginsInk t) : Tight (s ++ [' '] ++ t) := by
  refine (hs.append (List.isChain_singleton ' ') fun d hd _ _ => ?_).append ht fun _ _ d hd => ?_
  · rcases hends with rfl | ⟨v, x, rfl, hx⟩
    · cases hd
    · rw [List.getLast?_concat] at hd
      cases hd
      exact Or.inl hx
  · rcases hbegins with rfl | ⟨x, hx, hink⟩
    · cases hd
    · obtain rfl := Option.some.inj (hd.symm.trans hx)
      exact Or.inr hink

theorem tight_format {s : List Char} (hs : Code s) : Tight (format s) := by
  induction s using Cutter.tree.induct spacing with
  | case1 s huncut =>
      have hcut : cut? s = none := huncut
      rw [format_of_uncut hcut]
      by_cases hink : s.all isBlank = true
      · cases s with
        | nil => exact List.isChain_nil
        | cons d s =>
            rw [cut?, if_pos (by rw [hink]; rfl)] at hcut
            cases hcut
      · rw [hs.cut?_eq (by simpa using hink), Option.or_eq_none_iff] at hcut
        exact tight_of_blankRunRule hs.newline_not_mem hcut.2
  | case2 s c hcut _ ihleft ihright =>
      obtain ⟨hleft, hright⟩ := hs.sides hcut
      rw [format_of_cut hcut]
      by_cases hink : s.all isBlank = true
      · rw [cut?_of_blank hink hcut, format_nil]
        decide
      · have hcut' : cut? s = some c := hcut
        rw [hs.cut?_eq (by simpa using hink), Option.or_eq_some_iff] at hcut'
        rcases hcut' with hrule | ⟨hnone, hrun⟩
        · obtain ⟨r, hr, hrule⟩ := List.exists_of_findSome?_eq_some hrule
          obtain ⟨hne, hmid⟩ := inkRules_mid r hr s c hrule
          exact (ihleft hleft).append_ink (ihright hright) hne hmid
        · have hquiet := quiet_of_inkRules hs hnone
          obtain ⟨g, hparts, -, -, hmid, hends, hbegins⟩ :=
            blankRunRule_cut? hs.newline_not_mem hrun
          have hquietLeft : Quiet c.left :=
            hquiet.of_infix ⟨[], g ++ c.right, by rw [hparts]; simp⟩
          have hquietRight : Quiet c.right :=
            hquiet.of_infix ⟨c.left ++ g, [], by rw [hparts]; simp⟩
          rw [hmid]
          exact (ihleft hleft).append_space (ihright hright)
            (hends.imp (fun hnil => by rw [hnil, format_nil]) (hquietLeft.endsInk_format hleft))
            (hbegins.imp (fun hnil => by rw [hnil, format_nil])
              (hquietRight.beginsInk_format hright))

/-- **Spacing in order has no two blanks side by side**: not in code, whose ink is all kept. -/
theorem format_no_blank_pair {s : List Char} (hs : Code s) :
    (∀ u v c d, format s = u ++ c :: d :: v → ¬(isBlank c = true ∧ isBlank d = true)) ∧
      ink (format s) = ink s := by
  refine ⟨fun u v c d hpair ⟨hc, hd⟩ => ?_, ink_format hs⟩
  rcases tight_iff.1 (tight_format hs) u v c d hpair with hink | hink
  · rw [hink] at hc
    cases hc
  · rw [hink] at hd
    cases hd

/-- Blanks of several kinds, at the ends, beside symbols and between words. -/
theorem format_no_blank_pair_row :
    Code "  [ a\t \x0bb  ;c   -  d ]  ".toList ∧
      format "  [ a\t \x0bb  ;c   -  d ]  ".toList = " [a b; c - d] ".toList ∧
      ∀ u v c d, format "  [ a\t \x0bb  ;c   -  d ]  ".toList = u ++ c :: d :: v →
        ¬(isBlank c = true ∧ isBlank d = true) :=
  ⟨by decide, format_of_formatWithin (n := 9) (by decide +kernel),
    (format_no_blank_pair (by decide)).1⟩

end Pcode.Spacing
