import Pcode.Proofs.Spacing.Gap.Probe

set_option autoImplicit false

/-! # Spacing and gaps

A rule keeps a firm gap of a line: in the lead nothing changes, inside of what is found the probe
keeps it, and between the two there is no firm gap, for it would be in front of a symbol or in front
of a literal or number. There the blanks belong to the lead, unless that is empty
(`Rule.cut?_keepsGaps_of_symbolic`, `Rule.cut?_keepsGaps_of_operand`).

A part of a line that begins with blanks stands right of a symbol or a literal, so that a gap at its
start is firm for the part if it is for the line (`Firm.start`).

Main statement: cutting to the end keeps the firm gaps (`gap_format`). -/

namespace Pcode.Spacing

open Pcode.Text

/-! ## Cuts -/

/-- A cut keeps the firm gaps of a text, and its right part begins with blanks only after a middle
that does not end in a name or number. -/
structure Cut.KeepsGaps (c : Cut) (s : List Char) : Prop where
  gap : ∀ u v, Gap u v s → Firm u.getLast? v.head? → Gap u v (c.left ++ c.mid ++ c.right)
  right : ∀ v, Gap [] v c.right → ∃ z ∈ (ink c.mid).getLast?, isWord z = false

theorem ink_pad (b : Bool) : ink (if b then [' '] else []) = [] := by
  cases b
  · rfl
  · rfl

/-- A rule keeps a firm gap if its probe does, in the text right of the lead. -/
theorem Rule.cut?_gap {r : Rule} (hr : Probe.Respaces r.probe) {s : List Char} {c : Cut}
    (hs : '\n' ∉ s) (h : r.cut? s = some c)
    (hfound : ∀ lead t f u v, r.split? s = some (lead, f) → s = lead ++ t → r.probe t = some f →
      Gap u v t → Firm (ink lead ++ u).getLast? v.head? → Gap u v (f.head ++ f.mid ++ f.right))
    (u v : List Char) (hgap : Gap u v s) (hfirm : Firm u.getLast? v.head?) :
    Gap u v (c.left ++ c.mid ++ c.right) := by
  obtain ⟨lead, t, f, hsplit, rfl, ht, rfl⟩ := Rule.cut?_eq_some h
  have hline : '\n' ∉ t := fun hmem => hs (List.mem_append_right lead hmem)
  have hplain : Gap u v (lead ++ (f.head ++ f.mid ++ f.right)) := by
    rcases hgap.of_append with ⟨v', rfl, hlead⟩ | ⟨u', rfl, hrest⟩
    · rw [← (hr t f hline ht).ink_eq]
      exact hlead.append_right _
    · exact (hfound lead t f u' v hsplit rfl ht hrest hfirm).append_left lead
  -- the blanks that are added stand on both sides of the middle
  have hleft : Gap u v (lead ++ f.head ++ (if r.padLeft then [' '] else []) ++
      (f.mid ++ f.right)) := by
    apply Gap.insert _ (ink_pad r.padLeft)
    simpa only [List.append_assoc] using hplain
  have hboth : Gap u v (lead ++ f.head ++ (if r.padLeft then [' '] else []) ++ f.mid ++
      (if r.padRight then [' '] else []) ++ f.right) := by
    apply Gap.insert _ (ink_pad r.padRight)
    simpa only [List.append_assoc] using hleft
  simpa only [List.append_assoc] using hboth

/-- There is no firm gap in front of a symbol. -/
theorem Probe.Starts.gap_of_symbol {p : Probe} (hstarts : p.Starts (· ∈ symbolChars))
    (hkeeps : p.Keeps) {lead t u v : List Char} {f : Found} (hline : '\n' ∉ t)
    (ht : p t = some f) (hgap : Gap u v t) (hfirm : Firm (ink lead ++ u).getLast? v.head?) :
    Gap u v (f.head ++ f.mid ++ f.right) := by
  by_cases hu : u = []
  · subst hu
    obtain ⟨c, hc, hsymbol⟩ := hstarts t f ht
    rw [hgap.ink_eq] at hc
    have hoperand := hfirm.after c hc
    rw [(of_mem_symbolChars hsymbol).1] at hoperand
    cases hoperand
  · exact hkeeps t f u v hline ht hgap hu (hfirm.of_getLast? hu)

theorem Rule.cut?_keepsGaps_of_symbolic {r : Rule} (hr : Probe.Respaces r.probe)
    (hsymbolic : Probe.Symbolic r.probe) {s : List Char} {c : Cut} (hs : '\n' ∉ s)
    (h : r.cut? s = some c) : c.KeepsGaps s where
  gap := by
    apply Rule.cut?_gap hr hs h
    rintro lead t f u v - rfl ht
    exact hsymbolic.starts.gap_of_symbol hsymbolic.keeps
      (fun hmem => hs (List.mem_append_right lead hmem)) ht
  right := by
    intro v _
    obtain ⟨lead, t, f, -, -, ht, rfl⟩ := Rule.cut?_eq_some h
    exact hsymbolic.endsBreak t f ht

/-- The blanks in front of a literal or number belong to the lead, or are at the start. -/
theorem Rule.split?_operand {r : Rule} (hoperand : Probe.Operand r.probe)
    (hends : ∀ c, isBlank c = true → r.ends c = true) {s lead : List Char} {f : Found}
    (hs : '\n' ∉ s) (h : r.split? s = some (lead, f)) :
    lead = [] ∨ ∃ t, s = lead ++ t ∧ BeginsInk t := by
  have hnil : r.probe [] = none := by
    cases hfound : r.probe [] with
    | none => rfl
    | some f =>
        obtain ⟨c, hc, -⟩ := hoperand.starts [] f hfound
        cases hc
  rw [Rule.split?] at h
  split at h
  · cases h
    exact Or.inl rfl
  · obtain ⟨t, ht, -, hink⟩ := lastSplit_beginsInk hs hends hoperand.skips hnil h
    exact Or.inr ⟨t, ht, hink⟩

theorem Rule.cut?_keepsGaps_of_operand {r : Rule} (hr : Probe.Respaces r.probe)
    (hoperand : Probe.Operand r.probe) (hends : ∀ c, isBlank c = true → r.ends c = true)
    (hpad : r.padRight = false) {s : List Char} {c : Cut} (hs : '\n' ∉ s)
    (h : r.cut? s = some c) : c.KeepsGaps s where
  gap := by
    apply Rule.cut?_gap hr hs h
    rintro lead t f u v hsplit rfl ht hgap hfirm
    have hline : '\n' ∉ t := fun hmem => hs (List.mem_append_right lead hmem)
    by_cases hu : u = []
    · subst hu
      rcases Rule.split?_operand hoperand hends hs hsplit with rfl | ⟨t', ht', hink⟩
      · -- at the start of a text no quote or digit is firm
        obtain ⟨c, hc, hkind⟩ := hoperand.starts t f ht
        rw [hgap.ink_eq] at hc
        obtain ⟨hquote, hdecimal⟩ := hfirm.kept (by simp) c hc
        rcases hkind with hkind | hkind
        · rw [hquote] at hkind
          cases hkind
        · rw [hdecimal] at hkind
          cases hkind
      · obtain rfl := List.append_cancel_left ht'
        exact absurd hgap (Gap.not_of_beginsInk hink)
    · exact hoperand.keeps t f u v hline ht hgap hu (hfirm.of_getLast? hu)
  right := by
    intro v hgap
    obtain ⟨lead, t, f, -, -, ht, rfl⟩ := Rule.cut?_eq_some h
    rw [hpad] at hgap
    exact hoperand.right t f v ht hgap

/-! ## All cuts -/

theorem isBeforeLiteral_of_isBlank {c : Char} (h : isBlank c = true) :
    isBeforeLiteral c = true := by
  simp [isBeforeLiteral, h]

theorem isBreak_of_isBlank {c : Char} (h : isBlank c = true) : isBreak c = true := by
  rw [isBreak, isWord_of_isBlank h]
  rfl

theorem literalCut?_keepsGaps {s : List Char} {c : Cut} (hs : '\n' ∉ s)
    (h : literalCut? s = some c) : c.KeepsGaps s := by
  have hends : ∀ c, isBlank c = true → isBeforeLiteral c = true := fun _ =>
    isBeforeLiteral_of_isBlank
  rcases literalCut?_eq_some h with h | h
  · exact Rule.cut?_keepsGaps_of_operand singleQuoted_takesLiteral.exact.respaces
      singleQuoted_operand hends rfl hs h
  · exact Rule.cut?_keepsGaps_of_operand doubleQuoted_takesLiteral.exact.respaces
      doubleQuoted_operand hends rfl hs h

theorem comment_starts : Probe.Starts comment (· ∈ symbolChars) := by
  intro t f h
  obtain ⟨u, hskip, -⟩ := comment_eq_some h
  exact ⟨'%', head?_ink hskip, by decide⟩

theorem commentCut?_keepsGaps {s : List Char} {c : Cut} (hs : '\n' ∉ s)
    (h : commentCut? s = some c) : c.KeepsGaps s := by
  have hright := right_of_commentCut? h
  obtain ⟨d, hd, rfl⟩ := Option.map_eq_some_iff.1 h
  constructor
  · apply Rule.cut?_gap comment_exact.respaces hs hd
    rintro lead t f u v - rfl ht
    exact comment_starts.gap_of_symbol comment_exact.keeps
      (fun hmem => hs (List.mem_append_right lead hmem)) ht
  · intro v hgap
    rw [hright] at hgap
    exact absurd hgap (Gap.not_of_ink (by simp))

/-- The rules for code are for numbers or for symbols. -/
theorem inkRules_cases : ∀ r ∈ inkRules, Probe.Symbolic r.probe ∨
    (r.probe = scientific ∨ r.probe = ratio) ∧ r.ends = isBreak ∧ r.padRight = false := by
  intro r hr
  simp only [inkRules, List.mem_cons, List.not_mem_nil, or_false] at hr
  rcases hr with rfl | rfl | rfl | rfl | rfl | rfl | rfl | rfl | rfl | rfl | rfl | rfl | rfl | rfl |
    rfl | rfl
  · exact Or.inr ⟨Or.inl rfl, rfl, rfl⟩
  · exact Or.inr ⟨Or.inr rfl, rfl, rfl⟩
  · exact Or.inl (increment_takesSymbols.symbolic (by simp)
      (by simp [AreSymbols, isSign, symbolChars, or_imp, forall_and]))
  · exact Or.inl (unarySign_takesSymbols.symbolic (by simp)
      (by simp [AreSymbols, isSign, symbolChars, or_imp, forall_and]))
  · exact Or.inl ((operator_takesSymbols _).symbolic (by simp) (by simp [AreSymbols, symbolChars]))
  · exact Or.inl ((operator_takesSymbols _).symbolic (by simp)
      (by simp [AreSymbols, isSign, symbolChars, or_imp, forall_and]))
  · exact Or.inl ((operator_takesSymbols _).symbolic (by simp) (by simp [AreSymbols, symbolChars]))
  · exact Or.inl ((operator_takesSymbols _).symbolic (by simp) (by simp [AreSymbols, symbolChars]))
  · exact Or.inl ((operator_takesSymbols _).symbolic (by simp)
      (by simp [AreSymbols, isPairHead, isPairTail, symbolChars, or_imp, forall_and]))
  · exact Or.inl ((operator_takesSymbols _).symbolic (by simp)
      (by simp [AreSymbols, symbolChars, or_imp, forall_and]))
  · exact Or.inl ((operator_takesSymbols _).symbolic (by simp)
      (by simp [AreSymbols, isOperator, symbolChars, or_imp, forall_and]))
  · exact Or.inl (callOpening_takesSymbols.symbolic (by simp)
      (by simp [AreSymbols, isOpening, symbolChars, or_imp, forall_and]))
  · exact Or.inl (opening_takesSymbols.symbolic (by simp)
      (by simp [AreSymbols, isOpening, symbolChars, or_imp, forall_and]))
  · exact Or.inl (closing_takesSymbols.symbolic (by simp)
      (by simp [AreSymbols, isClosing, symbolChars, or_imp, forall_and]))
  · exact Or.inl ((operator_takesSymbols _).symbolic (by simp)
      (by simp [AreSymbols, symbolChars, or_imp, forall_and]))
  · exact Or.inl (ellipsis_takesSymbols.symbolic (by simp) (by simp [AreSymbols, symbolChars]))

theorem inkRules_keepsGaps : ∀ r ∈ inkRules, ∀ s c, '\n' ∉ s → r.cut? s = some c →
    c.KeepsGaps s := by
  intro r hr s c hs h
  have hrespaces := inkRules_respaces r hr
  rcases inkRules_cases r hr with hsymbolic | ⟨hprobe, hends, hpad⟩
  · exact Rule.cut?_keepsGaps_of_symbolic hrespaces hsymbolic hs h
  · have hoperand : Probe.Operand r.probe := by
      rcases hprobe with hprobe | hprobe
      · rw [hprobe]
        exact scientific_operand
      · rw [hprobe]
        exact ratio_operand
    have hblank : ∀ c, isBlank c = true → r.ends c = true := by
      intro c hc
      rw [hends]
      exact isBreak_of_isBlank hc
    exact Rule.cut?_keepsGaps_of_operand hrespaces hoperand hblank hpad hs h

theorem blankRunRule_keepsGaps {s : List Char} {c : Cut} (hs : '\n' ∉ s)
    (h : blankRunRule.cut? s = some c) : c.KeepsGaps s := by
  constructor
  · apply Rule.cut?_gap (r := blankRunRule) blankRun_respaces hs h
    rintro lead t f u v - rfl ht hgap -
    obtain ⟨-, rfl⟩ := blankRun_eq_some ht
    have hline : '\n' ∉ t := fun hmem => hs (List.mem_append_right lead hmem)
    show Gap u v (' ' :: remainder t)
    rw [remainder_eq hline]
    by_cases hu : u = []
    · -- the blank that is left is the gap
      subst hu
      have hink : ink (skipBlanks t) = v := by rw [ink_skipBlanks, hgap.ink_eq, List.nil_append]
      rw [← hink]
      exact Gap.cons (by decide) _
    · exact (hgap.skipBlanks hu).append_left [' ']
  · intro v hgap
    obtain ⟨lead, t, f, -, rfl, ht, rfl⟩ := Rule.cut?_eq_some h
    obtain ⟨-, rfl⟩ := blankRun_eq_some ht
    have hline : '\n' ∉ t := fun hmem => hs (List.mem_append_right lead hmem)
    change Gap [] v (remainder t) at hgap
    rw [remainder_eq hline] at hgap
    cases hskip : skipBlanks t with
    | nil =>
        rw [hskip] at hgap
        exact absurd hgap (Gap.not_of_ink (by simp))
    | cons d w =>
        rw [hskip] at hgap
        have hd := isBlank_of_skipBlanks_eq_cons hskip
        exact absurd hgap (Gap.not_of_beginsInk ⟨d, rfl, hd⟩)

theorem blank_keepsGaps {s : List Char} (hs : s.all isBlank = true) :
    Cut.KeepsGaps ⟨[], [' '], [], false⟩ s where
  gap := by
    intro u v hgap _
    have hink : ink s = [] := (ink_eq_nil_iff s).2 hs
    rw [hgap.ink_eq] at hink
    obtain ⟨rfl, rfl⟩ := List.append_eq_nil_iff.1 hink
    exact Gap.cons (by decide) []
  right := by
    intro v hgap
    exact absurd hgap (Gap.not_of_ink (by simp))

theorem cut?_keepsGaps {s : List Char} {c : Cut} (hs : '\n' ∉ s) (h : cut? s = some c) :
    c.KeepsGaps s := by
  rcases cut?_eq_some h with ⟨hblank, rfl⟩ | hliteral | hcomment | ⟨r, hr, hrule⟩ | hrun
  · exact blank_keepsGaps hblank
  · exact literalCut?_keepsGaps hs hliteral
  · exact commentCut?_keepsGaps hs hcomment
  · exact inkRules_keepsGaps r hr s c hs hrule
  · exact blankRunRule_keepsGaps hs hrun

/-! ## Cutting to the end -/

/-- **Spacing keeps firm gaps.** -/
theorem gap_format {s u v : List Char} (hs : '\n' ∉ s) (hgap : Gap u v s)
    (hfirm : Firm u.getLast? v.head?) : Gap u v (format s) := by
  induction s using Cutter.tree.induct spacing generalizing u v with
  | case1 s huncut =>
      rw [format_of_uncut huncut]
      exact hgap
  | case2 s c hcut _ ihleft ihright =>
      have hkeeps := cut?_keepsGaps hs hcut
      obtain ⟨hleft, hright⟩ := (cut?_respaces hs hcut).sides hs
      have hinkleft : ink (format c.left) = ink c.left := (respaced_format hleft).ink_eq
      have hinkright : ink (format c.right) = ink c.right := (respaced_format hright).ink_eq
      rw [format_of_cut hcut]
      rcases (hkeeps.gap u v hgap hfirm).of_append with ⟨v', rfl, hinner⟩ | ⟨u', rfl, hinner⟩
      · rw [← hinkright]
        apply Gap.append_right
        rcases hinner.of_append with ⟨v'', rfl, hleftmost⟩ | ⟨u', rfl, hmid⟩
        · exact (ihleft hleft hleftmost hfirm.of_append.of_append).append_right c.mid
        · rw [← hinkleft]
          exact hmid.append_left (format c.left)
      · have hfirm' : Firm u'.getLast? v.head? := by
          by_cases hu : u' = []
          · -- the part begins with blanks, after a symbol or a literal
            subst hu
            obtain ⟨z, hz, hword⟩ := hkeeps.right v hinner
            have hlast : (ink (c.left ++ c.mid) ++ []).getLast? = some z := by
              rw [List.append_nil, ink_append, List.getLast?_append, hz, Option.some_or]
            rw [hlast] at hfirm
            exact hfirm.start hword
          · exact hfirm.of_getLast? hu
        have hlead : ink (format c.left ++ c.mid) = ink (c.left ++ c.mid) := by
          rw [ink_append, ink_append, hinkleft]
        rw [← hlead]
        exact (ihright hright hinner hfirm').append_left _

end Pcode.Spacing
