import Pcode.Proofs.Spacing.Lead
import Pcode.Proofs.Spacing.Trailing.Probe

set_option autoImplicit false

/-! # Spacing and blanks after a text

With blanks after a text rules find the same cuts up to some blanks on the right, and the cuts of
the right parts again differ in blanks at the end only. A run of blanks at the end of the text may
be cut off, which leaves the text in front of it.

Main statements: `similar_append` for the spacing of a text, and `leaves_append` for its code,
where some of the blanks are kept. -/

namespace Pcode.Spacing

open Pcode.Text

/-! ## Rules -/

/-- **The same lead is the longest**, whatever blanks follow the text. -/
theorem lastSplit_append {β : Type} {extend : List Char → β → β} {ends : Char → Bool}
    {probe : List Char → Option β} {s t : List Char} (hs : '\n' ∉ s)
    (hprobe : ∀ u, u <:+ s → Trailing extend t (probe u) (probe (u ++ t)))
    (hblank : ∀ u, u <:+ t → probe u = none) :
    Trailing (fun kept q => (q.1, extend kept q.2)) t (lastSplit ends probe s)
      (lastSplit ends probe (s ++ t)) := by
  induction s with
  | nil =>
      -- no lead reaches into the blanks, in which the probe finds nothing
      have hnone : lastSplit ends probe t = none := by
        cases t with
        | nil => rfl
        | cons c t =>
            exact lastSplit_eq_none (fun u hu => hblank u (hu.trans (List.suffix_cons c t))) c
      rw [List.nil_append, hnone]
      exact Trailing.none
  | cons c s ih =>
      have hc : c ≠ '\n' := fun heq => hs (heq ▸ List.mem_cons_self)
      have hrest : '\n' ∉ s := fun hmem => hs (List.mem_cons_of_mem c hmem)
      obtain ⟨kept, hkept, hsplit⟩ := ih hrest fun u hu =>
        hprobe u (hu.trans (List.suffix_cons c s))
      rw [List.cons_append, lastSplit, lastSplit, if_neg hc, if_neg hc, hsplit]
      cases lastSplit ends probe s with
      | some q => exact Trailing.some hkept rfl
      | none =>
          simp only [Option.map_none]
          split
          · obtain ⟨kept', hkept', hfound⟩ := hprobe s (List.suffix_cons c s)
            refine ⟨kept', hkept', ?_⟩
            rw [hfound, Option.map_map, Option.map_map]
            rfl
          · exact Trailing.none

theorem Rule.split?_append {extend : List Char → Found → Found} {r : Rule} {s t : List Char}
    (hs : '\n' ∉ s) (hprobe : ∀ u, u <:+ s → Trailing extend t (r.probe u) (r.probe (u ++ t)))
    (hblank : ∀ u, u <:+ t → r.probe u = none) :
    Trailing (fun kept q => (q.1, extend kept q.2)) t (r.split? s) (r.split? (s ++ t)) := by
  rw [split?, split?]
  by_cases hempty : r.emptyLead = true
  · obtain ⟨kept, hkept, hfound⟩ := hprobe s (List.suffix_refl s)
    rw [if_pos hempty, if_pos hempty, hfound]
    cases r.probe s with
    | none => exact lastSplit_append hs hprobe hblank
    | some f => exact Trailing.some hkept rfl
  · rw [if_neg hempty, if_neg hempty]
    exact lastSplit_append hs hprobe hblank

/-- More of the text on the right of a cut. -/
def Cut.extend (kept : List Char) (c : Cut) : Cut := { c with right := c.right ++ kept }

theorem Rule.cut?_append_of_split? {r : Rule} {s t : List Char}
    (h : Trailing (fun kept q => (q.1, Found.extend kept q.2)) t (r.split? s) (r.split? (s ++ t))) :
    Trailing Cut.extend t (r.cut? s) (r.cut? (s ++ t)) := by
  obtain ⟨kept, hkept, hsplit⟩ := h
  refine ⟨kept, hkept, ?_⟩
  rw [cut?, cut?, hsplit]
  cases r.split? s with
  | none => rfl
  | some q => simp only [Option.map_some, Cut.extend, Found.extend, List.append_assoc]

theorem all_isBlank_of_suffix {t u : List Char} (ht : t.all isBlank = true) (hu : u <:+ t) :
    u.all isBlank = true :=
  List.all_eq_true.2 fun c hc => List.all_eq_true.1 ht c (hu.mem hc)

section

variable {s t : List Char} (hs : '\n' ∉ s) (ht : t.all isBlank = true)

include hs ht

theorem Rule.cut?_append {r : Rule} (hr : Probe.Trails r.probe) :
    Trailing Cut.extend t (r.cut? s) (r.cut? (s ++ t)) := by
  apply Rule.cut?_append_of_split?
  apply Rule.split?_append hs
  · exact fun u hu => hr.append u t (fun hmem => hs (hu.mem hmem)) ht
  · exact fun u hu => hr.blank u (all_isBlank_of_suffix ht hu)

theorem literalCut?_append : Trailing Cut.extend t (literalCut? s) (literalCut? (s ++ t)) := by
  obtain ⟨kept, hkept, hsingle⟩ :=
    Rule.cut?_append hs ht (r := singleQuotedRule) singleQuoted_trails
  obtain ⟨kept', hkept', hdouble⟩ :=
    Rule.cut?_append hs ht (r := doubleQuotedRule) doubleQuoted_trails
  -- what is left of a cut does not change, so the same kind of literal is cut
  rw [literalCut?, literalCut?, hsingle, hdouble]
  cases singleQuotedRule.cut? s with
  | none => exact ⟨kept', hkept', rfl⟩
  | some single =>
      cases doubleQuotedRule.cut? s with
      | none => exact ⟨kept, hkept, rfl⟩
      | some double =>
          simp only [Option.map_some, Cut.extend]
          split
          · exact ⟨kept', hkept', rfl⟩
          · exact ⟨kept, hkept, rfl⟩

/-- More of the text in the middle of a cut. -/
def Cut.extendMid (kept : List Char) (c : Cut) : Cut := { c with mid := c.mid ++ kept }

theorem commentCut?_append : Trailing Cut.extendMid t (commentCut? s) (commentCut? (s ++ t)) := by
  have hprobe : ∀ u, u <:+ s →
      Trailing Found.extendMid t (commentRule.probe u) (commentRule.probe (u ++ t)) :=
    fun u hu => comment_append (fun hmem => hs (hu.mem hmem)) ht
  have hblank : ∀ u, u <:+ t → commentRule.probe u = none := fun u hu =>
    comment_of_blank (all_isBlank_of_suffix ht hu)
  obtain ⟨kept, hkept, hsplit⟩ := Rule.split?_append hs hprobe hblank
  refine ⟨kept, hkept, ?_⟩
  rw [commentCut?, commentCut?, Rule.cut?, Rule.cut?, hsplit]
  cases commentRule.split? s with
  | none => rfl
  | some q => rfl

omit hs ht in
/-- The same cut, with more of the text on its right or, at a comment, in its middle. -/
def SameCut (t : List Char) (found found' : Option Cut) : Prop :=
  Trailing Cut.extend t found found' ∨
    ∃ c kept, found = some c ∧ c.right = [] ∧ Kept t kept ∧ found' = some (c.extendMid kept)

theorem quotedCut?_append : SameCut t (quotedCut? s) (quotedCut? (s ++ t)) := by
  obtain ⟨kept, hkept, hliteral⟩ := literalCut?_append hs ht
  obtain ⟨kept', hkept', hcomment⟩ := commentCut?_append hs ht
  rw [quotedCut?, quotedCut?, hliteral, hcomment]
  cases literalCut? s with
  | some c => exact Or.inl (Trailing.some hkept rfl)
  | none =>
      cases hc : commentCut? s with
      | none => exact Or.inl Trailing.none
      | some c => exact Or.inr ⟨c, kept', rfl, right_of_commentCut? hc, hkept', rfl⟩

omit hs ht in
theorem inkRules_trails : ∀ r ∈ inkRules, Probe.Trails r.probe := by
  intro r hr
  simp only [inkRules, List.mem_cons, List.not_mem_nil, or_false] at hr
  rcases hr with rfl | rfl | rfl | rfl | rfl | rfl | rfl | rfl | rfl | rfl | rfl | rfl | rfl | rfl |
    rfl | rfl
  · exact scientific_trails
  · exact ratio_trails
  · exact increment_trails
  · exact unarySign_trails
  · exact operator_trails (by simp)
  · exact operator_trails (by simp)
  · exact operator_trails (by simp)
  · exact operator_trails (by simp)
  · exact operator_trails (by simp)
  · exact operator_trails (by simp)
  · exact operator_trails (by simp)
  · exact callOpening_trails
  · exact opening_trails
  · exact closing_trails
  · exact operator_trails (by simp)
  · exact ellipsis_trails

theorem inkRules_append :
    Trailing Cut.extend t (inkRules.findSome? fun r => r.cut? s)
      (inkRules.findSome? fun r => r.cut? (s ++ t)) :=
  Trailing.findSome? fun r hr => Rule.cut?_append hs ht (inkRules_trails r hr)

end

/-! ## Runs of blanks -/

/-- The text does not end with a blank. -/
def EndsInk (s : List Char) : Prop := ∃ v c, s = v ++ [c] ∧ isBlank c = false

theorem EndsInk.all_eq_false {s : List Char} (h : EndsInk s) : s.all isBlank = false := by
  obtain ⟨v, c, rfl, hc⟩ := h
  simp [hc]

theorem exists_endsInk_append {s : List Char} (hs : s.all isBlank = false) :
    ∃ v b, s = v ++ b ∧ EndsInk v ∧ b.all isBlank = true := by
  induction s using List.reverseRecOn with
  | nil => cases hs
  | append_singleton s c ih =>
      by_cases hc : isBlank c = true
      · obtain ⟨v, b, rfl, hv, hb⟩ := ih (by simpa [hc] using hs)
        exact ⟨v, b ++ [c], by rw [List.append_assoc], hv, by simp [hb, hc]⟩
      · exact ⟨s ++ [c], [], by rw [List.append_nil], ⟨s, c, rfl, by simpa using hc⟩, rfl⟩

theorem inkCount_of_blank {b : List Char} (hb : b.all isBlank = true) : inkCount b = 0 := by
  rw [inkCount, List.countP_eq_zero]
  intro c hc
  simp [List.all_eq_true.1 hb c hc]

/-- A part at the end of such a text is empty or ends like it. -/
theorem EndsInk.of_suffix {s u : List Char} (h : EndsInk s) (hu : u <:+ s) (hne : u ≠ []) :
    EndsInk u := by
  obtain ⟨v, c, rfl, hc⟩ := h
  obtain ⟨w, d, rfl⟩ : ∃ w d, u = w ++ [d] :=
    ⟨u.dropLast, u.getLast hne, (List.dropLast_append_getLast hne).symm⟩
  obtain ⟨x, hx⟩ := hu
  rw [← List.append_assoc] at hx
  have hlast : d = c := by simpa using congrArg List.getLast? hx
  exact ⟨w, d, rfl, hlast ▸ hc⟩

theorem blankRun_append {u t : List Char} (hu : u.all isBlank = false) (hline : '\n' ∉ u)
    (ht : t.all isBlank = true) : Trailing Found.extend t (blankRun u) (blankRun (u ++ t)) := by
  obtain ⟨c, r, hskip, hc⟩ := (beginsInk_skipBlanks hu).exists_cons
  obtain ⟨htake, -⟩ := takeWhile_dropWhile_append (show u.dropWhile isBlank = c :: r from hskip) t
  obtain ⟨kept, hkept, hremainder⟩ := remainder_append hline ht
  rw [blankRun, blankRun, htake]
  split
  · exact Trailing.some hkept (congrArg (Found.mk [] [' ']) hremainder)
  · exact Trailing.none

/-- At most one blank after a text that ends in ink is never cut off. -/
theorem blankRunRule_append {s t : List Char} (hs : '\n' ∉ s) (hink : EndsInk s)
    (ht : t.all isBlank = true) (hlength : t.length ≤ 1) :
    Trailing Cut.extend t (blankRunRule.cut? s) (blankRunRule.cut? (s ++ t)) := by
  have hnone : ∀ u, u <:+ t → blankRun u = none := by
    intro u hu
    have hle : (u.takeWhile isBlank).length ≤ t.length :=
      ((List.takeWhile_sublist isBlank).trans hu.sublist).length_le
    rw [blankRun, if_neg (by omega)]
  apply Rule.cut?_append_of_split?
  refine Rule.split?_append hs (fun u hu => ?_) hnone
  cases hempty : u with
  | nil =>
      show Trailing Found.extend t (blankRun []) (blankRun t)
      rw [hnone t (List.suffix_refl t), hnone [] (List.nil_suffix)]
      exact Trailing.none
  | cons c r =>
      have hne : u ≠ [] := by simp [hempty]
      rw [← hempty]
      exact blankRun_append (hink.of_suffix hu hne).all_eq_false (fun hmem => hs (hu.mem hmem)) ht

/-- A longer run of blanks at the end of a text is cut off, unless the text begins with one. -/
theorem blankRunRule_of_long {s t : List Char} (hs : '\n' ∉ s) (hink : EndsInk s)
    (ht : t.all isBlank = true) (hlength : 2 ≤ t.length) (hstart : blankRun s = none) :
    blankRunRule.cut? (s ++ t) = some ⟨s, [' '], [], false⟩ := by
  have hfirst : blankRun (s ++ t) = none := by
    obtain ⟨kept, -, hfound⟩ := blankRun_append hink.all_eq_false hs ht
    rw [hfound, hstart]
    rfl
  have hfound : blankRun t = some ⟨[], [' '], []⟩ := by
    have htake : t.takeWhile isBlank = t := List.takeWhile_eq_self_iff.2 (List.all_eq_true.1 ht)
    rw [blankRun, htake, if_pos hlength, remainder, (skipBlanks_eq_nil_iff t).2 ht]
    rfl
  have hends : ∀ c ∈ t, isInk c = false := by
    intro c hc
    rw [isInk, List.all_eq_true.1 ht c hc]
    rfl
  obtain ⟨v, c, rfl, hc⟩ := hink
  have hsplit : lastSplit isInk blankRun (v ++ [c] ++ t) = some (v ++ [c], ⟨[], [' '], []⟩) := by
    rw [List.append_assoc]
    apply lastSplit_of_end (fun hmem => hs (List.mem_append_left _ hmem)) _ hfound
      (lastSplit_eq_none_of_ends hends)
    rw [isInk, hc]
    rfl
  simp only [Rule.cut?, Rule.split?, blankRunRule, if_true, hfirst, hsplit]
  simp

/-! ## Cutting to the end -/

/-- The same text but for blanks at the end, and the same comments. -/
def Similar (a b : Tree) : Prop := trimEnd a.text = trimEnd b.text ∧ a.hasComment = b.hasComment

theorem Similar.symm {a b : Tree} (h : Similar a b) : Similar b a := ⟨h.1.symm, h.2.symm⟩

theorem Similar.trans {a b c : Tree} (hab : Similar a b) (hbc : Similar b c) : Similar a c :=
  ⟨hab.1.trans hbc.1, hab.2.trans hbc.2⟩

theorem Similar.node {l r r' : Tree} {mid mid' : List Char} {isComment : Bool}
    (htext : trimEnd (mid' ++ r'.text) = trimEnd (mid ++ r.text))
    (hcomment : r'.hasComment = r.hasComment) :
    Similar (.node l mid' r' isComment) (.node l mid r isComment) := by
  constructor
  · show trimEnd (l.text ++ mid' ++ r'.text) = trimEnd (l.text ++ mid ++ r.text)
    rw [List.append_assoc, List.append_assoc, trimEnd_append_congr htext]
  · simp only [Tree.hasComment, hcomment]

theorem tree_nil : spacing.tree [] = .leaf [] := Cutter.tree_of_uncut rfl

/-- Blanks become one blank or nothing. -/
theorem tree_of_blank {s : List Char} (hs : s.all isBlank = true) :
    trimEnd (spacing.tree s).text = [] ∧ (spacing.tree s).hasComment = false := by
  cases s with
  | nil =>
      rw [tree_nil]
      exact ⟨rfl, rfl⟩
  | cons c s =>
      have hcut : spacing.cut? (c :: s) = some ⟨[], [' '], [], false⟩ := by
        show cut? (c :: s) = _
        rw [cut?, if_pos (by rw [hs]; rfl)]
      rw [Cutter.tree_of_cut hcut]
      show trimEnd ((spacing.tree []).text ++ [' '] ++ (spacing.tree []).text) = [] ∧ _
      rw [Tree.hasComment, tree_nil]
      exact ⟨rfl, rfl⟩

/-- With blanks after it a text that ends in ink is cut in the same place, or the blanks are cut
off. -/
theorem cut?_append {s t : List Char} (hs : '\n' ∉ s) (hink : EndsInk s)
    (ht : t.all isBlank = true) :
    SameCut t (cut? s) (cut? (s ++ t)) ∨ cut? (s ++ t) = some ⟨s, [' '], [], false⟩ := by
  have hall := hink.all_eq_false
  have hall' : (s ++ t).all isBlank = false := by rw [List.all_append, hall, Bool.false_and]
  obtain ⟨kept, hkept, hrules⟩ := inkRules_append hs ht
  rw [cut?_of_ink hall, cut?_of_ink hall', hrules]
  rcases quotedCut?_append hs ht with
    ⟨kept', hkept', hquoted⟩ | ⟨c, kept', hc, hright, hkept', hquoted⟩
  · rw [hquoted]
    cases quotedCut? s with
    | some c => exact Or.inl (Or.inl (Trailing.some hkept' rfl))
    | none =>
        cases inkRules.findSome? fun r => r.cut? s with
        | some c => exact Or.inl (Or.inl (Trailing.some hkept rfl))
        | none =>
            simp only [Option.map_none, Option.none_or]
            obtain ⟨kept, hkept, hrun⟩ := blankRun_append hall hs ht
            cases hstart : blankRun s with
            | some f =>
                -- the text begins with a run, which is cut first
                refine Or.inl (Or.inl (Rule.cut?_append_of_split? ?_))
                rw [hstart] at hrun
                simp only [Rule.split?, blankRunRule, if_true, hrun, hstart]
                exact Trailing.some hkept rfl
            | none =>
                by_cases hlength : t.length ≤ 1
                · exact Or.inl (Or.inl (blankRunRule_append hs hink ht hlength))
                · exact Or.inr (blankRunRule_of_long hs hink ht (by omega) hstart)
  · rw [hc, hquoted]
    exact Or.inl (Or.inr ⟨c, kept', rfl, hright, hkept', rfl⟩)

/-- A text that is not blank and ends with blanks is longer than what stands before them. -/
theorem exists_smaller_append {s : List Char} (hall : s.all isBlank = false) (hink : ¬EndsInk s) :
    ∃ v b, s = v ++ b ∧ b.all isBlank = true ∧ Smaller v s := by
  obtain ⟨v, b, rfl, hv, hb⟩ := exists_endsInk_append hall
  have hne : b ≠ [] := by
    rintro rfl
    rw [List.append_nil] at hink
    exact hink hv
  have hlength : 0 < b.length := List.length_pos_of_ne_nil hne
  refine ⟨v, b, rfl, hb, Or.inr ⟨?_, by rw [List.length_append]; omega⟩⟩
  rw [inkCount_append, inkCount_of_blank hb, Nat.add_zero]

/-- **Blanks after a text change nothing** in it but blanks at its end. -/
theorem similar_append (s t : List Char) (hs : '\n' ∉ s) (ht : t.all isBlank = true) :
    Similar (spacing.tree (s ++ t)) (spacing.tree s) := by
  by_cases hall : s.all isBlank = true
  · obtain ⟨htext, hcomment⟩ := tree_of_blank hall
    have hboth : (s ++ t).all isBlank = true := by rw [List.all_append, hall, ht]; rfl
    obtain ⟨htext', hcomment'⟩ := tree_of_blank hboth
    exact ⟨htext'.trans htext.symm, hcomment'.trans hcomment.symm⟩
  by_cases hink : EndsInk s
  · rcases cut?_append hs hink ht with
      (⟨kept, hkept, hcut'⟩ | ⟨c, kept, hcut, hright, hkept, hcut'⟩) | hcut'
    · cases hcut : cut? s with
      | none =>
          rw [hcut] at hcut'
          rw [Cutter.tree_of_uncut (k := spacing) hcut, Cutter.tree_of_uncut (k := spacing) hcut']
          exact ⟨trimEnd_append_of_blank ht, rfl⟩
      | some c =>
          -- cut in the same place: the parts on the right differ in blanks again
          rw [hcut] at hcut'
          have hline : '\n' ∉ c.right := ((cut?_respaces hs hcut).sides hs).2
          have hsmaller := (cut?_smaller hcut).2
          obtain ⟨htext, hcomment⟩ := similar_append c.right kept hline (hkept.all_isBlank ht)
          rw [Cutter.tree_of_cut (k := spacing) hcut, Cutter.tree_of_cut (k := spacing) hcut']
          exact Similar.node (trimEnd_append_congr htext c.mid) hcomment
    · -- a comment, which keeps the blanks, and nothing after it
      have hright' : (c.extendMid kept).right = [] := hright
      rw [Cutter.tree_of_cut (k := spacing) hcut, Cutter.tree_of_cut (k := spacing) hcut', hright,
        hright', tree_nil]
      refine Similar.node ?_ rfl
      show trimEnd (c.mid ++ kept ++ []) = trimEnd (c.mid ++ [])
      rw [List.append_nil, List.append_nil, trimEnd_append_of_blank (hkept.all_isBlank ht)]
    · -- the blanks are cut off as a run, and the text is left
      rw [Cutter.tree_of_cut (k := spacing) hcut', tree_nil]
      constructor
      · show trimEnd ((spacing.tree s).text ++ [' '] ++ []) = trimEnd (spacing.tree s).text
        rw [List.append_nil, trimEnd_append_of_blank (by decide)]
      · show (false || (spacing.tree s).hasComment || false) = (spacing.tree s).hasComment
        rw [Bool.false_or, Bool.or_false]
  · -- the text ends with blanks: with and without `t` it is like the text before them
    obtain ⟨v, b, hvb, hb, hsmaller⟩ := exists_smaller_append (by simpa using hall) hink
    have hline : '\n' ∉ v := fun hmem => hs (by rw [hvb]; exact List.mem_append_left b hmem)
    have hbt : (b ++ t).all isBlank = true := by rw [List.all_append, hb, ht]; rfl
    have hshort := similar_append v b hline hb
    have hlong := similar_append v (b ++ t) hline hbt
    rw [hvb, List.append_assoc]
    exact hlong.trans hshort.symm
termination_by (inkCount s, s.length)
decreasing_by
  all_goals exact Prod.lex_def.2 hsmaller

/-- **Of blanks after a text its code keeps some**, and no comment is lost or new. -/
theorem leaves_append (s t : List Char) (hs : '\n' ∉ s) (ht : t.all isBlank = true) :
    ∃ kept, Kept t kept ∧ (quoting.tree (s ++ t)).leaves = (quoting.tree s).leaves ++ kept ∧
      (quoting.tree (s ++ t)).hasComment = (quoting.tree s).hasComment := by
  induction s using Cutter.tree.induct quoting generalizing t with
  | case1 s huncut =>
      have huncut' : quotedCut? (s ++ t) = none := by
        have hnone : quotedCut? s = none := huncut
        rcases quotedCut?_append hs ht with ⟨kept, -, hcut'⟩ | ⟨c, kept, hcut, -⟩
        · rw [hcut', hnone]
          rfl
        · rw [hnone] at hcut
          cases hcut
      rw [Cutter.tree_of_uncut huncut, Cutter.tree_of_uncut (k := quoting) huncut']
      exact ⟨t, Kept.all t, rfl, rfl⟩
  | case2 s c hcut _ _ ihright =>
      have hquoted : quotedCut? s = some c := hcut
      have hright := ((quotedCut?_respaces hs hquoted).sides hs).2
      rcases quotedCut?_append hs ht with ⟨kept, hkept, hcut'⟩ | ⟨d, kept, hd, hnil, hkept, hcut'⟩
      · rw [hquoted] at hcut'
        obtain ⟨kept', hkept', hleaves, hcomment⟩ := ihright kept hright (hkept.all_isBlank ht)
        rw [Cutter.tree_of_cut hcut, Cutter.tree_of_cut (k := quoting) hcut']
        refine ⟨kept', hkept.trans hkept', ?_, ?_⟩
        · show (quoting.tree c.left).leaves ++ ' ' :: (quoting.tree (c.right ++ kept)).leaves =
            (quoting.tree c.left).leaves ++ ' ' :: (quoting.tree c.right).leaves ++ kept'
          rw [hleaves, List.append_assoc, List.cons_append]
        · show (c.isComment || _ || (quoting.tree (c.right ++ kept)).hasComment) = _
          rw [hcomment]
          rfl
      · -- a comment keeps the blanks, and comments are no code
        rw [hquoted] at hd
        cases hd
        rw [Cutter.tree_of_cut hcut, Cutter.tree_of_cut (k := quoting) hcut']
        refine ⟨[], Kept.none t, ?_, rfl⟩
        rw [List.append_nil]
        rfl

end Pcode.Spacing
