import Mathlib.Data.List.Infix
import Pcode.Proofs.Text.Blank
import Pcode.Spacing.Tree

set_option autoImplicit false

/-! # The lead of a cut

A rule takes the longest lead right of which its probe finds something. Here is what this comes to
where the probe finds nothing (`lastSplit_eq_none`, `Rule.cut?_eq_none`), where the lead is known
(`lastSplit_of_end`), and for probes that skip blanks: if a lead may end in a blank, the longest
one takes all the blanks in front of what is found (`lastSplit_beginsInk`).

What a cut can be is said once, for rules (`Rule.cut?_eq_some`) and for all cuts of a text
(`cut?_eq_some`). Cutting a given text to the end can be computed with a bound on the depth of the
tree (`format_of_formatWithin`). -/

namespace Pcode.Spacing

open Pcode.Text

section LastSplit

variable {β : Type} {ends : Char → Bool} {probe : List Char → Option β}

theorem lastSplit_eq_none {s : List Char} (h : ∀ t, t <:+ s → probe t = none) (c : Char) :
    lastSplit ends probe (c :: s) = none := by
  induction s generalizing c with
  | nil => simp [lastSplit, h [] (List.suffix_refl [])]
  | cons d s ih =>
      have hrest := ih (fun t ht => h t (ht.trans (List.suffix_cons d s))) d
      rw [lastSplit, hrest, h (d :: s) (List.suffix_refl _)]
      simp

theorem lastSplit_eq_none_of_ends {t : List Char} (ht : ∀ c ∈ t, ends c = false) :
    lastSplit ends probe t = none := by
  induction t with
  | nil => rfl
  | cons c t ih =>
      have hc : ends c = false := ht c (by simp)
      rw [lastSplit, ih fun d hd => ht d (by simp [hd]), hc]
      simp

theorem lastSplit_of_end {v t : List Char} {c : Char} {f : β} (hv : '\n' ∉ v)
    (hc : ends c = true) (hfound : probe t = some f) (hnone : lastSplit ends probe t = none) :
    lastSplit ends probe (v ++ c :: t) = some (v ++ [c], f) := by
  induction v with
  | nil =>
      rw [List.nil_append, lastSplit, hnone, hc, hfound]
      simp
  | cons d v ih =>
      have hd : d ≠ '\n' := fun heq => hv (heq ▸ List.mem_cons_self)
      rw [List.cons_append, lastSplit, if_neg hd, ih fun hmem => hv (List.mem_cons_of_mem d hmem)]
      rfl

theorem lastSplit_ne_none {v t : List Char} {c : Char} {f : β} (hv : '\n' ∉ v)
    (hc : ends c = true) (hfound : probe t = some f) :
    lastSplit ends probe (v ++ c :: t) ≠ none := by
  induction v with
  | nil =>
      rw [List.nil_append, lastSplit, hc, hfound]
      split
      · simp
      · simp
  | cons d v ih =>
      have hd : d ≠ '\n' := fun heq => hv (heq ▸ List.mem_cons_self)
      have hrest := ih fun hmem => hv (List.mem_cons_of_mem d hmem)
      obtain ⟨q, hq⟩ := Option.ne_none_iff_exists'.1 hrest
      rw [List.cons_append, lastSplit, if_neg hd, hq]
      simp

/-- The last character of a lead is of the class for it. -/
theorem lastSplit_lead {s lead : List Char} {f : β} (h : lastSplit ends probe s = some (lead, f)) :
    ∃ v c, lead = v ++ [c] ∧ ends c = true := by
  induction s generalizing lead with
  | nil => cases h
  | cons d s ih =>
      rw [lastSplit] at h
      split at h
      · next inner g hinner =>
          cases h
          split at hinner
          · cases hinner
          · obtain ⟨v, c, rfl, hc⟩ := ih hinner
            exact ⟨d :: v, c, rfl, hc⟩
      · split at h
        · next hd =>
            obtain ⟨g, -, hpair⟩ := Option.map_eq_some_iff.1 h
            cases hpair
            exact ⟨[], d, rfl, hd⟩
        · cases h

/-- A text after the longest lead, if the probe skips blanks and a lead may end in one: the text
does not begin with a blank, or the lead would be longer. -/
theorem lastSplit_beginsInk {s lead : List Char} {f : β} (hs : '\n' ∉ s)
    (hends : ∀ c, isBlank c = true → ends c = true)
    (hskip : ∀ c t, isBlank c = true → probe (c :: t) = probe t)
    (hnil : probe [] = none) (h : lastSplit ends probe s = some (lead, f)) :
    ∃ t, s = lead ++ t ∧ probe t = some f ∧ BeginsInk t := by
  induction s generalizing lead with
  | nil => cases h
  | cons c s ih =>
      have hc : c ≠ '\n' := fun heq => hs (heq ▸ List.mem_cons_self)
      have hrest : '\n' ∉ s := fun hmem => hs (List.mem_cons_of_mem c hmem)
      rw [lastSplit, if_neg hc] at h
      cases hsplit : lastSplit ends probe s with
      | some q =>
          obtain ⟨inner, g⟩ := q
          rw [hsplit] at h
          cases h
          obtain ⟨t, ht, hprobe, hink⟩ := ih hrest hsplit
          exact ⟨t, by rw [ht]; rfl, hprobe, hink⟩
      | none =>
          simp only [hsplit] at h
          split at h
          · obtain ⟨g, hg, hpair⟩ := Option.map_eq_some_iff.1 h
            cases hpair
            refine ⟨s, rfl, hg, ?_⟩
            cases s with
            | nil => rw [hnil] at hg; cases hg
            | cons d t =>
                refine ⟨d, rfl, ?_⟩
                by_contra hblank
                have hd : isBlank d = true := by simpa using hblank
                -- the blank would have been part of the lead
                rw [hskip d t hd] at hg
                rw [lastSplit, hends d hd, hg] at hsplit
                split at hsplit
                · cases hsplit
                · cases hsplit
          · cases h

end LastSplit

/-! ## Rules -/

theorem Rule.cut?_eq_none {r : Rule} {s : List Char} (h : ∀ t, t <:+ s → r.probe t = none) :
    r.cut? s = none := by
  cases hcut : r.cut? s with
  | none => rfl
  | some c =>
      obtain ⟨lead, t, f, -, rfl, ht, -⟩ := Rule.cut?_eq_some hcut
      rw [h t (List.suffix_append lead t)] at ht
      cases ht

theorem Rule.cut?_ne_none {r : Rule} {s : List Char}
    (h : (r.emptyLead = true ∧ r.probe s ≠ none) ∨ lastSplit r.ends r.probe s ≠ none) :
    r.cut? s ≠ none := by
  have hsplit : r.split? s ≠ none := by
    rw [Rule.split?]
    rcases h with ⟨hempty, hfound⟩ | hfound
    · obtain ⟨f, hf⟩ := Option.ne_none_iff_exists'.1 hfound
      simp [hempty, hf]
    · split
      · simp
      · exact hfound
  obtain ⟨⟨lead, f⟩, hq⟩ := Option.ne_none_iff_exists'.1 hsplit
  simp [Rule.cut?, hq]

theorem Rule.split?_lead {r : Rule} {s lead : List Char} {f : Found}
    (h : r.split? s = some (lead, f)) : lead = [] ∨ ∃ v c, lead = v ++ [c] ∧ r.ends c = true := by
  rw [Rule.split?] at h
  split at h
  · cases h
    exact Or.inl rfl
  · exact Or.inr (lastSplit_lead h)

theorem mem_of_skipBlanks_suffix {s t u : List Char} {c : Char} (hsuffix : t <:+ s)
    (hskip : skipBlanks t = c :: u) : c ∈ s := by
  have hmem : c ∈ skipBlanks t := by rw [hskip]; exact List.mem_cons_self
  exact hsuffix.mem ((skipBlanks_sublist t).mem hmem)

theorem doubleQuotedRule_cut?_eq_none {s : List Char} (hdouble : '"' ∉ s) :
    doubleQuotedRule.cut? s = none := by
  apply Rule.cut?_eq_none
  intro t ht
  simp only [doubleQuotedRule, doubleQuoted]
  split
  · next hskip => exact absurd (mem_of_skipBlanks_suffix ht hskip) hdouble
  · rfl

theorem singleQuotedRule_cut?_eq_none {s : List Char} (hsingle : '\'' ∉ s) :
    singleQuotedRule.cut? s = none := by
  apply Rule.cut?_eq_none
  intro t ht
  simp only [singleQuotedRule, singleQuoted]
  split
  · next hskip => exact absurd (mem_of_skipBlanks_suffix ht hskip) hsingle
  · rfl

/-- Without quotes and comment signs there is nothing to cut out. -/
theorem quotedCut?_eq_none {s : List Char} (hsingle : '\'' ∉ s) (hdouble : '"' ∉ s)
    (hcomment : '%' ∉ s) : quotedCut? s = none := by
  have h1 : singleQuotedRule.cut? s = none := singleQuotedRule_cut?_eq_none hsingle
  have h2 : doubleQuotedRule.cut? s = none := doubleQuotedRule_cut?_eq_none hdouble
  have h3 : commentRule.cut? s = none := by
    apply Rule.cut?_eq_none
    intro t ht
    simp only [commentRule, comment]
    split
    · next hskip => exact absurd (mem_of_skipBlanks_suffix ht hskip) hcomment
    · rfl
  simp only [quotedCut?, literalCut?, commentCut?, h1, h2, h3, Option.map_none]

/-- Nothing follows a comment. -/
theorem right_of_commentCut? {s : List Char} {c : Cut} (h : commentCut? s = some c) :
    c.right = [] := by
  obtain ⟨d, hd, rfl⟩ := Option.map_eq_some_iff.1 h
  obtain ⟨lead, t, f, -, -, ht, rfl⟩ := Rule.cut?_eq_some hd
  obtain ⟨u, -, rfl⟩ := comment_eq_some ht
  rfl

/-- The cut of a text that is not blank: a literal or comment, a rule, a run of blanks. -/
theorem cut?_of_ink {s : List Char} (hs : s.all isBlank = false) :
    cut? s =
      ((quotedCut? s).or (inkRules.findSome? fun r => r.cut? s)).or (blankRunRule.cut? s) := by
  rw [cut?, if_neg (by simp [hs])]
  cases quotedCut? s with
  | some c => rfl
  | none =>
      cases inkRules.findSome? fun r => r.cut? s with
      | some c => rfl
      | none => rfl

/-! ## Cutting to a depth -/

/-- The tree of all cuts of a text, if it is less deep than `n`. -/
def Cutter.treeWithin (k : Cutter) : Nat → List Char → Option Tree
  | 0, _ => none
  | n + 1, s =>
      match k.cut? s with
      | none => some (.leaf s)
      | some c =>
          (k.treeWithin n c.left).bind fun l =>
            (k.treeWithin n c.right).map fun r => .node l c.mid r c.isComment

theorem Cutter.tree_of_treeWithin {k : Cutter} {n : Nat} {s : List Char} {t : Tree}
    (h : k.treeWithin n s = some t) : k.tree s = t := by
  induction n generalizing s t with
  | zero => cases h
  | succ n ih =>
      rw [Cutter.treeWithin] at h
      split at h
      · next huncut =>
          rw [Cutter.tree_of_uncut huncut]
          exact Option.some.inj h
      · next c hcut =>
          obtain ⟨l, hl, hrest⟩ := Option.bind_eq_some_iff.1 h
          obtain ⟨r, hr, rfl⟩ := Option.map_eq_some_iff.1 hrest
          rw [Cutter.tree_of_cut hcut, ih hl, ih hr]

/-- A text with its spacing in order, if it takes a tree less deep than `n`. -/
def formatWithin (n : Nat) (s : List Char) : Option (List Char) :=
  (spacing.treeWithin n s).map Tree.text

theorem format_of_formatWithin {n : Nat} {s t : List Char} (h : formatWithin n s = some t) :
    format s = t := by
  obtain ⟨tree, htree, rfl⟩ := Option.map_eq_some_iff.1 h
  rw [format, Cutter.tree_of_treeWithin htree]

end Pcode.Spacing
