import Mathlib.Order.WellFounded
import Pcode.Proofs.Spacing.Lead

set_option autoImplicit false

/-! # Cutting comes to an end

A cut may add a blank on each side of its middle, so a side can be as long as the text, and a cut
at a run of blanks can leave a side with all the ink of the text. Neither length nor ink alone shows
that cutting ends.

What a cut keeps of a text, of one line or of many, is said once (`CutFrom`): what the two sides
have from the text stands there one after the other. A cut that takes ink may add a blank to each
side; a cut that takes blanks adds none. So the sides have less ink, or no more ink and less length,
and ink and length together bound how deep cuts are nested (`Cutter.treeWithin_eq`) and how many
texts are cut (`Cutter.calls_tree_le`).

Main statement: the calls of the two recursions go down in a well-founded order, and each recursion
has one solution (`format_codeOf_unique`). -/

namespace Pcode.Spacing

open Pcode.Text

/-! ## What cuts keep -/

/-- How a cut divides a text. A cut that takes ink has two parts of the text on its sides, with its
middle between them, and may add a blank to each. A cut that takes blanks adds nothing. -/
inductive CutFrom (s : List Char) : Cut → Prop
  | ink {before mid after : List Char} {isComment : Bool} (padLeft padRight : Bool)
      (hparts : (before ++ mid ++ after).Sublist s) (hmid : 0 < inkCount mid) :
      CutFrom s ⟨before ++ (if padLeft then [' '] else []), mid,
        (if padRight then [' '] else []) ++ after, isComment⟩
  | blanks {before after : List Char} (hparts : (before ++ after).Sublist s)
      (hlen : before.length + after.length < s.length) : CutFrom s ⟨before, [' '], after, false⟩

theorem Rule.cutFrom {r : Rule} (horder : Probe.InOrder r.probe) (hink : Probe.TakesInk r.probe)
    {s : List Char} {c : Cut} (h : r.cut? s = some c) : CutFrom s c := by
  obtain ⟨lead, t, f, -, rfl, ht, rfl⟩ := Rule.cut?_eq_some h
  refine .ink r.padLeft r.padRight ?_ (hink t f ht).1
  simpa using (horder t f ht).append_left lead

theorem CutFrom.comment {s : List Char} {c : Cut} (h : CutFrom s c) (hmid : 0 < inkCount c.mid) :
    CutFrom s { c with isComment := true } := by
  cases h with
  | ink padLeft padRight hparts hink => exact .ink padLeft padRight hparts hink
  | blanks => cases hmid

theorem literalCut?_cutFrom {s : List Char} {c : Cut} (h : literalCut? s = some c) :
    CutFrom s c := by
  rcases literalCut?_eq_some h with hsingle | hdouble
  · exact Rule.cutFrom singleQuoted_takesLiteral.inOrder
      (singleQuoted_takesLiteral.takesInk (by decide)) hsingle
  · exact Rule.cutFrom doubleQuoted_takesLiteral.inOrder
      (doubleQuoted_takesLiteral.takesInk (by decide)) hdouble

theorem commentCut?_cutFrom {s : List Char} {c : Cut} (h : commentCut? s = some c) :
    CutFrom s c := by
  obtain ⟨d, hd, rfl⟩ := Option.map_eq_some_iff.1 h
  have hcutFrom := Rule.cutFrom (r := commentRule) comment_inOrder comment_takesInk hd
  obtain ⟨lead, t, f, -, -, ht, rfl⟩ := Rule.cut?_eq_some hd
  exact hcutFrom.comment (comment_takesInk t f ht).1

theorem blankRunRule_cutFrom {s : List Char} {c : Cut} (h : blankRunRule.cut? s = some c) :
    CutFrom s c := by
  obtain ⟨lead, t, f, -, rfl, ht, rfl⟩ := Rule.cut?_eq_some h
  obtain ⟨hrun, rfl⟩ := blankRun_eq_some ht
  have hrest := length_remainder_add_le t
  have hcutFrom : CutFrom (lead ++ t) ⟨lead, [' '], remainder t, false⟩ :=
    .blanks ((remainder_sublist t).append_left lead) (by rw [List.length_append]; omega)
  simpa [blankRunRule] using hcutFrom

theorem quotedCut?_cutFrom {s : List Char} {c : Cut} (h : quotedCut? s = some c) :
    CutFrom s c := by
  rcases quotedCut?_eq_some h with hliteral | hcomment
  · exact literalCut?_cutFrom hliteral
  · exact commentCut?_cutFrom hcomment

theorem cut?_cutFrom {s : List Char} {c : Cut} (h : cut? s = some c) : CutFrom s c := by
  rcases cut?_eq_some h with ⟨-, rfl⟩ | hliteral | hcomment | ⟨r, hr, hcut⟩ | hrun
  · have hs : s ≠ [] := by
      rintro rfl
      cases h
    exact .blanks (List.nil_sublist s) (by simpa using List.length_pos_iff.2 hs)
  · exact literalCut?_cutFrom hliteral
  · exact commentCut?_cutFrom hcomment
  · exact Rule.cutFrom (inkRules_inOrder r hr) (inkRules_takesInk r hr) hcut
  · exact blankRunRule_cutFrom hrun

/-! ## The recursion -/

/-- The calls of the recursion: `a` is a side of the cut of `s`. -/
def Cutter.Calls (k : Cutter) (a s : List Char) : Prop :=
  ∃ c, k.cut? s = some c ∧ (a = c.left ∨ a = c.right)

theorem smaller_iff_lex {a s : List Char} :
    Smaller a s ↔ Prod.Lex (· < ·) (· < ·) (inkCount a, a.length) (inkCount s, s.length) :=
  Iff.symm (Prod.lex_def (r := (· < ·)) (s := (· < ·)))

theorem smaller_wellFounded : WellFounded Smaller :=
  Subrelation.wf smaller_iff_lex.1
    (InvImage.wf (fun s : List Char => (inkCount s, s.length))
      (WellFounded.prod_lex Nat.lt_wfRel.wf Nat.lt_wfRel.wf))

theorem Cutter.calls_wellFounded (k : Cutter) : WellFounded k.Calls := by
  refine Subrelation.wf ?_ smaller_wellFounded
  rintro a s ⟨c, hc, rfl | rfl⟩
  · exact (k.smaller hc).1
  · exact (k.smaller hc).2

/-- A function follows the cuts: a text without a cut stays, and the values of the two sides of a
cut are joined around its middle. -/
def Cutter.Follows (k : Cutter) (join : List Char → List Char → List Char → List Char)
    (f : List Char → List Char) : Prop :=
  ∀ s, f s = (k.cut? s).elim s fun c => join (f c.left) c.mid (f c.right)

theorem Cutter.Follows.unique {k : Cutter}
    {join : List Char → List Char → List Char → List Char} {f g : List Char → List Char}
    (hf : k.Follows join f) (hg : k.Follows join g) : f = g := by
  funext s
  induction s using k.calls_wellFounded.induction with
  | _ s ih =>
      rw [hf s, hg s]
      cases hcut : k.cut? s with
      | none => rfl
      | some c =>
          have hleft := ih c.left ⟨c, hcut, .inl rfl⟩
          have hright := ih c.right ⟨c, hcut, .inr rfl⟩
          simp only [Option.elim_some, hleft, hright]

theorem format_follows : spacing.Follows (fun l mid r => l ++ mid ++ r) format := by
  intro s
  cases hcut : spacing.cut? s with
  | none => exact format_of_uncut hcut
  | some c => exact format_of_cut hcut

theorem codeOf_follows : quoting.Follows (fun l _ r => l ++ ' ' :: r) codeOf := by
  intro s
  cases hcut : quoting.cut? s with
  | none => exact codeOf_of_uncut hcut
  | some c => exact codeOf_of_cut hcut

/-! ## How deep and how many -/

/-- The number of texts that are cut, or found to have no cut. -/
def Tree.calls : Tree → Nat
  | leaf _ => 1
  | node l _ r _ => l.calls + r.calls + 1

/-- A cut that takes ink adds a blank to each side at most, and one that takes blanks leaves a
shorter text. -/
theorem CutFrom.account {s : List Char} {c : Cut} (h : CutFrom s c) :
    (inkCount c.left + inkCount c.right < inkCount s ∧ c.left.length ≤ s.length ∧
      c.right.length ≤ s.length ∧ c.left.length + c.right.length ≤ s.length + 1) ∨
    (inkCount c.left + inkCount c.right ≤ inkCount s ∧
      c.left.length + c.right.length < s.length) := by
  cases h with
  | @ink before mid after _ padLeft padRight hparts hmid =>
      have hink := inkCount_le_of_sublist hparts
      have hlen := hparts.length_le
      have hmidLen : 0 < mid.length := Nat.lt_of_lt_of_le hmid List.countP_le_length
      have hpadInk : ∀ b : Bool, inkCount (if b then [' '] else []) = 0 := by decide
      have hpadLen : ∀ b : Bool, (if b then [' '] else []).length ≤ 1 := by decide
      have hleft := hpadLen padLeft
      have hright := hpadLen padRight
      simp only [inkCount_append, List.length_append] at hink hlen
      simp only [inkCount_append, List.length_append, hpadInk]
      omega
  | blanks hparts hlen =>
      have hink := inkCount_le_of_sublist hparts
      rw [inkCount_append] at hink
      exact .inr ⟨hink, hlen⟩

section Bounds

variable {k : Cutter} (hk : ∀ {s : List Char} {c : Cut}, k.cut? s = some c → CutFrom s c)
include hk

/-- Cutting to a depth above ink and length together is cutting to the end. -/
theorem Cutter.treeWithin_eq {n : Nat} {s : List Char} (hn : inkCount s + s.length < n) :
    k.treeWithin n s = some (k.tree s) := by
  induction n generalizing s with
  | zero => omega
  | succ n ih =>
      rw [Cutter.treeWithin]
      split
      · next huncut => rw [Cutter.tree_of_uncut huncut]
      · next c hcut =>
          -- blanks are added only where ink is taken, so ink and length together go down
          have hleft : inkCount c.left + c.left.length < n := by
            have := (hk hcut).account
            omega
          have hright : inkCount c.right + c.right.length < n := by
            have := (hk hcut).account
            omega
          rw [Cutter.tree_of_cut hcut, ih hleft, ih hright]
          rfl

theorem Cutter.calls_tree_le (s : List Char) :
    (k.tree s).calls ≤ 4 * inkCount s + 2 * s.length + 1 := by
  induction s using k.calls_wellFounded.induction with
  | _ s ih =>
      cases hcut : k.cut? s with
      | none =>
          rw [Cutter.tree_of_uncut hcut, Tree.calls]
          omega
      | some c =>
          have hleft := ih c.left ⟨c, hcut, .inl rfl⟩
          have hright := ih c.right ⟨c, hcut, .inr rfl⟩
          have haccount := (hk hcut).account
          rw [Cutter.tree_of_cut hcut, Tree.calls]
          omega

end Bounds

/-- The code of a text, if it takes a tree less deep than `n`. -/
def codeWithin (n : Nat) (s : List Char) : Option (List Char) :=
  (quoting.treeWithin n s).map Tree.leaves

theorem formatWithin_eq (s : List Char) :
    formatWithin (inkCount s + s.length + 1) s = some (format s) := by
  have htree := Cutter.treeWithin_eq (k := spacing) cut?_cutFrom
    (Nat.lt_succ_self (inkCount s + s.length))
  rw [formatWithin, htree, Option.map_some, format]

theorem codeWithin_eq (s : List Char) :
    codeWithin (inkCount s + s.length + 1) s = some (codeOf s) := by
  have htree := Cutter.treeWithin_eq (k := quoting) quotedCut?_cutFrom
    (Nat.lt_succ_self (inkCount s + s.length))
  rw [codeWithin, htree, Option.map_some, codeOf]

/-- The text with its spacing in order, by cutting to a depth that is enough. -/
def formatBounded (s : List Char) : List Char :=
  (formatWithin (inkCount s + s.length + 1) s).getD []

theorem formatBounded_eq (s : List Char) : formatBounded s = format s := by
  rw [formatBounded, formatWithin_eq, Option.getD_some]

/-- The code of a text, by cutting to a depth that is enough. -/
def codeBounded (s : List Char) : List Char := (codeWithin (inkCount s + s.length + 1) s).getD []

theorem codeBounded_eq (s : List Char) : codeBounded s = codeOf s := by
  rw [codeBounded, codeWithin_eq, Option.getD_some]

/-- Cutting ends for every text. The sides of a cut are smaller in the lexicographic order of ink
and length, though neither ink nor length alone goes down with each cut; so the two recursions have
one solution each, which a computation of linear depth and with a linear number of calls finds. -/
theorem format_codeOf_unique :
    (∀ s c, cut? s = some c ∨ quotedCut? s = some c →
      Prod.Lex (· < ·) (· < ·) (inkCount c.left, c.left.length) (inkCount s, s.length) ∧
      Prod.Lex (· < ·) (· < ·) (inkCount c.right, c.right.length) (inkCount s, s.length) ∧
      CutFrom s c) ∧
    (∃ s c, cut? s = some c ∧ c.left.length = s.length ∧ c.right.length = s.length) ∧
    (∃ s c, cut? s = some c ∧ inkCount c.left = inkCount s) ∧
    WellFounded spacing.Calls ∧ WellFounded quoting.Calls ∧
    (∀ f, spacing.Follows (fun l mid r => l ++ mid ++ r) f ↔ f = format) ∧
    (∀ f, quoting.Follows (fun l _ r => l ++ ' ' :: r) f ↔ f = codeOf) ∧
    ∀ s,
      formatWithin (inkCount s + s.length + 1) s = some (format s) ∧
      codeWithin (inkCount s + s.length + 1) s = some (codeOf s) ∧
      (spacing.tree s).calls ≤ 4 * inkCount s + 2 * s.length + 1 ∧
      (quoting.tree s).calls ≤ 4 * inkCount s + 2 * s.length + 1 := by
  refine ⟨?_, ?_, ?_, spacing.calls_wellFounded, quoting.calls_wellFounded, ?_, ?_, ?_⟩
  · rintro s c (h | h)
    · exact ⟨smaller_iff_lex.1 (cut?_smaller h).1, smaller_iff_lex.1 (cut?_smaller h).2,
        cut?_cutFrom h⟩
    · exact ⟨smaller_iff_lex.1 (quotedCut?_smaller h).1, smaller_iff_lex.1 (quotedCut?_smaller h).2,
        quotedCut?_cutFrom h⟩
  · exact ⟨['='], ⟨[' '], ['='], [' '], false⟩, by decide +kernel, rfl, rfl⟩
  · exact ⟨['a', ' ', '\n'], ⟨['a'], [' '], [], false⟩, by decide +kernel, rfl⟩
  · intro f
    exact ⟨fun hf => hf.unique format_follows, fun hf => hf ▸ format_follows⟩
  · intro f
    exact ⟨fun hf => hf.unique codeOf_follows, fun hf => hf ▸ codeOf_follows⟩
  · intro s
    exact ⟨formatWithin_eq s, codeWithin_eq s, Cutter.calls_tree_le cut?_cutFrom s,
      Cutter.calls_tree_le quotedCut?_cutFrom s⟩

theorem format_codeOf_unique_assignment :
    (∃ c, cut? "a =1\n  b".toList = some c ∧
      Prod.Lex (· < ·) (· < ·) (inkCount c.left, c.left.length) (4, 8) ∧
      Prod.Lex (· < ·) (· < ·) (inkCount c.right, c.right.length) (4, 8)) ∧
    spacing.Follows (fun l mid r => l ++ mid ++ r) format ∧
    quoting.Follows (fun l _ r => l ++ ' ' :: r) codeOf ∧
    format "a =1\n  b".toList = "a = 1".toList := by
  obtain ⟨hsides, -, -, -, -, hformat, hcode, htotal⟩ := format_codeOf_unique
  have hcut : cut? "a =1\n  b".toList = some ⟨"a ".toList, ['='], " 1".toList, false⟩ := by
    decide +kernel
  obtain ⟨hleft, hright, -⟩ := hsides _ _ (.inl hcut)
  refine ⟨⟨_, hcut, hleft, hright⟩, (hformat format).2 rfl, (hcode codeOf).2 rfl, ?_⟩
  have hdepth : formatWithin 13 "a =1\n  b".toList = some "a = 1".toList := by decide +kernel
  exact Option.some.inj ((htotal _).1.symm.trans hdepth)

end Pcode.Spacing
