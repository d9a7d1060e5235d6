import Pcode.Spacing.Literal

set_option autoImplicit false

/-! # The rules of spacing

The rules in the order in which they are tried: blank text, literals and comments, numbers,
signs, operators, brackets, separators, runs of blanks. `cut?` makes the first cut that a rule
finds.

Main statement: both sides of a cut are smaller than the text, in the lexicographic order of
the number of characters that are not blank and the length (`cut?_smaller`). A cut may add
blanks beside its middle, so the length alone does not decrease. -/

namespace Pcode.Spacing

open Pcode.Text

/-- The rules for code, tried in this order. -/
def inkRules : List Rule := [
  -- numbers stay in one piece: `5.6E-3`, `1/4`
  ⟨true, isBreak, scientific, false, false⟩,
  ⟨true, isBreak, ratio, false, false⟩,
  -- `x++`, and the signs in `[-1, +a]`
  ⟨true, isInk, increment, false, false⟩,
  ⟨false, isBeforeSign, unarySign, false, false⟩,
  -- ranges
  ⟨true, isInk, operator [(· == ':')], false, false⟩,
  -- `.+=` and powers
  ⟨true, isInk, operator [(· == '.'), fun c => isSign c || c == '*' || c == '/' || c == '^', (· == '=')],
    true, true⟩,
  ⟨true, isInk, operator [(· == '.'), (· == '^')], false, false⟩,
  ⟨true, isInk, operator [(· == '^')], false, false⟩,
  -- `+=`, `.*`, `&&`, `==`, then `~`, then one-character operators
  ⟨true, isInk, operator [isPairHead, isPairTail], true, true⟩,
  ⟨true, isInk, operator [fun c => c == '!' || c == '~'], true, false⟩,
  ⟨true, isInk, operator [isOperator], true, true⟩,
  -- brackets
  ⟨false, isWord, callOpening, false, false⟩,
  ⟨true, (· != '\n'), opening, false, false⟩,
  ⟨true, isInk, closing, false, false⟩,
  -- separators and continuation marks
  ⟨true, isInk, operator [fun c => c == ',' || c == ';'], false, true⟩,
  ⟨true, isInk, ellipsis, true, true⟩]

/-- Two or more blanks become one. -/
def blankRunRule : Rule := ⟨true, isInk, blankRun, false, false⟩

/-- The first cut that applies to a text; `none` if the text is in order. -/
def cut? (s : List Char) : Option Cut :=
  if !s.isEmpty && s.all isBlank then some ⟨[], [' '], [], false⟩
  else
    match quotedCut? s with
    | some c => some c
    | none =>
        match inkRules.findSome? (fun r => r.cut? s) with
        | some c => some c
        | none => blankRunRule.cut? s

/-! ## What the rules find -/

/-- The probes of the rules for code: those for numbers, and probes for symbols. -/
theorem inkRules_probe : ∀ r ∈ inkRules, r.probe = scientific ∨ r.probe = ratio ∨
    ∃ ps, ps ≠ [] ∧ Probe.TakesSymbols r.probe ps := by
  intro r hr
  simp only [inkRules, List.mem_cons, List.not_mem_nil, or_false] at hr
  rcases hr with rfl | rfl | rfl | rfl | rfl | rfl | rfl | rfl | rfl | rfl | rfl | rfl | rfl | rfl |
    rfl | rfl
  · exact Or.inl rfl
  · exact Or.inr (Or.inl rfl)
  · exact Or.inr (Or.inr ⟨_, by simp, increment_takesSymbols⟩)
  · exact Or.inr (Or.inr ⟨_, by simp, unarySign_takesSymbols⟩)
  · exact Or.inr (Or.inr ⟨_, by simp, operator_takesSymbols _⟩)
  · exact Or.inr (Or.inr ⟨_, by simp, operator_takesSymbols _⟩)
  · exact Or.inr (Or.inr ⟨_, by simp, operator_takesSymbols _⟩)
  · exact Or.inr (Or.inr ⟨_, by simp, operator_takesSymbols _⟩)
  · exact Or.inr (Or.inr ⟨_, by simp, operator_takesSymbols _⟩)
  · exact Or.inr (Or.inr ⟨_, by simp, operator_takesSymbols _⟩)
  · exact Or.inr (Or.inr ⟨_, by simp, operator_takesSymbols _⟩)
  · exact Or.inr (Or.inr ⟨_, by simp, callOpening_takesSymbols⟩)
  · exact Or.inr (Or.inr ⟨_, by simp, opening_takesSymbols⟩)
  · exact Or.inr (Or.inr ⟨_, by simp, closing_takesSymbols⟩)
  · exact Or.inr (Or.inr ⟨_, by simp, operator_takesSymbols _⟩)
  · exact Or.inr (Or.inr ⟨_, by simp, ellipsis_takesSymbols⟩)

theorem inkRules_inOrder : ∀ r ∈ inkRules, Probe.InOrder r.probe := by
  intro r hr
  rcases inkRules_probe r hr with hprobe | hprobe | ⟨ps, -, hsymbols⟩
  · rw [hprobe]
    exact scientific_inOrder
  · rw [hprobe]
    exact ratio_inOrder
  · exact hsymbols.inOrder

theorem inkRules_takesInk : ∀ r ∈ inkRules, Probe.TakesInk r.probe := by
  intro r hr
  rcases inkRules_probe r hr with hprobe | hprobe | ⟨ps, hps, hsymbols⟩
  · rw [hprobe]
    exact scientific_takesInk
  · rw [hprobe]
    exact ratio_takesInk
  · exact hsymbols.takesInk hps

/-- The cuts of a text: the blank one, those at literals and comments, by the rules, and at runs of
blanks. -/
theorem cut?_eq_some {s : List Char} {c : Cut} (h : cut? s = some c) :
    (s.all isBlank = true ∧ c = ⟨[], [' '], [], false⟩) ∨ literalCut? s = some c ∨
      commentCut? s = some c ∨ (∃ r ∈ inkRules, r.cut? s = some c) ∨
      blankRunRule.cut? s = some c := by
  rw [cut?] at h
  split at h
  · next hblank =>
      rw [Bool.and_eq_true] at hblank
      exact Or.inl ⟨hblank.2, (Option.some.inj h).symm⟩
  · split at h
    · next hquoted =>
        rcases quotedCut?_eq_some (hquoted.trans h) with hliteral | hcomment
        · exact Or.inr (Or.inl hliteral)
        · exact Or.inr (Or.inr (Or.inl hcomment))
    · split at h
      · next hrule =>
          cases h
          exact Or.inr (Or.inr (Or.inr (Or.inl (List.exists_of_findSome?_eq_some hrule))))
      · exact Or.inr (Or.inr (Or.inr (Or.inr h)))

/-! ## Cuts make smaller texts -/

/-- Fewer characters that are not blank, or as many and a shorter text. -/
def Smaller (a s : List Char) : Prop :=
  inkCount a < inkCount s ∨ (inkCount a = inkCount s ∧ a.length < s.length)

theorem length_remainder_add_le (s : List Char) :
    (remainder s).length + (s.takeWhile isBlank).length ≤ s.length := by
  have h1 : (remainder s).length ≤ (skipBlanks s).length := (firstLine_sublist _).length_le
  have h2 : (s.takeWhile isBlank ++ s.dropWhile isBlank).length = s.length :=
    congrArg List.length List.takeWhile_append_dropWhile
  rw [List.length_append] at h2
  rw [skipBlanks] at h1
  omega

theorem smaller_of_le {a s : List Char} (hink : inkCount a ≤ inkCount s)
    (hlen : a.length < s.length) : Smaller a s := by
  rcases Nat.lt_or_eq_of_le hink with h | h
  · exact .inl h
  · exact .inr ⟨h, hlen⟩

theorem blankRunRule_smaller {s : List Char} {c : Cut} (h : blankRunRule.cut? s = some c) :
    Smaller c.left s ∧ Smaller c.right s := by
  obtain ⟨lead, t, f, -, rfl, ht, rfl⟩ := Rule.cut?_eq_some h
  obtain ⟨hrun, rfl⟩ := blankRun_eq_some ht
  have hlen := length_remainder_add_le t
  have hink := inkCount_le_of_sublist (remainder_sublist t)
  constructor
  · refine smaller_of_le ?_ ?_ <;> simp [blankRunRule]
    omega
  · refine smaller_of_le ?_ ?_ <;> simp [blankRunRule] <;> omega

/-- Less ink on each side is smaller on each side. -/
theorem smaller_of_ink {s : List Char} {c : Cut}
    (h : inkCount c.left < inkCount s ∧ inkCount c.right < inkCount s) :
    Smaller c.left s ∧ Smaller c.right s :=
  ⟨.inl h.1, .inl h.2⟩

/-- Both sides of a cut at a literal or comment are smaller than the text. -/
theorem quotedCut?_smaller {s : List Char} {c : Cut} (h : quotedCut? s = some c) :
    Smaller c.left s ∧ Smaller c.right s := by
  rcases quotedCut?_eq_some h with hliteral | hcomment
  · exact smaller_of_ink (literalCut?_ink hliteral)
  · exact smaller_of_ink (commentCut?_ink hcomment)

/-- Both sides of a cut are smaller than the text. -/
theorem cut?_smaller {s : List Char} {c : Cut} (h : cut? s = some c) :
    Smaller c.left s ∧ Smaller c.right s := by
  rcases cut?_eq_some h with ⟨-, rfl⟩ | hliteral | hcomment | ⟨r, hr, hcut⟩ | hrun
  · have hs : s ≠ [] := by
      rintro rfl
      cases h
    have hempty : Smaller [] s := smaller_of_le (Nat.zero_le _) (List.length_pos_iff.2 hs)
    exact ⟨hempty, hempty⟩
  · exact smaller_of_ink (literalCut?_ink hliteral)
  · exact smaller_of_ink (commentCut?_ink hcomment)
  · exact smaller_of_ink (Rule.cut?_ink (inkRules_takesInk r hr) hcut)
  · exact blankRunRule_smaller hrun

end Pcode.Spacing
