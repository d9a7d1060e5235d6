import Pcode.Proofs.Spacing.Gap.Tree
import Pcode.Proofs.Spacing.Literals

set_option autoImplicit false

/-! # Gaps that are lost

A literal at the start of a text is cut out with nothing left of it, so that the text right of it,
with the blanks it begins with, is put in order as if it were a line of its own. A literal or a
number that comes next is then found with an empty lead, and the blanks in front of it are dropped.

Main statement: the gap between two characters is kept in every line unless the first is a quote
and the second one a quote or a decimal digit (`format_keeps_apart_iff`); and for each such pair
there is a line that loses it. -/

namespace Pcode.Spacing

open Pcode.Text

theorem isBlank_of_isQuote {c : Char} (h : isQuote c = true) : isBlank c = false := by
  rw [isQuote, Bool.or_eq_true, beq_iff_eq, beq_iff_eq] at h
  rcases h with rfl | rfl
  · decide
  · decide

theorem isBlank_of_isOperand {c : Char} (h : isOperand c = true) : isBlank c = false := by
  rw [isOperand, Bool.or_eq_true] at h
  rcases h with h | h
  · exact isBlank_of_isWord h
  · exact isBlank_of_isQuote h

/-! ## Whole numbers -/

theorem not_mem_of_isDecimal {w : List Char} (hw : ∀ c ∈ w, isDecimal c = true) {c : Char}
    (hc : isDecimal c = false) : c ∉ w := by
  intro hmem
  rw [hw c hmem] at hc
  cases hc

theorem skipBlanks_decimals {w : List Char} (hw : ∀ c ∈ w, isDecimal c = true) :
    skipBlanks w = w := by
  cases w with
  | nil => rfl
  | cons c w => exact BeginsInk.skipBlanks_eq ⟨c, rfl, isBlank_of_isDecimal (hw c (by simp))⟩

theorem Probe.Symbolic.eq_none {p : Probe} (hp : p.Symbolic) {t : List Char}
    (ht : ∀ c ∈ t, isDecimal c = true) : p t = none := by
  cases hfound : p t with
  | none => rfl
  | some f =>
      obtain ⟨c, hc, hsymbol⟩ := hp.starts t f hfound
      have hmem : c ∈ t := (List.mem_filter.1 (List.mem_of_mem_head? hc)).1
      have hdecimal := ht c hmem
      rw [(of_mem_symbolChars hsymbol).2.2.1] at hdecimal
      cases hdecimal

/-- A number that goes on after its digits is no whole number. -/
theorem numberProbe_decimals {p : Probe} (hp : p = scientific ∨ p = ratio) {t : List Char}
    (ht : ∀ c ∈ t, isDecimal c = true) : p t = none := by
  have hrest : t.dropWhile isDecimal = [] := List.dropWhile_eq_nil_iff.2 ht
  rcases hp with rfl | rfl
  · simp only [scientific, skipBlanks_decimals ht, hrest]
    simp [fraction, exponentMark?]
  · simp only [ratio, skipBlanks_decimals ht, hrest]
    simp [skipBlanks]

theorem cut?_decimals {w : List Char} (hw : ∀ c ∈ w, isDecimal c = true) : cut? w = none := by
  cases w with
  | nil => rfl
  | cons c w =>
      have hc : isBlank c = false := isBlank_of_isDecimal (hw c List.mem_cons_self)
      have hquoted : quotedCut? (c :: w) = none :=
        quotedCut?_eq_none (not_mem_of_isDecimal hw (by decide))
          (not_mem_of_isDecimal hw (by decide)) (not_mem_of_isDecimal hw (by decide))
      have hrules : (inkRules.findSome? fun r => r.cut? (c :: w)) = none := by
        apply List.findSome?_eq_none_iff.2
        intro r hr
        apply Rule.cut?_eq_none
        intro t ht
        have hdecimal : ∀ d ∈ t, isDecimal d = true := fun d hd => hw d (ht.mem hd)
        rcases inkRules_cases r hr with hsymbolic | ⟨hprobe, -⟩
        · exact hsymbolic.eq_none hdecimal
        · exact numberProbe_decimals hprobe hdecimal
      have hblanks : blankRunRule.cut? (c :: w) = none := by
        apply Rule.cut?_eq_none
        intro t ht
        have hempty : t.takeWhile isBlank = [] := by
          rw [List.takeWhile_eq_nil_iff]
          intro hpos
          rw [isBlank_of_isDecimal (hw _ (ht.mem (List.get_mem t ⟨0, hpos⟩)))]
          exact Bool.false_ne_true
        simp [blankRunRule, blankRun, hempty]
      rw [cut?_of_ink (by simp [hc]), hquoted, hrules, hblanks]
      rfl

/-- A whole number is in order. -/
theorem format_decimals {w : List Char} (hw : ∀ c ∈ w, isDecimal c = true) : format w = w :=
  format_of_uncut (cut?_decimals hw)

/-! ## A number after a literal -/

theorem literalCut?_start {x : Char} (hx : isQuote x = true) {s : List Char}
    (hs : ∀ c ∈ ['\'', '"', '\n'], c ∉ s) (hafter : ∀ c ∈ s.head?, isAfterLiteral c = true) :
    literalCut? ([x, 'a', 'a', x] ++ s) = some ⟨[], [x, 'a', 'a', x], s, false⟩ := by
  have hsingle : '\'' ∉ s := hs _ (by simp)
  have hdouble : '"' ∉ s := hs _ (by simp)
  have hline : '\n' ∉ s := hs _ (by simp)
  rw [isQuote, Bool.or_eq_true, beq_iff_eq, beq_iff_eq] at hx
  rcases hx with rfl | rfl
  · have hfound : singleQuoted (quote ['a', 'a'] ++ s) = some ⟨[], quote ['a', 'a'], s⟩ :=
      singleQuoted_quote (by simp) (by simp) hsingle hline hafter
    have hcut : singleQuotedRule.cut? (quote ['a', 'a'] ++ s) =
        some ⟨[], quote ['a', 'a'], s, false⟩ := by
      simp [Rule.cut?, Rule.split?, singleQuotedRule, hfound]
    have hnone : doubleQuotedRule.cut? (quote ['a', 'a'] ++ s) = none :=
      doubleQuotedRule_cut?_eq_none (by simp [quote, hdouble])
    change literalCut? (quote ['a', 'a'] ++ s) = some ⟨[], quote ['a', 'a'], s, false⟩
    rw [literalCut?, hcut, hnone]
  · have hskip : skipBlanks (['"', 'a', 'a', '"'] ++ s) = ['"', 'a', 'a', '"'] ++ s :=
      BeginsInk.skipBlanks_eq ⟨'"', rfl, by decide⟩
    have hfound : doubleQuoted (['"', 'a', 'a', '"'] ++ s) =
        some ⟨[], ['"', 'a', 'a', '"'], s⟩ := by
      rw [doubleQuoted, hskip]
      simp [afterLiteral?_of_head hline hafter]
    have hcut : doubleQuotedRule.cut? (['"', 'a', 'a', '"'] ++ s) =
        some ⟨[], ['"', 'a', 'a', '"'], s, false⟩ := by
      simp only [Rule.cut?, Rule.split?, doubleQuotedRule, if_true, hfound]
      simp
    have hnone : singleQuotedRule.cut? (['"', 'a', 'a', '"'] ++ s) = none :=
      singleQuotedRule_cut?_eq_none (by simp [hsingle])
    rw [literalCut?, hcut, hnone]

section Number

variable {y : Char} (hy : isDecimal y = true)

include hy

theorem not_mem_number {c : Char} (hc : isDecimal c = false) (hrest : c ∉ [' ', 'e', '1']) :
    c ∉ [' ', y, 'e', '1'] := by
  have hne : c ≠ y := by
    rintro rfl
    rw [hy] at hc
    cases hc
  simpa [hne] using hrest

theorem cut?_number : cut? [' ', y, 'e', '1'] = some ⟨[y], ['e'], ['1'], false⟩ := by
  have hquoted : quotedCut? [' ', y, 'e', '1'] = none :=
    quotedCut?_eq_none (not_mem_number hy (by decide) (by decide))
      (not_mem_number hy (by decide) (by decide)) (not_mem_number hy (by decide) (by decide))
  have hskip : skipBlanks [' ', y, 'e', '1'] = [y, 'e', '1'] := by
    rw [skipBlanks_cons (by decide)]
    exact BeginsInk.skipBlanks_eq ⟨y, rfl, isBlank_of_isDecimal hy⟩
  have he : isDecimal 'e' = false := by decide
  have h1 : isDecimal '1' = true := by decide
  have hfound : scientific [' ', y, 'e', '1'] = some ⟨[y], ['e'], ['1']⟩ := by
    simp only [scientific, hskip]
    simp [hy, he, h1, fraction, exponentMark?, isSign, firstLine]
  rw [cut?_of_ink (by simp [isBlank_of_isDecimal hy]), hquoted]
  simp [inkRules, Rule.cut?, Rule.split?, hfound]

/-- The blank in front of a number is dropped at the start of a text. -/
theorem format_number : format [' ', y, 'e', '1'] = [y, 'e', '1'] := by
  have hone : ∀ c ∈ ['1'], isDecimal c = true := List.all_eq_true.1 (by decide)
  rw [format_of_cut (cut?_number hy), format_decimals (by simpa using hy), format_decimals hone]
  rfl

theorem format_literal_number {x : Char} (hx : isQuote x = true) :
    format [x, 'a', 'a', x, ' ', y, 'e', '1'] = [x, 'a', 'a', x, y, 'e', '1'] := by
  have hfree : ∀ c ∈ ['\'', '"', '\n'], c ∉ [' ', y, 'e', '1'] := by
    rintro c hc
    rw [List.mem_cons, List.mem_cons, List.mem_singleton] at hc
    rcases hc with rfl | rfl | rfl <;> exact not_mem_number hy (by decide) (by decide)
  have hcut : cut? ([x, 'a', 'a', x] ++ [' ', y, 'e', '1']) =
      some ⟨[], [x, 'a', 'a', x], [' ', y, 'e', '1'], false⟩ := by
    have hliteral := literalCut?_start hx hfree (by rintro c ⟨⟩; decide)
    rw [cut?_of_ink (by simp [isBlank_of_isQuote hx]), quotedCut?, hliteral]
    rfl
  have hempty : format [] = [] := format_of_uncut rfl
  calc format [x, 'a', 'a', x, ' ', y, 'e', '1']
      = format [] ++ [x, 'a', 'a', x] ++ format [' ', y, 'e', '1'] := format_of_cut hcut
    _ = [x, 'a', 'a', x, y, 'e', '1'] := by rw [hempty, format_number hy]; rfl

end Number

/-! ## All gaps -/

/-- Two literals are put together, whatever their quotes. The first is the longer one, for of two
literals with different quotes that one is cut out. -/
theorem format_literal_literal {x y : Char} (hx : isQuote x = true) (hy : isQuote y = true) :
    format [x, 'a', 'a', x, ' ', y, 'b', y] = [x, 'a', 'a', x, y, 'b', y] := by
  rw [isQuote, Bool.or_eq_true, beq_iff_eq, beq_iff_eq] at hx hy
  rcases hx with rfl | rfl
  · rcases hy with rfl | rfl
    · cbv
    · cbv
  · rcases hy with rfl | rfl
    · cbv
    · cbv

/-- For a quote and after it a quote or a decimal digit there is a line that loses the gap. -/
theorem exists_lost {x y : Char} (hx : isQuote x = true)
    (hy : isQuote y = true ∨ isDecimal y = true) :
    ∃ b, '\n' ∉ [x, 'a', 'a'] ++ x :: ([' '] ++ y :: b) ∧
      ∀ c ∈ format ([x, 'a', 'a'] ++ x :: ([' '] ++ y :: b)), isBlank c = false := by
  have hxblank : isBlank x = false := isBlank_of_isQuote hx
  have hyblank : isBlank y = false := hy.elim isBlank_of_isQuote isBlank_of_isDecimal
  have hletters : isBlank 'a' = false ∧ isBlank 'b' = false ∧ isBlank 'e' = false ∧
      isBlank '1' = false := by decide
  rcases hy with hy | hy
  · refine ⟨['b', y], by simp [newline_ne hxblank, newline_ne hyblank], ?_⟩
    have hformat := format_literal_literal hx hy
    simp only [List.cons_append, List.nil_append, hformat]
    simp [hxblank, hyblank, hletters]
  · refine ⟨['e', '1'], by simp [newline_ne hxblank, newline_ne hyblank], ?_⟩
    have hformat := format_literal_number hy hx
    simp only [List.cons_append, List.nil_append, hformat]
    simp [hxblank, hyblank, hletters]

/-- **Which gaps are kept.** Two characters of names, numbers or literals that are apart in a line
stay apart when its spacing is put in order, whatever the line, if and only if they are not a quote
and after it a quote or a decimal digit. -/
theorem format_keeps_apart_iff {x y : Char} (hx : isOperand x = true) (hy : isOperand y = true) :
    (∀ a g b, '\n' ∉ a ++ x :: (g ++ y :: b) → g ≠ [] → g.all isBlank = true →
      Apart (ink a) x y (ink b) (format (a ++ x :: (g ++ y :: b)))) ↔
    ¬(isQuote x = true ∧ (isQuote y = true ∨ isDecimal y = true)) := by
  have hxblank := isBlank_of_isOperand hx
  have hyblank := isBlank_of_isOperand hy
  constructor
  · rintro hkeeps ⟨hquote, hkind⟩
    obtain ⟨b, hline, hink⟩ := exists_lost hquote hkind
    have happart := hkeeps [x, 'a', 'a'] [' '] b hline (by simp) (by decide)
    exact Gap.not_of_ink hink ((gap_iff_apart hxblank hyblank).2 happart)
  · intro hpair a g b hline hne hg
    have hgap : Gap (ink a ++ [x]) (y :: ink b) (a ++ x :: (g ++ y :: b)) :=
      (gap_iff_apart hxblank hyblank).2 ⟨a, g, b, rfl, hne, hg, rfl, rfl⟩
    have hfirm : Firm (ink a ++ [x]).getLast? (y :: ink b).head? := by
      rw [List.getLast?_concat, List.head?_cons]
      refine ⟨by rintro c ⟨⟩; exact hx, by rintro c ⟨⟩; exact hy, ?_⟩
      rintro hquote c ⟨⟩
      have hkind : ¬(isQuote y = true ∨ isDecimal y = true) := fun h => hpair ⟨hquote x rfl, h⟩
      rwa [not_or, Bool.not_eq_true, Bool.not_eq_true] at hkind
    exact (gap_iff_apart hxblank hyblank).1 (gap_format hline hgap hfirm)

/-- A name after a literal stays apart from it. -/
theorem format_keeps_apart_row :
    isOperand '\'' = true ∧ isOperand 'b' = true ∧
      Apart ['[', '\'', 'a'] '\'' 'b' [']'] (format "['a'  b]".toList) := by
  have hx : isOperand '\'' = true := by decide
  have hy : isOperand 'b' = true := by decide
  refine ⟨hx, hy, ?_⟩
  exact (format_keeps_apart_iff hx hy).2 (by decide) "['a".toList [' ', ' '] [']'] (by decide)
    (by simp) (by decide)

/-- **Lost gaps.** Elements of a row become one: two literals, a literal and a number. -/
theorem format_joins_elements :
    format "'a' 'b'".toList = "'a''b'".toList ∧
      format "['a' 1e3]".toList = "['a'1e3]".toList ∧
      format "[\"a\" 1/2]".toList = "[\"a\"1/2]".toList := by
  refine ⟨?_, ?_, ?_⟩
  · cbv
  · cbv
  · cbv

end Pcode.Spacing
