import Mathlib
import Pcode.Proofs.Spacing.Lead
import Pcode.Proofs.Spacing.Trailing.Probe

set_option autoImplicit false

/-! # Lines with literals

A line of code with literals in single quotes is cut at its last literal first. The search looks for
the longest lead, and inside the last literal there may be characters after which a literal could
begin; but a literal needs two quotes, and right of the opening one there is only one left
(`singleQuotedRule_cut?_of_last`).

Main statement: with the spacing put in order, a line is its literals as they were and between them
the code, each piece of it put in order on its own (`format_copies_literals`). -/

namespace Pcode.Spacing

open Pcode.Text

/-! ## One literal -/

/-- A text in single quotes. -/
def quote (body : List Char) : List Char := '\'' :: (body ++ ['\''])

theorem singleBody_cons_of_ne {c : Char} (hc : c ≠ '\'') (s : List Char) :
    singleBody (c :: s) = (singleBody s).map fun q => (c :: q.1, q.2) := by
  rw [singleBody.eq_def]
  split
  · next heq => cases heq
  · next heq => exact absurd (List.cons.inj heq).1 hc
  · next heq =>
      cases heq
      rw [if_neg hc]

theorem singleBody_eq_none {s : List Char} (h : '\'' ∉ s) : singleBody s = none := by
  induction s with
  | nil => rfl
  | cons c s ih =>
      obtain ⟨hc, hrest⟩ := List.ne_and_not_mem_of_not_mem_cons h
      rw [singleBody_cons_of_ne hc.symm, ih hrest]
      rfl

/-- A body without quotes ends at the first quote, if that is not doubled. -/
theorem singleBody_of_body {body s : List Char} (hbody : '\'' ∉ body)
    (hs : ∀ c ∈ s.head?, c ≠ '\'') : singleBody (body ++ '\'' :: s) = some (body ++ ['\''], s) := by
  induction body with
  | nil =>
      rw [List.nil_append, singleBody.eq_def]
      split
      · next heq => cases heq
      · next heq =>
          cases heq
          exact absurd rfl (hs '\'' rfl)
      · next heq =>
          cases heq
          rfl
  | cons c body ih =>
      obtain ⟨hc, hrest⟩ := List.ne_and_not_mem_of_not_mem_cons hbody
      rw [List.cons_append, singleBody_cons_of_ne hc.symm, ih hrest]
      rfl

/-- A literal needs two quotes. -/
theorem singleQuoted_eq_none {s : List Char} (h : s.count '\'' ≤ 1) : singleQuoted s = none := by
  rw [singleQuoted]
  split
  · next t hskip =>
      have hcount : ('\'' :: t).count '\'' ≤ s.count '\'' := by
        rw [← hskip]
        exact (skipBlanks_sublist s).count_le '\''
      rw [List.count_cons_self] at hcount
      have hnone : '\'' ∉ t := List.count_eq_zero.1 (by omega)
      rw [singleBody_eq_none hnone]
  · rfl

/-- Characters that may follow a literal. -/
def isAfterLiteral (c : Char) : Bool :=
  isClosing c || isSign c || c == ',' || c == ';' || isBlank c

/-- What follows a literal is kept up to the end of the line. -/
theorem afterLiteral?_eq_firstLine {s : List Char} (hblank : '\n' ∉ s.takeWhile isBlank)
    (h : ∀ c ∈ s.head?, isAfterLiteral c = true) : afterLiteral? s = some (firstLine s) := by
  cases s with
  | nil => rfl
  | cons c s =>
      have hc : isAfterLiteral c = true := h c rfl
      rw [isAfterLiteral, Bool.or_eq_true] at hc
      rw [afterLiteral?]
      split
      · next hother =>
          have hne : c ≠ '\n' := by
            rintro rfl
            exact absurd hother (by decide)
          simp [firstLine, hne]
      · next hother =>
          rw [if_pos (hc.resolve_left hother)]
          conv_rhs => rw [← List.takeWhile_append_dropWhile (p := isBlank) (l := c :: s)]
          rw [firstLine_append hblank, firstLine_of_not_mem hblank]

theorem afterLiteral?_of_head {s : List Char} (hs : '\n' ∉ s)
    (h : ∀ c ∈ s.head?, isAfterLiteral c = true) : afterLiteral? s = some s := by
  have hblank : '\n' ∉ s.takeWhile isBlank := fun hmem => hs ((List.takeWhile_sublist _).mem hmem)
  rw [afterLiteral?_eq_firstLine hblank h, firstLine_of_not_mem hs]

/-- What the probe finds at a literal. -/
theorem singleQuoted_quote {body s : List Char} (hne : body ≠ []) (hbody : '\'' ∉ body)
    (hquote : '\'' ∉ s) (hline : '\n' ∉ s) (hafter : ∀ c ∈ s.head?, isAfterLiteral c = true) :
    singleQuoted (quote body ++ s) = some ⟨[], quote body, s⟩ := by
  have htext : quote body ++ s = '\'' :: (body ++ '\'' :: s) := by simp [quote]
  have hskip : skipBlanks (quote body ++ s) = '\'' :: (body ++ '\'' :: s) := by
    rw [htext]
    exact BeginsInk.skipBlanks_eq ⟨'\'', rfl, by decide⟩
  have hlength : ¬(body ++ ['\'']).length < 2 := by
    have := List.length_pos_iff.2 hne
    rw [List.length_append, List.length_singleton]
    omega
  have hsingle := singleBody_of_body hbody fun c hc heq =>
    hquote (heq ▸ List.mem_of_mem_head? hc)
  rw [singleQuoted, hskip]
  simp only [hsingle, if_neg hlength, afterLiteral?_of_head hline hafter]
  rfl

/-- **The last literal is found**: after code that may stand before a literal, and before code
without quotes. -/
theorem singleQuotedRule_cut?_of_last {v body s : List Char} {c : Char}
    (hstart : ∀ d ∈ (skipBlanks (v ++ [c])).head?, d ≠ '\'') (hink : (v ++ [c]).all isBlank = false)
    (hv : '\n' ∉ v) (hc : isBeforeLiteral c = true) (hne : body ≠ []) (hbody : '\'' ∉ body)
    (hquote : '\'' ∉ s) (hline : '\n' ∉ s) (hafter : ∀ c ∈ s.head?, isAfterLiteral c = true) :
    singleQuotedRule.cut? (v ++ [c] ++ (quote body ++ s)) =
      some ⟨v ++ [c], quote body, s, false⟩ := by
  have hfound := singleQuoted_quote hne hbody hquote hline hafter
  have hempty : singleQuoted (v ++ [c] ++ (quote body ++ s)) = none := by
    obtain ⟨d, r, hskip, -⟩ := (beginsInk_skipBlanks hink).exists_cons
    have hd : d ≠ '\'' := hstart d (by rw [hskip]; rfl)
    rw [singleQuoted, skipBlanks, (takeWhile_dropWhile_append hskip _).2]
    split
    · next heq => cases heq; exact absurd rfl hd
    · rfl
  -- behind the opening quote only the closing one is left, and a literal needs two
  have hnone : lastSplit isBeforeLiteral singleQuoted (quote body ++ s) = none := by
    have htext : quote body ++ s = '\'' :: (body ++ '\'' :: s) := by simp [quote]
    rw [htext]
    refine lastSplit_eq_none (fun t ht => singleQuoted_eq_none ?_) '\''
    have hcount : (body ++ '\'' :: s).count '\'' = 1 := by
      rw [List.count_append, List.count_cons_self, List.count_eq_zero.2 hbody,
        List.count_eq_zero.2 hquote]
    exact hcount ▸ ht.sublist.count_le '\''
  have hsplit : lastSplit isBeforeLiteral singleQuoted (v ++ [c] ++ (quote body ++ s)) =
      some (v ++ [c], ⟨[], quote body, s⟩) := by
    rw [List.append_assoc]
    exact lastSplit_of_end hv hc hfound hnone
  simp only [Rule.cut?, Rule.split?, singleQuotedRule, if_true, hempty, hsplit]
  simp

/-! ## Lines -/

/-- A literal, without its quotes, and the code after it. -/
structure Piece where
  body : List Char
  code : List Char

/-- A line of code with literals: the code before the first literal, and the literals, each with
the code after it. -/
structure LiteralLine where
  first : List Char
  pieces : List Piece

namespace LiteralLine

/-- The text of a line, with `f` applied to each piece of code. -/
def textWith (f : List Char → List Char) (line : LiteralLine) : List Char :=
  f line.first ++ line.pieces.flatMap fun p => quote p.body ++ f p.code

/-- The text of a line. -/
def text (line : LiteralLine) : List Char := line.textWith id

/-- The pieces of code of a line. -/
def codes (line : LiteralLine) : List (List Char) := line.first :: line.pieces.map Piece.code

/-- Lines whose quotes can only be read in one way: no quotes, comment signs and line ends in the
code, no quotes and line ends in the literals, and the right characters beside them. -/
structure Proper (line : LiteralLine) : Prop where
  first_ink : line.first.all isBlank = false
  codes_free : ∀ s ∈ line.codes, ∀ c ∈ ['\'', '"', '%', '\n'], c ∉ s
  bodies_ne : ∀ p ∈ line.pieces, p.body ≠ []
  bodies_free : ∀ p ∈ line.pieces, ∀ c ∈ ['\'', '"', '\n'], c ∉ p.body
  /-- what stands before a literal: all pieces of code but the last -/
  before : ∀ s ∈ line.codes.dropLast, ∃ c ∈ s.getLast?, isBeforeLiteral c = true
  /-- what stands after a literal, if the line does not end there -/
  after : ∀ p ∈ line.pieces, ∀ c ∈ p.code.head?, isAfterLiteral c = true

/-- A line with one more literal. -/
def snoc (line : LiteralLine) (p : Piece) : LiteralLine := ⟨line.first, line.pieces ++ [p]⟩

theorem textWith_snoc (f : List Char → List Char) (line : LiteralLine) (p : Piece) :
    (line.snoc p).textWith f = line.textWith f ++ (quote p.body ++ f p.code) := by
  simp [textWith, snoc]

theorem codes_snoc (line : LiteralLine) (p : Piece) :
    (line.snoc p).codes = line.codes ++ [p.code] := by
  simp [codes, snoc]

theorem dropLast_codes_snoc (line : LiteralLine) (p : Piece) :
    (line.snoc p).codes.dropLast = line.codes := by
  rw [codes_snoc, List.dropLast_concat]

theorem Proper.of_snoc {line : LiteralLine} {p : Piece} (h : (line.snoc p).Proper) :
    line.Proper where
  first_ink := h.first_ink
  codes_free s hs := h.codes_free s (by rw [codes_snoc]; exact List.mem_append_left _ hs)
  bodies_ne q hq := h.bodies_ne q (List.mem_append_left _ hq)
  bodies_free q hq := h.bodies_free q (List.mem_append_left _ hq)
  before s hs := h.before s (by rw [dropLast_codes_snoc]; exact List.mem_of_mem_dropLast hs)
  after q hq := h.after q (List.mem_append_left _ hq)

/-- The end of a line is the end of its last piece of code. -/
theorem exists_getLast?_text (line : LiteralLine) {P : Char → Prop}
    (h : ∀ s ∈ line.codes, ∃ c ∈ s.getLast?, P c) : ∃ v c, line.text = v ++ [c] ∧ P c := by
  obtain ⟨first, pieces⟩ := line
  -- the last piece of code is the first one or stands after the last literal
  have hlast : ∃ w s, text ⟨first, pieces⟩ = w ++ s ∧ s ∈ codes ⟨first, pieces⟩ := by
    induction pieces using List.reverseRecOn with
    | nil => exact ⟨[], first, by simp [text, textWith], by simp [codes]⟩
    | append_singleton pieces p _ =>
        refine ⟨text ⟨first, pieces⟩ ++ quote p.body, p.code, ?_, by simp [codes]⟩
        have hsnoc := textWith_snoc id ⟨first, pieces⟩ p
        rw [List.append_assoc]
        exact hsnoc
  obtain ⟨w, s, htext, hs⟩ := hlast
  obtain ⟨c, hc, hP⟩ := h s hs
  refine ⟨w ++ s.dropLast, c, ?_, hP⟩
  rw [htext, List.append_assoc, List.dropLast_append_getLast? c hc]

theorem Proper.not_mem_text {line : LiteralLine} (h : line.Proper) {c : Char}
    (hc : c ∈ ['"', '\n']) : c ∉ line.text := by
  intro hmem
  rcases List.mem_append.1 hmem with hfirst | hpieces
  · exact h.codes_free line.first (by simp [codes]) c (by simp at hc ⊢; tauto) hfirst
  · obtain ⟨p, hp, hmem⟩ := List.mem_flatMap.1 hpieces
    rcases List.mem_append.1 hmem with hquote | hcode
    · rcases List.mem_cons.1 hquote with rfl | hbody
      · exact absurd hc (by decide)
      · rcases List.mem_append.1 hbody with hbody | hclose
        · exact h.bodies_free p hp c (List.mem_cons_of_mem _ hc) hbody
        · rw [List.mem_singleton.1 hclose] at hc
          exact absurd hc (by decide)
    · have hcodes : p.code ∈ line.codes := List.mem_cons_of_mem _ (List.mem_map_of_mem hp)
      exact h.codes_free p.code hcodes c (by simp at hc ⊢; tauto) hcode

/-- The first character of a line that is not blank is one of the code before its literals. -/
theorem Proper.skipBlanks_head {line : LiteralLine} (h : line.Proper) :
    line.text.all isBlank = false ∧ ∀ d ∈ (skipBlanks line.text).head?, d ≠ '\'' := by
  obtain ⟨d, r, hskip, hd⟩ := (beginsInk_skipBlanks h.first_ink).exists_cons
  have hmem : d ∈ line.first := by
    apply (skipBlanks_sublist line.first).mem
    rw [hskip]
    exact List.mem_cons_self
  have htext : skipBlanks line.text = d :: (r ++ _) := (takeWhile_dropWhile_append hskip _).2
  constructor
  · show (line.first ++ _).all isBlank = false
    rw [List.all_append, h.first_ink, Bool.false_and]
  · rintro e he rfl
    rw [htext] at he
    cases he
    exact h.codes_free line.first (by simp [codes]) '\'' (by simp) hmem

/-- A line is cut at its last literal. -/
theorem Proper.cut?_snoc {line : LiteralLine} {p : Piece} (h : (line.snoc p).Proper) :
    cut? (line.snoc p).text = some ⟨line.text, quote p.body, p.code, false⟩ := by
  have hline := h.of_snoc
  obtain ⟨hink, hstart⟩ := hline.skipBlanks_head
  obtain ⟨v, c, htext, hc⟩ : ∃ v c, line.text = v ++ [c] ∧ isBeforeLiteral c = true := by
    apply line.exists_getLast?_text
    rw [← dropLast_codes_snoc line p]
    exact h.before
  have hp : p ∈ (line.snoc p).pieces := List.mem_append_right _ List.mem_cons_self
  have hcode : p.code ∈ (line.snoc p).codes := by
    rw [codes_snoc]
    exact List.mem_append_right _ List.mem_cons_self
  have hbreak : '\n' ∉ line.text := hline.not_mem_text (by simp)
  have hsingle : singleQuotedRule.cut? (line.snoc p).text =
      some ⟨line.text, quote p.body, p.code, false⟩ := by
    have hsnoc : (line.snoc p).text = line.text ++ (quote p.body ++ p.code) :=
      textWith_snoc id line p
    rw [htext] at hink hstart hbreak
    rw [hsnoc, htext]
    exact singleQuotedRule_cut?_of_last hstart hink
      (fun hmem => hbreak (List.mem_append_left _ hmem)) hc (h.bodies_ne p hp)
      (h.bodies_free p hp '\'' (by simp)) (h.codes_free p.code hcode '\'' (by simp))
      (h.codes_free p.code hcode '\n' (by simp)) (h.after p hp)
  have hdouble : doubleQuotedRule.cut? (line.snoc p).text = none :=
    doubleQuotedRule_cut?_eq_none (h.not_mem_text (by simp))
  rw [cut?_of_ink h.skipBlanks_head.1]
  simp only [quotedCut?, literalCut?, hsingle, hdouble]
  rfl

end LiteralLine

/-- **Literals are copied, and the code between them is put in order piece by piece.** -/
theorem format_copies_literals {line : LiteralLine} (h : line.Proper) :
    format line.text = line.textWith format := by
  obtain ⟨first, pieces⟩ := line
  -- cutting takes the literals off one by one, the last one first
  induction pieces using List.reverseRecOn with
  | nil => simp [LiteralLine.text, LiteralLine.textWith]
  | append_singleton pieces p ih =>
      let line : LiteralLine := ⟨first, pieces⟩
      have hsnoc : (line.snoc p).Proper := h
      calc format (line.snoc p).text
          = format line.text ++ quote p.body ++ format p.code := format_of_cut hsnoc.cut?_snoc
        _ = line.textWith format ++ quote p.body ++ format p.code := by rw [ih hsnoc.of_snoc]
        _ = (line.snoc p).textWith format := by
            rw [LiteralLine.textWith_snoc, List.append_assoc]

/-- Literals with blanks, operators, a comment sign and a bracket in them. -/
def rowLine : LiteralLine :=
  ⟨"y=[ ".toList, [⟨"a  =b".toList, " ,  ".toList⟩, ⟨"x%,[ ".toList, " ;c+1,".toList⟩,
    ⟨"-".toList, " ]".toList⟩]⟩

theorem rowLine_proper : rowLine.Proper where
  first_ink := by decide
  codes_free := by
    intro s hs c hc
    simp only [rowLine, LiteralLine.codes, List.map_cons, List.map_nil, List.mem_cons,
      List.not_mem_nil, or_false] at hs hc
    rcases hs with rfl | rfl | rfl | rfl <;> rcases hc with rfl | rfl | rfl | rfl <;> decide
  bodies_ne := by simp [rowLine]
  bodies_free := by
    intro p hp c hc
    simp only [rowLine, List.mem_cons, List.not_mem_nil, or_false] at hp hc
    rcases hp with rfl | rfl | rfl <;> rcases hc with rfl | rfl | rfl <;> decide
  before := by
    intro s hs
    simp only [rowLine, LiteralLine.codes, List.map_cons, List.map_nil, List.dropLast_cons_cons,
      List.dropLast_singleton, List.mem_cons, List.not_mem_nil, or_false] at hs
    rcases hs with rfl | rfl | rfl
    · exact ⟨' ', rfl, by decide⟩
    · exact ⟨' ', rfl, by decide⟩
    · exact ⟨',', rfl, by decide⟩
  after := by
    intro p hp c hc
    simp only [rowLine, List.mem_cons, List.not_mem_nil, or_false] at hp
    rcases hp with rfl | rfl | rfl <;> cases hc <;> decide

theorem format_copies_literals_row :
    rowLine.Proper ∧ rowLine.text = "y=[ 'a  =b' ,  'x%,[ ' ;c+1,'-' ]".toList ∧
      format rowLine.text = "y = ['a  =b', 'x%,[ '; c + 1, '-']".toList := by
  refine ⟨rowLine_proper, by decide, ?_⟩
  rw [format_copies_literals rowLine_proper]
  cbv

end Pcode.Spacing
