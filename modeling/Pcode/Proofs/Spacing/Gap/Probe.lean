import Pcode.Proofs.Spacing.Lead
import Pcode.Proofs.Spacing.Respaced
import Pcode.Proofs.Text.Gap

set_option autoImplicit false

/-! # Probes and gaps

Names, numbers and literals that are apart in a line should stay apart when its spacing is put in
order. Where a gap is lost it is because a probe skips blanks. Before and after a symbol that does
not matter. Before a literal or a number it does, if the blanks are not part of the lead.

A gap is *firm* (`Firm`) if the characters beside it belong to operands and are not a quote, or
nothing, before a quote or a digit. Main statement: a probe keeps the firm gaps that have ink before
them (`Probe.Keeps`, one lemma for each probe). The blanks in front of what a probe finds are
another matter; about these it only says with which characters they are followed
(`Probe.Starts`). -/

namespace Pcode.Spacing

open Pcode.Text

/-! ## Characters -/

def isQuote (c : Char) : Bool := c == '\'' || c == '"'

/-- What names, numbers and literals begin and end with. -/
def isOperand (c : Char) : Bool := isWord c || isQuote c

/-- The characters of operators, brackets, separators and comment signs. -/
def symbolChars : List Char :=
  ['.', '+', '-', '*', '\\', '/', '=', '<', '>', '|', '&', '!', '~', '^', ':', ',', ';', '(', ')',
    '[', ']', '{', '}', '%']

theorem of_mem_symbolChars {c : Char} (h : c ∈ symbolChars) :
    isOperand c = false ∧ isWord c = false ∧ isDecimal c = false ∧ isBlank c = false := by
  have hall : ∀ c ∈ symbolChars, (!isOperand c && !isWord c && !isDecimal c && !isBlank c) = true :=
    List.all_eq_true.1 (by decide)
  simpa [and_assoc] using hall c h

/-- The characters beside a gap, if there are any, are such that the gap is kept: both belong to
operands, and where a quote or nothing stands before it, no quote or decimal digit does after it. -/
structure Firm (x y : Option Char) : Prop where
  before : ∀ c ∈ x, isOperand c = true
  after : ∀ c ∈ y, isOperand c = true
  kept : (∀ c ∈ x, isQuote c = true) → ∀ c ∈ y, isQuote c = false ∧ isDecimal c = false

namespace Firm

variable {x y : Option Char}

/-- What stands right of a cut may be missing. -/
theorem of_append {q r : List Char} (h : Firm x (q ++ r).head?) : Firm x q.head? := by
  cases q with
  | nil => exact ⟨h.before, by simp, by simp⟩
  | cons c q => exact h

theorem of_getLast? {p u : List Char} (h : Firm (p ++ u).getLast? y) (hu : u ≠ []) :
    Firm u.getLast? y := by
  rwa [List.getLast?_append_of_ne_nil p hu] at h

/-- What stands left of a cut may be missing if it is no name or number. -/
theorem start {z : Char} (h : Firm (some z) y) (hz : isWord z = false) : Firm none y := by
  have hquote : isQuote z = true := by
    have hoperand := h.before z rfl
    rwa [isOperand, hz, Bool.false_or] at hoperand
  have hkept := h.kept (by rintro c ⟨⟩; exact hquote)
  exact ⟨by simp, h.after, fun _ => hkept⟩

theorem not_symbol_before {u : List Char} {c : Char} (hc : c ∈ symbolChars)
    (h : Firm (c :: u).getLast? y) : u ≠ [] := by
  rintro rfl
  have hoperand := h.before c rfl
  rw [(of_mem_symbolChars hc).1] at hoperand
  cases hoperand

end Firm

/-! ## Probes -/

/-- What a probe finds begins with a character of a kind. -/
def Probe.Starts (p : Probe) (kind : Char → Prop) : Prop :=
  ∀ t f, p t = some f → ∃ c ∈ (ink t).head?, kind c

/-- A probe keeps the firm gaps that have ink before them. -/
def Probe.Keeps (p : Probe) : Prop :=
  ∀ t f u v, '\n' ∉ t → p t = some f → Gap u v t → u ≠ [] → Firm u.getLast? v.head? →
    Gap u v (f.head ++ f.mid ++ f.right)

/-- The middle that a probe finds does not end in a name or number. -/
def Probe.EndsBreak (p : Probe) : Prop :=
  ∀ t f, p t = some f → ∃ z ∈ (ink f.mid).getLast?, isWord z = false

theorem Probe.Exact.keeps {p : Probe} (hp : p.Exact) : p.Keeps := by
  intro t f u v ht h hgap hu _
  rw [hp t f ht h]
  exact hgap.skipBlanks hu

/-- A probe for symbols. -/
structure Probe.Symbolic (p : Probe) : Prop where
  starts : p.Starts (· ∈ symbolChars)
  keeps : p.Keeps
  endsBreak : p.EndsBreak

/-! ### Symbols -/

/-- Classes of symbols. -/
def AreSymbols (ps : List (Char → Bool)) : Prop := ∀ p ∈ ps, ∀ c, p c = true → c ∈ symbolChars

/-- One character of each class is found, none of them a blank. -/
theorem of_symbols? {ps : List (Char → Bool)} {s m r : List Char}
    (h : symbols? ps s = some (m, r)) :
    m.length = ps.length ∧ ∀ c ∈ m, isBlank c = false ∧ ∃ p ∈ ps, p c = true := by
  induction ps generalizing s m with
  | nil =>
      obtain ⟨rfl, rfl⟩ : [] = m ∧ s = r := by simpa [symbols?] using h
      exact ⟨rfl, by simp⟩
  | cons p ps ih =>
      obtain ⟨c, t, m', hskip, hc, hq, rfl⟩ := symbols?_cons_eq_some h
      obtain ⟨hlength, hmem⟩ := ih hq
      refine ⟨by simp [hlength], List.forall_mem_cons.2 ⟨?_, fun d hd => ?_⟩⟩
      · exact ⟨isBlank_of_skipBlanks_eq_cons hskip, p, List.mem_cons_self, hc⟩
      · obtain ⟨hblank, p', hp', hclass⟩ := hmem d hd
        exact ⟨hblank, p', List.mem_cons_of_mem p hp', hclass⟩

theorem mem_symbols? {ps : List (Char → Bool)} (hps : AreSymbols ps) {s m r : List Char}
    (h : symbols? ps s = some (m, r)) : m.length = ps.length ∧ ∀ c ∈ m, c ∈ symbolChars := by
  obtain ⟨hlength, hmem⟩ := of_symbols? h
  refine ⟨hlength, fun c hc => ?_⟩
  obtain ⟨-, p, hp, hclass⟩ := hmem c hc
  exact hps p hp c hclass

theorem ink_eq_self {m : List Char} (hm : ∀ c ∈ m, isBlank c = false) : ink m = m := by
  rw [ink, List.filter_eq_self]
  intro c hc
  rw [hm c hc]
  rfl

theorem ink_of_symbols {m : List Char} (h : ∀ c ∈ m, c ∈ symbolChars) : ink m = m :=
  ink_eq_self fun c hc => (of_mem_symbolChars (h c hc)).2.2.2

theorem head?_ink {t u : List Char} {c : Char} (h : skipBlanks t = c :: u) :
    (ink t).head? = some c := by
  rw [← ink_skipBlanks, h, ink_cons_of_ink (isBlank_of_skipBlanks_eq_cons h)]
  rfl

/-- Symbols begin with a character of the first class. -/
theorem symbols?_head? {p : Char → Bool} {ps : List (Char → Bool)} {s m r : List Char}
    (h : symbols? (p :: ps) s = some (m, r)) : ∃ c ∈ (ink s).head?, p c = true := by
  obtain ⟨c, t, m', hskip, hc, -⟩ := symbols?_cons_eq_some h
  exact ⟨c, head?_ink hskip, hc⟩

/-- Symbols end in a symbol. -/
theorem symbols?_endsBreak {ps : List (Char → Bool)} (hps : AreSymbols ps) (hne : ps ≠ [])
    {s m r : List Char} (h : symbols? ps s = some (m, r)) :
    ∃ z ∈ (ink m).getLast?, isWord z = false := by
  obtain ⟨hlength, hmem⟩ := mem_symbols? hps h
  have hm : m ≠ [] := by
    rintro rfl
    exact hne (List.length_eq_zero_iff.1 hlength.symm)
  rw [ink_of_symbols hmem, List.getLast?_eq_some_getLast hm]
  exact ⟨_, rfl, (of_mem_symbolChars (hmem _ (List.getLast_mem hm))).2.1⟩

/-- A firm gap with ink before it lies behind the symbols, with more ink before it. -/
theorem symbols?_gap {ps : List (Char → Bool)} (hps : AreSymbols ps) {s m r u v : List Char}
    (h : symbols? ps s = some (m, r)) (hgap : Gap u v s) (hu : u ≠ [])
    (hfirm : Firm u.getLast? v.head?) : ∃ w, u = m ++ w ∧ w ≠ [] ∧ Gap w v r := by
  induction ps generalizing s m u with
  | nil =>
      obtain ⟨rfl, rfl⟩ : [] = m ∧ s = r := by simpa [symbols?] using h
      exact ⟨u, rfl, hu, hgap⟩
  | cons p ps ih =>
      obtain ⟨c, t, m', hskip, hc, hq, rfl⟩ := symbols?_cons_eq_some h
      have hskipped := hgap.skipBlanks hu
      rw [hskip] at hskipped
      obtain ⟨u', rfl, hgap'⟩ := hskipped.of_cons (isBlank_of_skipBlanks_eq_cons hskip)
      have hu' := hfirm.not_symbol_before (hps p List.mem_cons_self c hc)
      obtain ⟨w, rfl, hw, hrest⟩ := ih (fun p' hp' => hps p' (List.mem_cons_of_mem p hp'))
        hq hgap' hu' (Firm.of_getLast? (p := [c]) hfirm hu')
      exact ⟨w, rfl, hw, hrest⟩

theorem remainder_eq {s : List Char} (hs : '\n' ∉ s) : remainder s = skipBlanks s :=
  firstLine_of_not_mem ((Respaced.skipBlanks s).newline_not_mem hs)

/-- What begins a text in which symbols are found is of the first class. -/
theorem Probe.TakesSymbols.starts {p : Probe} {ps : List (Char → Bool)} (h : p.TakesSymbols ps)
    (hne : ps ≠ []) : p.Starts fun c => ∃ q ∈ ps, q c = true := by
  intro t f hf
  obtain ⟨r, hsymbols, -⟩ := h t f hf
  cases ps with
  | nil => exact absurd rfl hne
  | cons q ps =>
      obtain ⟨c, hc, hclass⟩ := symbols?_head? hsymbols
      exact ⟨c, hc, q, List.mem_cons_self, hclass⟩

theorem Probe.TakesSymbols.symbolic {p : Probe} {ps : List (Char → Bool)} (h : p.TakesSymbols ps)
    (hne : ps ≠ []) (hps : AreSymbols ps) : p.Symbolic where
  starts := by
    intro t f hf
    obtain ⟨c, hc, q, hq, hclass⟩ := h.starts hne t f hf
    exact ⟨c, hc, hps q hq c hclass⟩
  keeps := by
    intro t f u v ht hf hgap hu hfirm
    obtain ⟨r, hsymbols, hhead, hright⟩ := h t f hf
    obtain ⟨w, rfl, hw, hrest⟩ := symbols?_gap hps hsymbols hgap hu hfirm
    have hline := not_mem_symbols?_rest ht hsymbols
    have hkept : Gap w v f.right := by
      rcases hright with heq | heq
      · rwa [heq, firstLine_of_not_mem hline]
      · rw [heq, remainder_eq hline]
        exact hrest.skipBlanks hw
    have hall := hkept.append_left f.mid
    rw [ink_of_symbols (mem_symbols? hps hsymbols).2] at hall
    rwa [hhead]
  endsBreak := by
    intro t f hf
    obtain ⟨r, hsymbols, -⟩ := h t f hf
    exact symbols?_endsBreak hps hne hsymbols

/-! ### Literals and numbers -/

theorem skipBlanks_cons {c : Char} (hc : isBlank c = true) (t : List Char) :
    skipBlanks (c :: t) = skipBlanks t := by
  simp [skipBlanks, hc]

/-- A probe for literals or numbers. -/
structure Probe.Operand (p : Probe) : Prop where
  starts : p.Starts fun c => isQuote c = true ∨ isDecimal c = true
  keeps : p.Keeps
  skips : ∀ c t, isBlank c = true → p (c :: t) = p t
  /-- blanks on the right come after a literal -/
  right : ∀ t f v, p t = some f → Gap [] v f.right → ∃ z ∈ (ink f.mid).getLast?, isWord z = false

theorem getLast?_ink_concat {v : List Char} {c : Char} (hc : isBlank c = false) :
    (ink (v ++ [c])).getLast? = some c := by
  rw [ink_append, ink_cons_of_ink hc, ink_nil, List.getLast?_concat]

theorem Probe.TakesLiteral.operand {p : Probe} {q : Char} (h : p.TakesLiteral q)
    (hq : isQuote q = true) (hskips : ∀ c t, isBlank c = true → p (c :: t) = p t) :
    p.Operand where
  starts := by
    intro t f hf
    obtain ⟨body, r, htext, -, hmid, -⟩ := h t f hf
    rw [hmid] at htext
    exact ⟨q, head?_ink htext, Or.inl hq⟩
  keeps := h.exact.keeps
  skips := hskips
  right := by
    intro t f v hf _
    obtain ⟨body, r, -, -, hmid, -⟩ := h t f hf
    have hchar : ∀ c, isQuote c = true → isBlank c = false ∧ isWord c = false := by
      simp [isQuote, or_imp, forall_and]
      decide
    rw [hmid]
    exact ⟨q, getLast?_ink_concat (v := q :: body) (hchar q hq).1, (hchar q hq).2⟩

theorem singleQuoted_operand : Probe.Operand singleQuoted :=
  singleQuoted_takesLiteral.operand (by decide) fun c t hc => by
    simp only [singleQuoted, skipBlanks_cons hc]

theorem doubleQuoted_operand : Probe.Operand doubleQuoted :=
  doubleQuoted_takesLiteral.operand (by decide) fun c t hc => by
    simp only [doubleQuoted, skipBlanks_cons hc]

theorem isBlank_of_isDecimal {c : Char} (h : isDecimal c = true) : isBlank c = false := by
  by_contra hblank
  rw [isDecimal_of_isBlank (by simpa using hblank)] at h
  cases h

theorem newline_ne {c : Char} (h : isBlank c = false) : '\n' ≠ c := by
  rintro rfl
  have hbreak : isBlank '\n' = true := by decide
  rw [hbreak] at h
  cases h

/-- A text that begins with a digit has no blank in front. -/
theorem beginsInk_of_decimal {s : List Char} (h : ∃ d ∈ s.head?, isDecimal d = true) :
    BeginsInk s := by
  obtain ⟨d, hd, hdecimal⟩ := h
  exact ⟨d, hd, isBlank_of_isDecimal hdecimal⟩

theorem beginsInk_firstLine {s : List Char} (h : BeginsInk s) : BeginsInk (firstLine s) := by
  obtain ⟨c, r, rfl, hc⟩ := h.exists_cons
  rw [firstLine_cons hc]
  exact ⟨c, rfl, hc⟩

theorem scientific_operand : Probe.Operand scientific where
  starts := by
    intro t f h
    obtain ⟨r, hf⟩ := scientific_eq_some h
    obtain ⟨d, hd, hdecimal⟩ := hf.digit
    obtain ⟨u, hhead⟩ := List.head?_eq_some_iff.1 hd
    have htext := hf.text
    rw [hhead] at htext
    exact ⟨d, head?_ink htext, Or.inr hdecimal⟩
  keeps := scientific_exact.keeps
  skips := by
    intro c t hc
    simp only [scientific, skipBlanks_cons hc]
  right := by
    intro t f v h hgap
    obtain ⟨r, hf⟩ := scientific_eq_some h
    rw [hf.right] at hgap
    exact absurd hgap (Gap.not_of_beginsInk
      (beginsInk_firstLine (beginsInk_of_decimal hf.exponent)))

theorem ratio_keeps : Probe.Keeps ratio := by
  intro t f u v ht h hgap hu hfirm
  obtain ⟨s, r, hf⟩ := ratio_eq_some h
  have hslash : '/' ∈ symbolChars := by decide
  have hskipped := hgap.skipBlanks hu
  rw [hf.text] at hskipped
  rcases hskipped.of_append with ⟨v', -, hwhole⟩ | ⟨w, rfl, hrest⟩
  · -- there is no blank among digits
    exact absurd hwhole (Gap.not_of_ink fun c hc => isBlank_of_isDecimal (hf.digits c hc))
  · -- a firm gap is neither in front of the slash nor right behind it
    have hw : w ≠ [] := by
      rintro rfl
      have hhead : v.head? = some '/' := by
        rw [← head?_ink hf.slash, hrest.ink_eq]
        rfl
      have hoperand := hfirm.after '/' hhead
      rw [(of_mem_symbolChars hslash).1] at hoperand
      cases hoperand
    have hbehind := hrest.skipBlanks hw
    rw [hf.slash] at hbehind
    obtain ⟨w', rfl, hden⟩ := hbehind.of_cons (by decide)
    have hw' := (hfirm.of_getLast? hw).not_symbol_before hslash
    have hline : '\n' ∉ r := newline_not_mem_of_skipBlanks (u := ['/'])
      (newline_not_mem_of_skipBlanks ht hf.text) hf.slash
    rw [hf.mid, hf.right, remainder_eq hline]
    have hall := (hden.skipBlanks hw').append_left (f.head ++ ['/'])
    have hink : ink ['/'] = ['/'] := by decide
    rwa [ink_append, hink, List.append_assoc] at hall

theorem ratio_operand : Probe.Operand ratio where
  starts := by
    intro t f h
    obtain ⟨s, r, hf⟩ := ratio_eq_some h
    obtain ⟨d, u, hhead⟩ := List.exists_cons_of_ne_nil hf.nonempty
    have htext := hf.text
    rw [hhead] at htext
    exact ⟨d, head?_ink htext, Or.inr (hf.digits d (by simp [hhead]))⟩
  keeps := ratio_keeps
  skips := by
    intro c t hc
    simp only [ratio, skipBlanks_cons hc]
  right := by
    intro t f v h hgap
    obtain ⟨s, r, hf⟩ := ratio_eq_some h
    rw [hf.right] at hgap
    exact absurd hgap (Gap.not_of_beginsInk
      (beginsInk_firstLine (beginsInk_of_decimal hf.denominator)))

end Pcode.Spacing
