import Pcode.Spacing.Cut
import Pcode.Text.Digit
import Pcode.Text.Word

set_option autoImplicit false

/-! # Probes for code

Recognisers for operators, brackets, separators and numbers. What each can find is said once:
symbols of given classes (`Probe.TakesSymbols`), a number with an exponent (`IsScientific`) or a
quotient (`IsRatio`). From this follows that it stands in the text part after part and takes ink,
which is what makes repeated cutting end. -/

namespace Pcode.Spacing

open Pcode.Text

/-! ## Character classes -/

/-- Any character but a blank. -/
def isInk (c : Char) : Bool := !isBlank c

/-- Any character that is not a word character. -/
def isBreak (c : Char) : Bool := !isWord c

def isSign (c : Char) : Bool := c == '+' || c == '-'

def isOpening (c : Char) : Bool := c == '(' || c == '[' || c == '{'

def isClosing (c : Char) : Bool := c == ')' || c == ']' || c == '}'

/-- Characters that begin a two-character operator such as `==` or `.*`. -/
def isPairHead (c : Char) : Bool :=
  c == '.' || c == '+' || c == '-' || c == '*' || c == '\\' || c == '/' || c == '=' || c == '<' ||
    c == '>' || c == '|' || c == '&' || c == '!' || c == '~' || c == '^'

/-- Characters that end a two-character operator. -/
def isPairTail (c : Char) : Bool :=
  c == '<' || c == '>' || c == '=' || c == '+' || c == '-' || c == '*' || c == '/' || c == '&' ||
    c == '|'

/-- Operators of one character that take a blank on each side. -/
def isOperator (c : Char) : Bool :=
  c == '+' || c == '-' || c == '*' || c == '\\' || c == '/' || c == '=' || c == '!' || c == '~' ||
    c == '<' || c == '>' || c == '|' || c == '&'

/-- Characters after which a sign belongs to the number or name that follows it. -/
def isBeforeSign (c : Char) : Bool :=
  isOpening c || c == ',' || c == ';' || c == ':' || c == '=' || c == '*' || c == '/' || isBlank c

/-! ## What follows a middle -/

/-- The rest of the first line that is not blank. -/
def remainder (s : List Char) : List Char := firstLine (skipBlanks s)

theorem remainder_sublist (s : List Char) : (remainder s).Sublist s :=
  (firstLine_sublist _).trans (skipBlanks_sublist s)

theorem firstLine_cons {c : Char} (hc : isBlank c = false) (s : List Char) :
    firstLine (c :: s) = c :: firstLine s := by
  have hline : c ≠ '\n' := by
    rintro rfl
    exact absurd hc (by decide)
  exact List.takeWhile_cons_of_pos (by simpa using hline)

theorem cons_sublist_of_skipBlanks {s r u : List Char} {c : Char} (hskip : skipBlanks s = c :: r)
    (hu : u.Sublist r) : (c :: u).Sublist s :=
  (hu.cons_cons c).trans (hskip ▸ skipBlanks_sublist s)

/-! ## Symbols -/

/-- Characters of the given classes, in order, with blanks allowed before each; the second
part of the result is what follows. -/
def symbols? : List (Char → Bool) → List Char → Option (List Char × List Char)
  | [], s => some ([], s)
  | p :: ps, s =>
      match skipBlanks s with
      | [] => none
      | c :: r => if p c then (symbols? ps r).map (fun q => (c :: q.1, q.2)) else none

theorem symbols?_cons_eq_some {p : Char → Bool} {ps : List (Char → Bool)} {s m r : List Char}
    (h : symbols? (p :: ps) s = some (m, r)) :
    ∃ c t m', skipBlanks s = c :: t ∧ p c = true ∧ symbols? ps t = some (m', r) ∧ m = c :: m' := by
  rw [symbols?] at h
  split at h
  · cases h
  · next c t hskip =>
      split at h
      · next hc =>
          obtain ⟨⟨m', r'⟩, hq, hpair⟩ := Option.map_eq_some_iff.1 h
          cases hpair
          exact ⟨c, t, m', hskip, hc, hq, rfl⟩
      · cases h

/-- One character that is not blank is found for each class. -/
theorem inkCount_symbols? {ps : List (Char → Bool)} {s m r : List Char}
    (h : symbols? ps s = some (m, r)) : inkCount m = ps.length := by
  induction ps generalizing s m with
  | nil =>
      obtain ⟨rfl, rfl⟩ : [] = m ∧ s = r := by simpa [symbols?] using h
      rfl
  | cons p ps ih =>
      obtain ⟨c, t, m', hskip, -, hq, rfl⟩ := symbols?_cons_eq_some h
      rw [inkCount_cons_of_ink (isBlank_of_skipBlanks_eq_cons hskip), ih hq, List.length_cons]

theorem symbols?_sublist {ps : List (Char → Bool)} {s m r u : List Char}
    (h : symbols? ps s = some (m, r)) (hu : u.Sublist r) : (m ++ u).Sublist s := by
  induction ps generalizing s m with
  | nil =>
      obtain ⟨rfl, rfl⟩ : [] = m ∧ s = r := by simpa [symbols?] using h
      exact hu
  | cons p ps ih =>
      obtain ⟨c, t, m', hskip, -, hq, rfl⟩ := symbols?_cons_eq_some h
      exact cons_sublist_of_skipBlanks hskip (ih hq)

/-- Symbols, then the rest of the line without the blanks before it. -/
def operator (ps : List (Char → Bool)) : Probe := fun s =>
  (symbols? ps s).map (fun q => ⟨[], q.1, remainder q.2⟩)

/-- A closing bracket, then the rest of the line as it is. -/
def closing : Probe := fun s =>
  (symbols? [isClosing] s).map (fun q => ⟨[], q.1, firstLine q.2⟩)

/-- Two signs at the end of an expression: `++` or `--`. -/
def increment : Probe := fun s =>
  match symbols? [isSign, isSign] s with
  | some (m, r) =>
      match skipBlanks r with
      | [] => some ⟨[], m, []⟩
      | c :: t =>
          if isClosing c || c == ',' || c == ';' then some ⟨[], m, c :: firstLine t⟩ else none
  | none => none

/-- A sign directly before a word. -/
def unarySign : Probe := fun s =>
  match symbols? [isSign] s with
  | some (m, c :: t) => if isWord c then some ⟨[], m, c :: firstLine t⟩ else none
  | _ => none

/-- The opening parenthesis of a call, directly after its name. -/
def callOpening : Probe
  | '(' :: r => some ⟨[], ['('], remainder r⟩
  | _ => none

/-- An opening bracket. -/
def opening : Probe
  | c :: r => if isOpening c then some ⟨[], [c], remainder r⟩ else none
  | [] => none

/-- Three dots, which continue a statement on the next line. -/
def ellipsis : Probe := fun s =>
  match skipBlanks s with
  | '.' :: '.' :: '.' :: r => some ⟨[], ['.', '.', '.'], remainder r⟩
  | _ => none

/-- Two or more blanks, which become one. -/
def blankRun : Probe := fun s =>
  if 2 ≤ (s.takeWhile isBlank).length then some ⟨[], [' '], remainder s⟩ else none

/-! ## Numbers -/

/-- A fraction after the digits before the point: the point, if there is one, and the
digits after it, in front of what follows. -/
def fraction (s : List Char) : List Char × List Char :=
  match s with
  | '.' :: r => ('.' :: r.takeWhile isDecimal, r.dropWhile isDecimal)
  | _ => (s.takeWhile isDecimal, s.dropWhile isDecimal)

/-- The mark of an exponent with its sign, in front of what follows. -/
def exponentMark? : List Char → Option (List Char × List Char)
  | c :: d :: r =>
      if c == 'e' || c == 'E' then
        if isSign d then some ([c, d], r) else some ([c], d :: r)
      else none
  | _ => none

/-- A number with an exponent, cut at the mark of the exponent. -/
def scientific : Probe := fun s =>
  let t := skipBlanks s
  let whole := t.takeWhile isDecimal
  if whole.isEmpty then none
  else
    let frac := fraction (t.dropWhile isDecimal)
    match exponentMark? frac.2 with
    | some (mark, r) =>
        if (r.takeWhile isDecimal).isEmpty then none
        else some ⟨whole ++ frac.1, mark, firstLine r⟩
    | none => none

/-- A quotient of two whole numbers, cut at the slash. -/
def ratio : Probe := fun s =>
  let t := skipBlanks s
  let whole := t.takeWhile isDecimal
  if whole.isEmpty then none
  else
    match skipBlanks (t.dropWhile isDecimal) with
    | '/' :: r =>
        let den := skipBlanks r
        if (den.takeWhile isDecimal).isEmpty then none else some ⟨whole, ['/'], firstLine den⟩
    | _ => none

/-! ## What probes for symbols find -/

/-- What a probe finds are symbols of the given classes, then the rest of the line, with the blanks
in front of it or without them. -/
def Probe.TakesSymbols (p : Probe) (ps : List (Char → Bool)) : Prop :=
  ∀ t f, p t = some f → ∃ r, symbols? ps t = some (f.mid, r) ∧ f.head = [] ∧
    (f.right = firstLine r ∨ f.right = remainder r)

namespace Probe.TakesSymbols

variable {p q : Probe} {ps : List (Char → Bool)}

theorem inOrder (h : p.TakesSymbols ps) : p.InOrder := by
  intro t f hf
  obtain ⟨r, hsymbols, hhead, hright⟩ := h t f hf
  have hrest : f.right.Sublist r := by
    rcases hright with heq | heq
    · rw [heq]
      exact firstLine_sublist r
    · rw [heq]
      exact remainder_sublist r
  rw [hhead, List.nil_append]
  exact symbols?_sublist hsymbols hrest

theorem takesInk (h : p.TakesSymbols ps) (hps : ps ≠ []) : p.TakesInk := by
  apply h.inOrder.takesInk
  intro t f hf
  obtain ⟨r, hsymbols, -⟩ := h t f hf
  rw [inkCount_symbols? hsymbols]
  exact List.length_pos_iff.2 hps

/-- A probe that finds what another one finds, or nothing. -/
theorem of_imp (hp : p.TakesSymbols ps) (h : ∀ t f, q t = some f → p t = some f) :
    q.TakesSymbols ps :=
  fun t f hf => hp t f (h t f hf)

end Probe.TakesSymbols

theorem operator_takesSymbols (ps : List (Char → Bool)) : Probe.TakesSymbols (operator ps) ps := by
  intro t f h
  obtain ⟨⟨m, r⟩, hq, rfl⟩ := Option.map_eq_some_iff.1 h
  exact ⟨r, hq, rfl, Or.inr rfl⟩

theorem closing_takesSymbols : Probe.TakesSymbols closing [isClosing] := by
  intro t f h
  obtain ⟨⟨m, r⟩, hq, rfl⟩ := Option.map_eq_some_iff.1 h
  exact ⟨r, hq, rfl, Or.inl rfl⟩

/-- Two signs are followed by what ends an expression, or by nothing. -/
theorem increment_eq_some {s : List Char} {f : Found} (h : increment s = some f) :
    ∃ r, symbols? [isSign, isSign] s = some (f.mid, r) ∧ f.head = [] ∧ f.right = remainder r ∧
      ∀ c ∈ (skipBlanks r).head?, (isClosing c || c == ',' || c == ';') = true := by
  rw [increment] at h
  split at h
  · next m r hq =>
      split at h
      · next hskip =>
          cases h
          exact ⟨r, hq, rfl, by rw [remainder, hskip]; rfl, by simp [hskip]⟩
      · next c u hskip =>
          split at h
          · next hc =>
              cases h
              refine ⟨r, hq, rfl, ?_, by simpa [hskip] using hc⟩
              rw [remainder, hskip, firstLine_cons (isBlank_of_skipBlanks_eq_cons hskip)]
          · cases h
  · cases h

theorem increment_takesSymbols : Probe.TakesSymbols increment [isSign, isSign] := by
  intro t f h
  obtain ⟨r, hsymbols, hhead, hright, -⟩ := increment_eq_some h
  exact ⟨r, hsymbols, hhead, Or.inr hright⟩

/-- A sign before a word is followed by that word. -/
theorem unarySign_eq_some {s : List Char} {f : Found} (h : unarySign s = some f) :
    ∃ c r, symbols? [isSign] s = some (f.mid, c :: r) ∧ isWord c = true ∧ f.head = [] ∧
      f.right = firstLine (c :: r) := by
  rw [unarySign] at h
  split at h
  · next m c r hq =>
      split at h
      · next hc =>
          cases h
          have hline : c ≠ '\n' := by
            rintro rfl
            exact absurd hc (by decide)
          refine ⟨c, r, hq, hc, rfl, ?_⟩
          rw [firstLine, firstLine, List.takeWhile_cons_of_pos (by simpa using hline)]
      · cases h
  · cases h

theorem unarySign_takesSymbols : Probe.TakesSymbols unarySign [isSign] := by
  intro t f h
  obtain ⟨c, r, hsymbols, -, hhead, hright⟩ := unarySign_eq_some h
  exact ⟨c :: r, hsymbols, hhead, Or.inl hright⟩

theorem isBlank_of_isOpening {c : Char} (h : isOpening c = true) : isBlank c = false := by
  simp only [isOpening, Bool.or_eq_true, beq_iff_eq] at h
  rcases h with (rfl | rfl) | rfl <;> decide

theorem isBlank_of_isSign {c : Char} (h : isSign c = true) : isBlank c = false := by
  simp only [isSign, Bool.or_eq_true, beq_iff_eq] at h
  rcases h with rfl | rfl <;> decide

theorem opening_takesSymbols : Probe.TakesSymbols opening [isOpening] := by
  apply (operator_takesSymbols [isOpening]).of_imp
  intro t f h
  rw [opening.eq_def] at h
  split at h
  · next c r =>
      split at h
      · next hc =>
          cases h
          simp [operator, symbols?, skipBlanks, isBlank_of_isOpening hc, hc]
      · cases h
  · cases h

theorem callOpening_takesSymbols : Probe.TakesSymbols callOpening [isOpening] := by
  apply opening_takesSymbols.of_imp
  intro t f h
  rw [callOpening.eq_def] at h
  split at h
  · cases h
    rfl
  · cases h

theorem ellipsis_eq_some {s : List Char} {f : Found} (h : ellipsis s = some f) :
    ∃ r, skipBlanks s = '.' :: '.' :: '.' :: r ∧ f = ⟨[], ['.', '.', '.'], remainder r⟩ := by
  rw [ellipsis] at h
  split at h
  · next r hskip =>
      cases h
      exact ⟨r, hskip, rfl⟩
  · cases h

theorem ellipsis_takesSymbols :
    Probe.TakesSymbols ellipsis [(· == '.'), (· == '.'), (· == '.')] := by
  apply (operator_takesSymbols _).of_imp
  intro t f h
  obtain ⟨r, hskip, rfl⟩ := ellipsis_eq_some h
  have hdot : ∀ u, skipBlanks ('.' :: u) = '.' :: u := fun u => List.dropWhile_cons_of_neg (by decide)
  simp [operator, symbols?, hskip, hdot]

theorem blankRun_eq_some {s : List Char} {f : Found} (h : blankRun s = some f) :
    2 ≤ (s.takeWhile isBlank).length ∧ f = ⟨[], [' '], remainder s⟩ := by
  rw [blankRun] at h
  split at h
  · next hrun => exact ⟨hrun, (Option.some.inj h).symm⟩
  · cases h

/-! ## What probes for numbers find -/

theorem exists_head?_of_takeWhile {p : Char → Bool} {s : List Char}
    (h : ¬(s.takeWhile p).isEmpty = true) : ∃ c ∈ s.head?, p c = true := by
  cases s with
  | nil => exact absurd rfl h
  | cons c s =>
      cases hc : p c with
      | true => exact ⟨c, rfl, hc⟩
      | false => exact absurd (by simp [hc]) h

theorem fraction_append (s : List Char) : (fraction s).1 ++ (fraction s).2 = s := by
  rw [fraction.eq_def]
  split
  · next r =>
      show '.' :: (r.takeWhile isDecimal ++ r.dropWhile isDecimal) = _
      rw [List.takeWhile_append_dropWhile]
  · exact List.takeWhile_append_dropWhile

theorem mem_fraction {s : List Char} : ∀ c ∈ (fraction s).1, isDecimal c = true ∨ c = '.' := by
  intro c hc
  rw [fraction.eq_def] at hc
  split at hc
  · rcases List.mem_cons.1 hc with rfl | hc
    · exact Or.inr rfl
    · exact Or.inl (List.all_eq_true.1 List.all_takeWhile c hc)
  · exact Or.inl (List.all_eq_true.1 List.all_takeWhile c hc)

theorem exponentMark?_eq_some {s m r : List Char} (h : exponentMark? s = some (m, r)) :
    s = m ++ r ∧ ∃ e, (e = 'e' ∨ e = 'E') ∧ (m = [e] ∨ ∃ x, isSign x = true ∧ m = [e, x]) := by
  rw [exponentMark?.eq_def] at h
  split at h
  · next e x t =>
      split at h
      · next he =>
          have hmark : e = 'e' ∨ e = 'E' := by simpa using he
          split at h
          · next hx =>
              cases h
              exact ⟨rfl, e, hmark, Or.inr ⟨x, hx, rfl⟩⟩
          · cases h
            exact ⟨rfl, e, hmark, Or.inl rfl⟩
      · cases h
  · cases h

/-- A number with an exponent in a text: digits and a fraction, the mark of the exponent, digits. -/
structure IsScientific (s : List Char) (f : Found) (r : List Char) : Prop where
  text : skipBlanks s = f.head ++ f.mid ++ r
  right : f.right = firstLine r
  digit : ∃ d ∈ f.head.head?, isDecimal d = true
  numeral : ∀ c ∈ f.head, isDecimal c = true ∨ c = '.'
  mark : ∃ e, (e = 'e' ∨ e = 'E') ∧ (f.mid = [e] ∨ ∃ x, isSign x = true ∧ f.mid = [e, x])
  exponent : ∃ d ∈ r.head?, isDecimal d = true

theorem scientific_eq_some {s : List Char} {f : Found} (h : scientific s = some f) :
    ∃ r, IsScientific s f r := by
  simp only [scientific] at h
  split at h
  · cases h
  · next hwhole =>
      split at h
      · next m r hm =>
          split at h
          · cases h
          · next hdigits =>
              cases h
              obtain ⟨hrest, hmark⟩ := exponentMark?_eq_some hm
              refine ⟨r, ?_, rfl, ?_, ?_, hmark, exists_head?_of_takeWhile hdigits⟩
              · simp only [List.append_assoc]
                rw [← hrest, fraction_append, List.takeWhile_append_dropWhile]
              · obtain ⟨d, hd, hdecimal⟩ := exists_head?_of_takeWhile hwhole
                obtain ⟨t, ht⟩ := List.head?_eq_some_iff.1 hd
                exact ⟨d, by simp [ht, hdecimal], hdecimal⟩
              · intro c hc
                rcases List.mem_append.1 hc with hc | hc
                · exact Or.inl (List.all_eq_true.1 List.all_takeWhile c hc)
                · exact mem_fraction c hc
      · cases h

/-- A quotient of two whole numbers in a text: digits, a slash and digits, with blanks around the
slash. -/
structure IsRatio (s : List Char) (f : Found) (u r : List Char) : Prop where
  text : skipBlanks s = f.head ++ u
  nonempty : f.head ≠ []
  digits : ∀ c ∈ f.head, isDecimal c = true
  slash : skipBlanks u = '/' :: r
  mid : f.mid = ['/']
  right : f.right = remainder r
  denominator : ∃ d ∈ (skipBlanks r).head?, isDecimal d = true

theorem ratio_eq_some {s : List Char} {f : Found} (h : ratio s = some f) :
    ∃ u r, IsRatio s f u r := by
  simp only [ratio] at h
  split at h
  · cases h
  · next hwhole =>
      split at h
      · next r hr =>
          split at h
          · cases h
          · next hden =>
              cases h
              refine ⟨_, r, List.takeWhile_append_dropWhile.symm, ?_, ?_, hr, rfl, rfl,
                exists_head?_of_takeWhile hden⟩
              · simpa using hwhole
              · exact List.all_eq_true.1 List.all_takeWhile
      · cases h

theorem sublist_of_append {s u v w : List Char} (hs : s = u ++ v) (hw : w.Sublist v) :
    (u ++ w).Sublist s :=
  hs ▸ hw.append_left u

theorem scientific_inOrder : Probe.InOrder scientific := by
  intro t f h
  obtain ⟨r, hf⟩ := scientific_eq_some h
  rw [hf.right]
  exact (sublist_of_append hf.text (firstLine_sublist r)).trans (skipBlanks_sublist t)

theorem scientific_takesInk : Probe.TakesInk scientific := by
  apply scientific_inOrder.takesInk
  intro t f h
  obtain ⟨r, hf⟩ := scientific_eq_some h
  obtain ⟨e, he, hmid⟩ := hf.mark
  have hink : isBlank e = false := by rcases he with rfl | rfl <;> decide
  rcases hmid with hmid | ⟨x, -, hmid⟩
  · simp [hmid, inkCount_cons_of_ink hink]
  · simp [hmid, inkCount_cons_of_ink hink]

theorem ratio_inOrder : Probe.InOrder ratio := by
  intro t f h
  obtain ⟨u, r, hf⟩ := ratio_eq_some h
  have hrest := cons_sublist_of_skipBlanks hf.slash (remainder_sublist r)
  rw [hf.mid, hf.right, List.append_assoc]
  exact (sublist_of_append hf.text hrest).trans (skipBlanks_sublist t)

theorem ratio_takesInk : Probe.TakesInk ratio := by
  apply ratio_inOrder.takesInk
  intro t f h
  obtain ⟨u, r, hf⟩ := ratio_eq_some h
  rw [hf.mid]
  decide

end Pcode.Spacing
