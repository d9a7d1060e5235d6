import Pcode.Proofs.Spacing.Quoted

set_option autoImplicit false

/-! # Reading a line

A text is read as code, literals and a comment from left to right: outside a literal a quote opens
one and a comment sign begins the comment, inside one the next quote of its kind closes it. A quote
that transposes is not told from one that opens a literal here, so a line with one is read in a form
that is not proper, or not at all.

Main statements: what is read is the text (`QuotedLine.text_of_ofText?`), and every line is read
from its text (`QuotedLine.ofText?_text`). -/

namespace Pcode.Spacing

open Pcode.Text

/-- A literal with the given body, if it may stand in one. -/
def Literal.of? (double : Bool) (body : List Char) : Option Literal :=
  -- by going through the marks, not through all characters
  haveI : Decidable (∀ c ∈ ['\'', '"', '\n'], c ∉ body) := List.decidableBAll (· ∉ body) _
  if h : (∀ c ∈ ['\'', '"', '\n'], c ∉ body) ∧ (double = false → body ≠ []) then
    some ⟨double, body, h.1, h.2⟩
  else none

namespace QuotedLine

/-- A comment alone, if it has no quotes. -/
def ofRemark? (text : List Char) : Option QuotedLine :=
  haveI : Decidable (∀ c ∈ ['\'', '"'], c ∉ text) := List.decidableBAll (· ∉ text) _
  if h : ∀ c ∈ ['\'', '"'], c ∉ text then some ⟨.nil, [], some ⟨text, h⟩⟩ else none

/-- The line with a literal in front of it. -/
def quote (l : Literal) (line : QuotedLine) : QuotedLine :=
  ⟨.nil, (l, line.first) :: line.pieces, line.remark⟩

/-- The line with a character of code in front of it, if it is one. -/
def push? (c : Char) (line : QuotedLine) : Option QuotedLine :=
  if h : c ∉ ['\'', '"', '%', '\n'] then
    some { line with first := ⟨c :: line.first.text, fun d hd hmem => by
      rcases List.mem_cons.1 hmem with rfl | hmem
      · exact h hd
      · exact line.first.free d hd hmem⟩ }
  else none

mutual

/-- Read code. -/
def ofText? : List Char → Option QuotedLine
  | [] => some empty
  | c :: s =>
      if c = '%' then ofRemark? s
      else if c = quoteOf (c == '"') then
        (ofBody? (c == '"') s).bind fun p => (Literal.of? (c == '"') p.1).map fun l => p.2.quote l
      else (ofText? s).bind fun line => line.push? c

/-- Read the body of a literal, up to its closing quote, and the line behind that. -/
def ofBody? (double : Bool) : List Char → Option (List Char × QuotedLine)
  | [] => none
  | c :: s =>
      if c = quoteOf double then (ofText? s).map fun line => ([], line)
      else (ofBody? double s).map fun p => (c :: p.1, p.2)

end

/-! ## What is read -/

theorem of?_eq_some {double : Bool} {body : List Char} {l : Literal}
    (h : Literal.of? double body = some l) :
    l.text = quoteOf double :: (body ++ [quoteOf double]) := by
  rw [Literal.of?] at h
  split at h
  · cases h
    rfl
  · cases h

theorem text_of_ofRemark? {s : List Char} {line : QuotedLine} (h : ofRemark? s = some line) :
    line.text = '%' :: s := by
  rw [ofRemark?] at h
  split at h
  · cases h
    rfl
  · cases h

theorem text_quote (l : Literal) (line : QuotedLine) :
    (line.quote l).text = l.text ++ line.text := by
  simp [quote, text, body, ending, Segment.nil]

theorem text_of_push? {c : Char} {line line' : QuotedLine} (h : line.push? c = some line') :
    line'.text = c :: line.text := by
  rw [push?] at h
  split at h
  · cases h
    rfl
  · cases h

/-- **What is read is the text.** -/
theorem text_of_ofText? {s : List Char} {line : QuotedLine} (h : ofText? s = some line) :
    line.text = s := by
  -- together with what is read of a literal, whose body and the line behind it make up the text
  suffices hboth : ∀ s : List Char, (∀ line, ofText? s = some line → line.text = s) ∧
      ∀ d p, ofBody? d s = some p → p.1 ++ quoteOf d :: p.2.text = s from (hboth s).1 line h
  clear h line s
  intro s
  induction s with
  | nil =>
      refine ⟨fun line h => ?_, fun d p h => ?_⟩
      · rw [ofText?] at h
        cases h
        rfl
      · rw [ofBody?] at h
        cases h
  | cons c s ih =>
      refine ⟨fun line h => ?_, fun d p h => ?_⟩
      · rw [ofText?] at h
        split at h
        · next hc => rw [text_of_ofRemark? h, hc]
        · split at h
          · next hc =>
              obtain ⟨p, hp, hl⟩ := Option.bind_eq_some_iff.1 h
              obtain ⟨l, hof, rfl⟩ := Option.map_eq_some_iff.1 hl
              rw [text_quote, of?_eq_some hof, ← hc, ← ih.2 _ p hp, ← hc]
              simp
          · obtain ⟨line', hread, hpush⟩ := Option.bind_eq_some_iff.1 h
            rw [text_of_push? hpush, ih.1 line' hread]
      · rw [ofBody?] at h
        split at h
        · next hc =>
            obtain ⟨line, hread, rfl⟩ := Option.map_eq_some_iff.1 h
            rw [ih.1 line hread, ← hc]
            rfl
        · obtain ⟨q, hq, rfl⟩ := Option.map_eq_some_iff.1 h
          rw [← ih.2 d q hq]
          rfl

/-! ## Every line is read -/

theorem of?_body (l : Literal) : Literal.of? l.double l.body = some l := by
  rw [Literal.of?, dif_pos ⟨l.free, l.ne_nil⟩]

theorem ofBody?_append {d : Bool} {b s : List Char} {line : QuotedLine} (hb : quoteOf d ∉ b)
    (h : ofText? s = some line) : ofBody? d (b ++ quoteOf d :: s) = some (b, line) := by
  induction b with
  | nil => rw [List.nil_append, ofBody?, if_pos rfl, h, Option.map_some]
  | cons c b ih =>
      have hc : c ≠ quoteOf d := fun heq => hb (heq ▸ List.mem_cons_self)
      rw [List.cons_append, ofBody?, if_neg hc, ih fun hmem => hb (List.mem_cons_of_mem c hmem),
        Option.map_some]

/-- A literal is read in front of a line that is. -/
theorem ofText?_literal (l : Literal) {s : List Char} {line : QuotedLine}
    (h : ofText? s = some line) :
    ofText? (l.text ++ s) = some (line.quote l) := by
  have hkind : ∀ d, (quoteOf d == '"') = d := by decide
  have hsign : ∀ d, quoteOf d ≠ '%' := by decide
  have htext : l.text ++ s = quoteOf l.double :: (l.body ++ quoteOf l.double :: s) := by
    simp [Literal.text]
  rw [htext, ofText?, if_neg (hsign _), hkind, if_pos rfl,
    ofBody?_append (l.free _ (quoteOf_mem _ (by simp) (by simp))) h, Option.bind_some]
  show (Literal.of? l.double l.body).map _ = _
  rw [of?_body, Option.map_some]

/-- Code is read in front of a line that is. -/
theorem ofText?_segment (s : Segment) {t : List Char} {pieces : List (Literal × Segment)}
    {remark : Option Remark} (h : ofText? t = some ⟨.nil, pieces, remark⟩) :
    ofText? (s.text ++ t) = some ⟨s, pieces, remark⟩ := by
  obtain ⟨text, free⟩ := s
  induction text with
  | nil => exact h
  | cons c text ih =>
      have hc : c ∉ ['\'', '"', '%', '\n'] := fun hmem => free c hmem List.mem_cons_self
      have hquote : ∀ d, quoteOf d ∈ ['\'', '"', '%', '\n'] := by decide
      have hrest := ih fun d hd hmem => free d hd (List.mem_cons_of_mem c hmem)
      show ofText? (c :: (text ++ t)) = _
      rw [ofText?, if_neg (fun hsign => hc (by rw [hsign]; simp)),
        if_neg (fun hopens => hc (by rw [hopens]; exact hquote _)), hrest, Option.bind_some, push?,
        dif_pos hc]

/-- **Every line is read from its text.** -/
theorem ofText?_text (line : QuotedLine) : ofText? line.text = some line := by
  obtain ⟨s, pieces, remark⟩ := line
  induction pieces generalizing s with
  | nil =>
      have hending : ofText? (ending ⟨s, [], remark⟩) = some ⟨.nil, [], remark⟩ := by
        cases remark with
        | none => rfl
        | some r =>
            show ofText? ('%' :: r.text) = _
            rw [ofText?, if_pos rfl, ofRemark?, dif_pos r.free]
      have htext : text ⟨s, [], remark⟩ = s.text ++ ending ⟨s, [], remark⟩ := by simp [text, body]
      rw [htext]
      exact ofText?_segment s hending
  | cons p v ih =>
      obtain ⟨l, t⟩ := p
      rw [text_eq_first ⟨s, (l, t) :: v, remark⟩ rfl]
      exact ofText?_segment s (ofText?_literal l (ih t))

/-- A line is made up of its literals, segments and comment in one way. -/
theorem text_injective : Function.Injective text := by
  intro line line' h
  have hread := ofText?_text line
  rw [h, ofText?_text] at hread
  exact (Option.some.inj hread).symm

end QuotedLine

end Pcode.Spacing
