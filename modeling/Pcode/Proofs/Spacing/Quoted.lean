import Mathlib
import Pcode.Proofs.Spacing.Literals
import Pcode.Proofs.Spacing.Trailing.Tree

set_option autoImplicit false

/-! # The code of a line with literals and a comment

A line is taken as segments of code with literals of both kinds between them, and perhaps a comment
(`QuotedLine`). Its code is got by cuts: of the last literal in single quotes and the last one in
double quotes the longer is taken out, and what stands before it and after it is cut on its own. So
a cut divides such a line into two of them (`QuotedLine.Divides`), and a comment sign in a literal
is gone before comments are looked for. These are cut out when no literal is left, at the last sign
first, until the first one is reached (`respaced_codeOf_unquoted`).

Main statement: the code of a line is its segments one after the other, but for blanks
(`QuotedLine.Proper.respaced_codeOf`). -/

namespace Pcode.Spacing

open Pcode.Text

/-! ## Comments -/

theorem codeOf_nil : codeOf [] = [] := codeOf_of_uncut rfl

/-- A comment sign in the first line is found. -/
theorem commentRule_cut?_ne_none {a r : List Char} (ha : '\n' ∉ a) :
    commentRule.cut? (a ++ '%' :: r) ≠ none := by
  have hfound : ∀ b : List Char, b.all isBlank = true →
      comment (b ++ '%' :: r) = some ⟨[], '%' :: firstLine r, []⟩ := by
    intro b hb
    have hskip : skipBlanks (b ++ '%' :: r) = '%' :: r := by
      rw [skipBlanks_append_of_blank hb]
      exact BeginsInk.skipBlanks_eq ⟨'%', rfl, by decide⟩
    simp only [comment, hskip]
  apply Rule.cut?_ne_none
  by_cases hblank : a.all isBlank = true
  · refine Or.inl ⟨rfl, ?_⟩
    show comment (a ++ '%' :: r) ≠ none
    rw [hfound a hblank]
    simp
  · obtain ⟨_, b, rfl, ⟨v, c, rfl, hc⟩, hb⟩ := exists_endsInk_append (by simpa using hblank)
    refine Or.inr ?_
    have hv : '\n' ∉ v := fun hmem => ha (by simp [hmem])
    have hink : isInk c = true := by simp [isInk, hc]
    have hsplit := lastSplit_ne_none hv hink (hfound b hb)
    show lastSplit isInk comment _ ≠ none
    simpa using hsplit

/-- The cut at a comment leaves what stands before one of the comment signs. -/
theorem commentRule_cut?_eq_some {s : List Char} {c : Cut} (h : commentRule.cut? s = some c) :
    ∃ lead b r, s = lead ++ b ++ '%' :: r ∧ b.all isBlank = true ∧
      c.left = lead ++ [' '] ∧ c.right = [] := by
  obtain ⟨lead, t, f, -, rfl, ht, rfl⟩ := Rule.cut?_eq_some h
  simp only [commentRule, comment] at ht
  split at ht
  · next r hskip =>
      cases ht
      refine ⟨lead, t.takeWhile isBlank, r, ?_, ?_, by simp [commentRule], by simp [commentRule]⟩
      · rw [List.append_assoc, ← hskip, skipBlanks, List.takeWhile_append_dropWhile]
      · exact List.all_eq_true.2 fun c hc => List.mem_takeWhile_imp hc
  · cases ht

theorem takeWhile_sign_append {a : List Char} (ha : '%' ∉ a) (r : List Char) :
    (a ++ '%' :: r).takeWhile (· != '%') = a := by
  rw [List.takeWhile_append_of_pos (bne_of_not_mem ha)]
  simp

theorem takeWhile_sign_eq_self {a : List Char} (ha : '%' ∉ a) : a.takeWhile (· != '%') = a :=
  List.takeWhile_eq_self_iff.2 (bne_of_not_mem ha)

/-- Before the first comment sign, a text and what a cut at a comment leaves of it are the same but
for blanks. -/
theorem respaced_lead (lead : List Char) {b : List Char} (hb : b.all isBlank = true)
    (r : List Char) :
    Respaced ((lead ++ b ++ '%' :: r).takeWhile (· != '%'))
      ((lead ++ [' ']).takeWhile (· != '%')) := by
  by_cases hlead : '%' ∈ lead
  · obtain ⟨a, r', rfl, ha⟩ := List.eq_append_cons_of_mem hlead
    have h1 : a ++ '%' :: r' ++ b ++ '%' :: r = a ++ '%' :: (r' ++ b ++ '%' :: r) := by simp
    have h2 : a ++ '%' :: r' ++ [' '] = a ++ '%' :: (r' ++ [' ']) := by simp
    rw [h1, h2, takeWhile_sign_append ha, takeWhile_sign_append ha]
  · have hsign : '%' ∉ lead ++ b := by
      intro hmem
      rcases List.mem_append.1 hmem with hmem | hmem
      · exact hlead hmem
      · exact absurd (List.all_eq_true.1 hb '%' hmem) (by decide)
    have hspace : '%' ∉ lead ++ [' '] := by simp [hlead]
    rw [takeWhile_sign_append hsign, takeWhile_sign_eq_self hspace]
    exact (Respaced.refl lead).append ((Respaced.drop_all hb).trans (Respaced.replicate_space 1))

/-- **Without quotes, the code is what stands before the first comment sign.** -/
theorem respaced_codeOf_unquoted {s : List Char} (hsingle : '\'' ∉ s) (hdouble : '"' ∉ s)
    (hline : '\n' ∉ s.takeWhile (· != '%')) :
    Respaced (s.takeWhile (· != '%')) (codeOf s) := by
  -- each cut takes the last comment sign off
  induction hn : s.count '%' using Nat.strong_induction_on generalizing s with
  | _ n ih =>
  by_cases hsign : '%' ∈ s
  · obtain ⟨a, r, hs, ha⟩ := List.eq_append_cons_of_mem hsign
    have hbreak : '\n' ∉ a := by rwa [hs, takeWhile_sign_append ha] at hline
    obtain ⟨c, hc⟩ := Option.ne_none_iff_exists'.1 (commentRule_cut?_ne_none (r := r) hbreak)
    rw [← hs] at hc
    have hcut : quotedCut? s = some { c with isComment := true } := by
      simp only [quotedCut?, literalCut?, singleQuotedRule_cut?_eq_none hsingle,
        doubleQuotedRule_cut?_eq_none hdouble, commentCut?, hc, Option.map_some]
    obtain ⟨lead, b, r', rfl, hb, hleft, hright⟩ := commentRule_cut?_eq_some hc
    have hlead := respaced_lead lead hb r'
    have hcount : (lead ++ [' ']).count '%' < n := by
      have hfewer : (lead ++ [' ']).count '%' = lead.count '%' := by simp
      have hall : (lead ++ b ++ '%' :: r').count '%' =
          lead.count '%' + b.count '%' + (r'.count '%' + 1) := by
        rw [List.count_append, List.count_append, List.count_cons_self]
      omega
    have hfree : ∀ x, x ≠ ' ' → x ∉ lead ++ b ++ '%' :: r' → x ∉ lead ++ [' '] := by
      intro x hne hx
      simp only [List.mem_append, List.mem_singleton, not_or] at hx ⊢
      exact ⟨hx.1.1, hne⟩
    have hleftover : Respaced ((lead ++ [' ']).takeWhile (· != '%')) (codeOf (lead ++ [' '])) :=
      ih _ hcount (hfree _ (by decide) hsingle) (hfree _ (by decide) hdouble)
        (hlead.newline_not_mem hline) rfl
    have hcode : codeOf (lead ++ b ++ '%' :: r') = codeOf (lead ++ [' ']) ++ [' '] := by
      rw [codeOf_of_cut hcut]
      simp only [hleft, hright, codeOf_nil]
    have hpad := (hlead.trans hleftover).append (Respaced.replicate_space 1)
    rw [List.append_nil] at hpad
    rw [hcode]
    exact hpad
  · rw [codeOf_of_uncut (quotedCut?_eq_none hsingle hdouble hsign), takeWhile_sign_eq_self hsign]

/-! ## Literals of both kinds -/

/-- A literal in single or double quotes, without quotes and line ends between them; in single
quotes it is not empty. -/
structure Literal where
  double : Bool
  body : List Char
  free : ∀ c ∈ ['\'', '"', '\n'], c ∉ body
  ne_nil : double = false → body ≠ []

/-- The quote of a kind of literals. -/
def quoteOf : Bool → Char
  | false => '\''
  | true => '"'

def Literal.text (l : Literal) : List Char := quoteOf l.double :: (l.body ++ [quoteOf l.double])

/-- The probe for a kind of literals. -/
def literalProbe : Bool → Probe
  | false => singleQuoted
  | true => doubleQuoted

/-- The rule for a kind of literals. -/
def literalRule (double : Bool) : Rule :=
  ⟨true, isBeforeLiteral, literalProbe double, false, false⟩

theorem quoteOf_mem (double : Bool) {s : List Char} (hsingle : '\'' ∈ s) (hdouble : '"' ∈ s) :
    quoteOf double ∈ s := by
  cases double with
  | false => exact hsingle
  | true => exact hdouble

theorem quoteOf_injective : Function.Injective quoteOf := by decide

theorem isBlank_quoteOf (double : Bool) : isBlank (quoteOf double) = false := by
  cases double with
  | false => decide
  | true => decide

/-- A literal begins with a quote of its kind, and there is another one after it. -/
theorem literalProbe_eq_some {double : Bool} {s : List Char} {f : Found}
    (h : literalProbe double s = some f) :
    ∃ t, skipBlanks s = quoteOf double :: t ∧ quoteOf double ∈ t := by
  cases double with
  | false =>
      simp only [literalProbe, singleQuoted] at h
      split at h
      · next t hskip =>
          refine ⟨t, hskip, ?_⟩
          by_contra hmem
          rw [singleBody_eq_none hmem] at h
          cases h
      · cases h
  | true =>
      simp only [literalProbe, doubleQuoted] at h
      split at h
      · next t hskip =>
          refine ⟨t, hskip, ?_⟩
          by_contra hnot
          have hmem : '"' ∉ t := hnot
          have hdrop : t.dropWhile (· != '"') = [] :=
            List.dropWhile_eq_nil_iff.2 (bne_of_not_mem hmem)
          rw [hdrop] at h
          cases h
      · cases h

/-- A literal needs two quotes of its kind. -/
theorem literalProbe_eq_none {double : Bool} {s : List Char} (h : s.count (quoteOf double) ≤ 1) :
    literalProbe double s = none := by
  cases hprobe : literalProbe double s with
  | none => rfl
  | some f =>
      obtain ⟨t, hskip, hmem⟩ := literalProbe_eq_some hprobe
      have hcount : (quoteOf double :: t).count (quoteOf double) ≤ s.count (quoteOf double) := by
        rw [← hskip]
        exact (skipBlanks_sublist s).count_le _
      have hpos := List.count_pos_iff.2 hmem
      rw [List.count_cons_self] at hcount
      omega

/-- **A literal is found** where it stands, with or without blanks before it. -/
theorem literalProbe_text (l : Literal) {b s : List Char} (hb : b.all isBlank = true)
    (hblank : '\n' ∉ s.takeWhile isBlank) (hafter : ∀ c ∈ s.head?, isAfterLiteral c = true) :
    literalProbe l.double (b ++ (l.text ++ s)) = some ⟨[], l.text, firstLine s⟩ := by
  have htext : l.text ++ s = quoteOf l.double :: (l.body ++ quoteOf l.double :: s) := by
    simp [Literal.text]
  have hskip : skipBlanks (b ++ (l.text ++ s)) =
      quoteOf l.double :: (l.body ++ quoteOf l.double :: s) := by
    rw [skipBlanks_append_of_blank hb, htext]
    exact BeginsInk.skipBlanks_eq ⟨_, rfl, isBlank_quoteOf _⟩
  have hrest := afterLiteral?_eq_firstLine hblank hafter
  obtain ⟨double, body, free, ne_nil⟩ := l
  cases double with
  | false =>
      -- the closing quote is not doubled, since no quote may follow a literal
      have hsingle : ∀ c ∈ s.head?, c ≠ '\'' := by
        rintro c hc rfl
        exact absurd (hafter '\'' hc) (by decide)
      have hbody := singleBody_of_body (free '\'' (by simp)) hsingle
      have hlength : ¬(body ++ ['\'']).length < 2 := by
        have := List.length_pos_iff.2 (ne_nil rfl)
        rw [List.length_append, List.length_singleton]
        omega
      simp only [literalProbe, singleQuoted, hskip, quoteOf, hbody, if_neg hlength, hrest]
      rfl
  | true =>
      have hne := bne_of_not_mem (free '"' (by simp))
      have htake : (body ++ '"' :: s).takeWhile (· != '"') = body := by
        rw [List.takeWhile_append_of_pos hne]
        simp
      have hdrop : (body ++ '"' :: s).dropWhile (· != '"') = '"' :: s := by
        rw [List.dropWhile_append_of_pos hne]
        simp
      simp only [literalProbe, doubleQuoted, hskip, quoteOf, htake, hdrop, hrest]
      rfl

/-! ## Lines -/

/-- A piece of code without quotes, comment signs and line ends. -/
@[ext] structure Segment where
  text : List Char
  free : ∀ c ∈ ['\'', '"', '%', '\n'], c ∉ text

/-- The segment with nothing in it. -/
def Segment.nil : Segment := ⟨[], fun _ _ => List.not_mem_nil⟩

/-- What follows a comment sign, without quotes. -/
structure Remark where
  text : List Char
  free : ∀ c ∈ ['\'', '"'], c ∉ text

/-- A line: code, literals each with the code after it, and perhaps a comment. -/
structure QuotedLine where
  first : Segment
  pieces : List (Literal × Segment)
  remark : Option Remark

namespace QuotedLine

/-- The code and the literals of a line, without its comment. -/
def body (line : QuotedLine) : List Char :=
  line.first.text ++ line.pieces.flatMap fun p => p.1.text ++ p.2.text

/-- The comment of a line, with its sign. -/
def ending (line : QuotedLine) : List Char :=
  match line.remark with
  | none => []
  | some r => '%' :: r.text

/-- The text of a line. -/
def text (line : QuotedLine) : List Char := line.body ++ line.ending

/-- The code of a line: its segments one after the other. -/
def code (line : QuotedLine) : List Char :=
  line.first.text ++ line.pieces.flatMap fun p => p.2.text

/-- What stands before a literal, after the given pieces. -/
def before (line : QuotedLine) (u : List (Literal × Segment)) : QuotedLine := ⟨line.first, u, none⟩

/-- What stands after a literal: a segment, and the given pieces. -/
def behind (line : QuotedLine) (s : Segment) (v : List (Literal × Segment)) : QuotedLine :=
  ⟨s, v, line.remark⟩

/-- Before each literal is the start of the line or a character that may stand there, and after it
the end of the line or a character that may stand there. -/
structure Proper (line : QuotedLine) : Prop where
  before : ∀ u l s v, line.pieces = u ++ (l, s) :: v →
    ∀ c ∈ (line.before u).text.getLast?, isBeforeLiteral c = true
  after : ∀ u l s v, line.pieces = u ++ (l, s) :: v →
    ∀ c ∈ (line.behind s v).text.head?, isAfterLiteral c = true

/-- Whether a line is proper is seen by looking at its pieces one by one. -/
theorem proper_iff (line : QuotedLine) :
    line.Proper ↔ ∀ i (h : i < line.pieces.length),
      (line.before (line.pieces.take i)).text.getLast?.all isBeforeLiteral = true ∧
      (line.behind line.pieces[i].2 (line.pieces.drop (i + 1))).text.head?.all isAfterLiteral =
        true := by
  simp only [Option.all_eq_true]
  constructor
  · intro hproper i h
    have hpieces :
        line.pieces = line.pieces.take i ++ line.pieces[i] :: line.pieces.drop (i + 1) := by
      rw [← List.drop_eq_getElem_cons h, List.take_append_drop]
    exact ⟨hproper.before _ _ _ _ hpieces, hproper.after _ _ _ _ hpieces⟩
  · intro hall
    have hpiece : ∀ u l s v, line.pieces = u ++ (l, s) :: v →
        (∀ c ∈ (line.before u).text.getLast?, isBeforeLiteral c = true) ∧
          ∀ c ∈ (line.behind s v).text.head?, isAfterLiteral c = true := by
      intro u l s v h
      simpa [h] using hall u.length (by simp [h])
    exact ⟨fun u l s v h => (hpiece u l s v h).1, fun u l s v h => (hpiece u l s v h).2⟩

instance (line : QuotedLine) : Decidable line.Proper := decidable_of_iff' _ line.proper_iff

section Split

variable (line : QuotedLine) {u v : List (Literal × Segment)} {l : Literal} {s : Segment}

theorem text_eq (h : line.pieces = u ++ (l, s) :: v) :
    line.text = (line.before u).text ++ (l.text ++ (line.behind s v).text) := by
  simp [text, body, ending, before, behind, h]

theorem text_eq_first (h : line.pieces = (l, s) :: v) :
    line.text = line.first.text ++ (l.text ++ (line.behind s v).text) := by
  simp [text, body, ending, behind, h]

theorem code_eq (h : line.pieces = u ++ (l, s) :: v) :
    line.code = (line.before u).code ++ (line.behind s v).code := by
  simp [code, before, behind, h]

variable {line}

/-- What stands before a literal of a proper line is a proper line. -/
theorem Proper.before_proper (hproper : line.Proper) (h : line.pieces = u ++ (l, s) :: v) :
    (line.before u).Proper where
  before u' l' s' v' h' := by
    have hu : u = u' ++ (l', s') :: v' := h'
    exact hproper.before u' l' s' (v' ++ (l, s) :: v) (by simp [h, hu])
  after u' l' s' v' h' := by
    have hu : u = u' ++ (l', s') :: v' := h'
    have hafter := hproper.after u' l' s' (v' ++ (l, s) :: v) (by simp [h, hu])
    rw [(line.behind s' (v' ++ (l, s) :: v)).text_eq rfl] at hafter
    exact fun c hc => hafter c (List.mem_head?_append_of_mem_head? hc)

/-- What stands after a literal of a proper line is a proper line. -/
theorem Proper.behind_proper (hproper : line.Proper) (h : line.pieces = u ++ (l, s) :: v) :
    (line.behind s v).Proper where
  before u' l' s' v' h' := by
    have hv : v = u' ++ (l', s') :: v' := h'
    have hbefore := hproper.before (u ++ (l, s) :: u') l' s' v' (by simp [h, hv])
    rw [(line.before (u ++ (l, s) :: u')).text_eq rfl, ← List.append_assoc] at hbefore
    exact fun c hc => hbefore c (List.mem_getLast?_append_of_mem_getLast? hc)
  after u' l' s' v' h' := by
    have hv : v = u' ++ (l', s') :: v' := h'
    exact hproper.after (u ++ (l, s) :: u') l' s' v' (by simp [h, hv])

end Split

/-! ### Characters of a line -/

theorem not_mem_code (line : QuotedLine) {c : Char} (hc : c ∈ ['\'', '"', '%', '\n']) :
    c ∉ line.code := by
  intro hmem
  rcases List.mem_append.1 hmem with hfirst | hpieces
  · exact line.first.free c hc hfirst
  · obtain ⟨p, -, hp⟩ := List.mem_flatMap.1 hpieces
    exact p.2.free c hc hp

theorem mem_body {line : QuotedLine} {c : Char} (h : c ∈ line.body) :
    c ∈ line.code ∨ ∃ p ∈ line.pieces, c = quoteOf p.1.double ∨ c ∈ p.1.body := by
  rcases List.mem_append.1 h with hfirst | hpieces
  · exact Or.inl (List.mem_append_left _ hfirst)
  · obtain ⟨p, hp, hmem⟩ := List.mem_flatMap.1 hpieces
    rcases List.mem_append.1 hmem with hliteral | hcode
    · refine Or.inr ⟨p, hp, ?_⟩
      simp only [Literal.text, List.mem_cons, List.mem_append, List.not_mem_nil, or_false]
        at hliteral
      tauto
    · exact Or.inl (List.mem_append_right _ (List.mem_flatMap.2 ⟨p, hp, hcode⟩))

theorem newline_not_mem_body (line : QuotedLine) : '\n' ∉ line.body := by
  intro hmem
  rcases mem_body hmem with hcode | ⟨p, -, hquote | hbody⟩
  · exact line.not_mem_code (by simp) hcode
  · have hmarks : '\n' ∈ ['\'', '"'] := hquote ▸ quoteOf_mem p.1.double (by simp) (by simp)
    exact absurd hmarks (by decide)
  · exact p.1.free '\n' (by simp) hbody

/-- Without literals of a kind there are no quotes of that kind. -/
theorem quoteOf_not_mem_text {line : QuotedLine} {d : Bool}
    (h : ∀ p ∈ line.pieces, p.1.double ≠ d) : quoteOf d ∉ line.text := by
  intro hmem
  rcases List.mem_append.1 hmem with hbody | hending
  · rcases mem_body hbody with hcode | ⟨p, hp, hquote | hbody⟩
    · exact line.not_mem_code (quoteOf_mem d (by simp) (by simp)) hcode
    · exact h p hp (quoteOf_injective hquote.symm)
    · exact p.1.free _ (quoteOf_mem d (by simp) (by simp)) hbody
  · cases hr : line.remark with
    | none => simp [ending, hr] at hending
    | some r =>
        rw [ending, hr] at hending
        have hmarks : quoteOf d ∈ ['\'', '"'] := quoteOf_mem d (by simp) (by simp)
        rcases List.mem_cons.1 hending with hsign | hremark
        · rw [hsign] at hmarks
          exact absurd hmarks (by decide)
        · exact r.free _ hmarks hremark

/-! ### Up to the end of the line -/

/-- A line without what follows a line end in its comment. -/
def oneLine (line : QuotedLine) : QuotedLine :=
  { line with
    remark := line.remark.map fun r =>
      ⟨firstLine r.text, fun c hc hmem => r.free c hc ((firstLine_sublist r.text).mem hmem)⟩ }

theorem firstLine_text (line : QuotedLine) : firstLine line.text = line.oneLine.text := by
  have hbody : firstLine line.body = line.oneLine.body :=
    firstLine_of_not_mem line.newline_not_mem_body
  have hending : firstLine line.ending = line.oneLine.ending := by
    cases hr : line.remark with
    | none => simp [ending, oneLine, hr, firstLine]
    | some r => simp [ending, oneLine, hr, firstLine]
  rw [text, firstLine_append line.newline_not_mem_body, hbody, hending, text]

theorem newline_not_mem_takeWhile (line : QuotedLine) : '\n' ∉ line.text.takeWhile isBlank := by
  have hending : line.ending.takeWhile isBlank = [] := by
    cases hr : line.remark with
    | none => simp [ending, hr]
    | some r =>
        have hsign : isBlank '%' = false := by decide
        simp [ending, hr, hsign]
  intro hmem
  rw [text, List.takeWhile_append, hending] at hmem
  apply line.newline_not_mem_body
  split at hmem
  · simpa using hmem
  · exact (List.takeWhile_sublist _).mem hmem

theorem Proper.oneLine_proper {line : QuotedLine} (hproper : line.Proper) :
    line.oneLine.Proper where
  before := hproper.before
  after u l s v h := by
    intro c hc
    have htext : (line.oneLine.behind s v).text = firstLine (line.behind s v).text :=
      (line.behind s v).firstLine_text.symm
    rw [htext] at hc
    refine hproper.after u l s v h c ?_
    cases hs : (line.behind s v).text with
    | nil => rw [hs] at hc; exact hc
    | cons d r =>
        rw [hs, firstLine, List.takeWhile_cons] at hc
        split at hc
        · exact hc
        · cases hc

/-! ### Cuts at literals -/

/-- Of two lines, each with fewer literals, the code makes up that of the line. -/
structure Divides (line left right : QuotedLine) : Prop where
  left_proper : left.Proper
  right_proper : right.Proper
  left_lt : left.pieces.length < line.pieces.length
  right_lt : right.pieces.length < line.pieces.length
  code : Respaced line.code (left.code ++ right.code)

/-- The line with nothing on it. -/
def empty : QuotedLine := ⟨.nil, [], none⟩

theorem empty_proper : empty.Proper where
  before u l s v h := by simp [empty] at h
  after u l s v h := by simp [empty] at h

section Cut

variable {line : QuotedLine} (hproper : line.Proper) {u v : List (Literal × Segment)} {l : Literal}
  {s : Segment} (h : line.pieces = u ++ (l, s) :: v)

include hproper h

/-- A literal where it stands, with or without blanks before it. -/
theorem Proper.literalProbe_eq {b : List Char} (hb : b.all isBlank = true) :
    literalProbe l.double (b ++ (l.text ++ (line.behind s v).text)) =
      some ⟨[], l.text, (line.behind s v).oneLine.text⟩ := by
  rw [← firstLine_text]
  exact literalProbe_text l hb (line.behind s v).newline_not_mem_takeWhile (hproper.after u l s v h)

theorem Proper.divides :
    line.Divides (line.before u) (line.behind s v).oneLine where
  left_proper := hproper.before_proper h
  right_proper := (hproper.behind_proper h).oneLine_proper
  left_lt := by
    show u.length < _
    rw [h, List.length_append, List.length_cons]
    omega
  right_lt := by
    show v.length < _
    rw [h, List.length_append, List.length_cons]
    omega
  code := by rw [line.code_eq h]; rfl

/-- If the line begins with a literal, there is nothing before it. -/
theorem Proper.divides_of_blank (hu : u = []) (hblank : line.first.text.all isBlank = true) :
    line.Divides empty (line.behind s v).oneLine where
  left_proper := empty_proper
  right_proper := (hproper.behind_proper h).oneLine_proper
  left_lt := by simp [empty, h]
  right_lt := (hproper.divides h).right_lt
  code := by
    rw [line.code_eq h, hu]
    have hfirst : (line.before []).code = line.first.text := List.append_nil _
    rw [hfirst]
    exact (Respaced.drop_all hblank).append (Respaced.refl _)

end Cut

/-- The last literal of a kind. -/
theorem exists_last {pieces : List (Literal × Segment)} {d : Bool}
    (h : ∃ p ∈ pieces, p.1.double = d) :
    ∃ u l s v, pieces = u ++ (l, s) :: v ∧ l.double = d ∧ ∀ p ∈ v, p.1.double ≠ d := by
  induction pieces with
  | nil => simp at h
  | cons p rest ih =>
      by_cases hrest : ∃ q ∈ rest, q.1.double = d
      · obtain ⟨u, l, s, v, hsplit, hl, hv⟩ := ih hrest
        exact ⟨p :: u, l, s, v, by rw [hsplit]; rfl, hl, hv⟩
      · obtain ⟨q, hq, hd⟩ := h
        rcases List.mem_cons.1 hq with rfl | hmem
        · exact ⟨[], q.1, q.2, rest, rfl, hd, fun r hr hrd => hrest ⟨r, hr, hrd⟩⟩
        · exact absurd ⟨q, hmem, hd⟩ hrest

/-- A literal at the very start of a line is its first one, and there is no code before it. -/
theorem starts_of_literalProbe {line : QuotedLine} {d : Bool}
    (h : literalProbe d line.text ≠ none) :
    line.first.text.all isBlank = true ∧ ∃ l s v, line.pieces = (l, s) :: v ∧ l.double = d := by
  obtain ⟨f, hf⟩ := Option.ne_none_iff_exists'.1 h
  obtain ⟨t, hskip, -⟩ := literalProbe_eq_some hf
  obtain ⟨rest, htext⟩ : ∃ rest, line.text = line.first.text ++ rest :=
    ⟨_, by rw [text, body, List.append_assoc]⟩
  have hblank : line.first.text.all isBlank = true := by
    by_contra hink
    obtain ⟨e, r, hfirst, -⟩ := (beginsInk_skipBlanks (by simpa using hink)).exists_cons
    rw [htext, skipBlanks, (takeWhile_dropWhile_append hfirst rest).2] at hskip
    have he : e = quoteOf d := (List.cons.inj hskip).1
    -- the first ink of the line is the quote, and there are none in a segment
    have hmem : e ∈ line.first.text := (skipBlanks_sublist _).mem (by rw [hfirst]; simp)
    exact line.first.free e (he ▸ quoteOf_mem d (by simp) (by simp)) hmem
  refine ⟨hblank, ?_⟩
  cases hpieces : line.pieces with
  | nil =>
      have hno : quoteOf d ∉ line.text := quoteOf_not_mem_text (by simp [hpieces])
      exact absurd ((skipBlanks_sublist line.text).mem (by rw [hskip]; simp)) hno
  | cons p v =>
      obtain ⟨l, s⟩ := p
      refine ⟨l, s, v, rfl, quoteOf_injective ?_⟩
      rw [line.text_eq_first hpieces, skipBlanks_append_of_blank hblank] at hskip
      have hink : BeginsInk (l.text ++ (line.behind s v).text) :=
        ⟨quoteOf l.double, rfl, isBlank_quoteOf l.double⟩
      rw [hink.skipBlanks_eq] at hskip
      exact (List.cons.inj hskip).1

/-- No literal of a kind begins inside the last one of that kind or after it: behind its opening
quote only the closing one is left. -/
theorem lastSplit_last {l : Literal} {rest : List Char} (hrest : quoteOf l.double ∉ rest) :
    lastSplit isBeforeLiteral (literalProbe l.double) (l.text ++ rest) = none := by
  have htext : l.text ++ rest = quoteOf l.double :: (l.body ++ quoteOf l.double :: rest) := by
    simp [Literal.text]
  have hbody : quoteOf l.double ∉ l.body := l.free _ (quoteOf_mem _ (by simp) (by simp))
  have hcount : (l.body ++ quoteOf l.double :: rest).count (quoteOf l.double) = 1 := by
    rw [List.count_append, List.count_cons_self, List.count_eq_zero.2 hbody,
      List.count_eq_zero.2 hrest]
  rw [htext]
  refine lastSplit_eq_none (fun t ht => literalProbe_eq_none ?_) _
  exact hcount ▸ ht.sublist.count_le _

/-- The line is cut at the given one of its literals: what stands behind it is all that does, and
what stands before it too, unless the line begins with the literal; then that is nothing. If it does
not, the literal is the last of its kind. -/
structure CutAt (line : QuotedLine) (c : Cut) (u : List (Literal × Segment)) (l : Literal)
    (s : Segment) (v : List (Literal × Segment)) : Prop where
  pieces : line.pieces = u ++ (l, s) :: v
  mid : c.mid = l.text
  right : c.right = (line.behind s v).oneLine.text
  left : (c.left = (line.before u).text ∧ ∀ p ∈ v, p.1.double ≠ l.double) ∨
    c.left = [] ∧ u = [] ∧ line.first.text.all isBlank = true

/-- **A line is cut at one of its literals** by the rule for their kind. -/
theorem Proper.exists_cut? {line : QuotedLine} (hproper : line.Proper) {d : Bool}
    (hd : ∃ p ∈ line.pieces, p.1.double = d) :
    ∃ c u l s v, (literalRule d).cut? line.text = some c ∧ line.CutAt c u l s v := by
  by_cases hstart : literalProbe d line.text = none
  · -- the longest lead is the one before the last literal
    obtain ⟨u, l, s, v, h, rfl, hv⟩ := exists_last hd
    have hfound := hproper.literalProbe_eq h (b := []) rfl
    obtain ⟨w, c, hleft⟩ : ∃ w c, (line.before u).text = w ++ [c] := by
      rcases List.eq_nil_or_concat' (line.before u).text with hnil | hconcat
      · rw [line.text_eq h, hnil, hfound] at hstart
        cases hstart
      · exact hconcat
    have hc : isBeforeLiteral c = true := hproper.before u l s v h c (by rw [hleft]; simp)
    have hw : '\n' ∉ w := by
      have hbody : (line.before u).body = w ++ [c] := (List.append_nil _).symm.trans hleft
      intro hmem
      exact (line.before u).newline_not_mem_body (by rw [hbody]; simp [hmem])
    have hsplit : lastSplit isBeforeLiteral (literalProbe l.double) line.text =
        some (w ++ [c], ⟨[], l.text, (line.behind s v).oneLine.text⟩) := by
      rw [line.text_eq h, hleft, List.append_assoc]
      exact lastSplit_of_end hw hc hfound (lastSplit_last (quoteOf_not_mem_text hv))
    refine ⟨⟨(line.before u).text, l.text, (line.behind s v).oneLine.text, false⟩, u, l, s, v, ?_,
      h, rfl, rfl, Or.inl ⟨rfl, hv⟩⟩
    simp [Rule.cut?, Rule.split?, literalRule, hstart, hsplit, hleft]
  · -- the line begins with a literal, and the empty lead comes first
    obtain ⟨hblank, l, s, v, h, rfl⟩ := starts_of_literalProbe hstart
    have hfound := hproper.literalProbe_eq (u := []) h hblank
    rw [← line.text_eq_first h] at hfound
    refine ⟨⟨[], l.text, (line.behind s v).oneLine.text, false⟩, [], l, s, v, ?_, h, rfl, rfl,
      Or.inr ⟨rfl, rfl, hblank⟩⟩
    simp [Rule.cut?, Rule.split?, literalRule, hfound]

/-- A line with literals is cut at one of them. -/
theorem Proper.exists_literalCut? {line : QuotedLine} (hproper : line.Proper)
    (hne : line.pieces ≠ []) :
    ∃ c u l s v, literalCut? line.text = some c ∧ line.CutAt c u l s v := by
  have hkind : ∀ d, (¬ ∃ p ∈ line.pieces, p.1.double = d) → quoteOf d ∉ line.text :=
    fun d hno => quoteOf_not_mem_text fun p hp hd => hno ⟨p, hp, hd⟩
  by_cases hsingle : ∃ p ∈ line.pieces, p.1.double = false
  · obtain ⟨c, u, l, s, v, hc, hat⟩ := hproper.exists_cut? hsingle
    change singleQuotedRule.cut? line.text = some c at hc
    by_cases hdouble : ∃ p ∈ line.pieces, p.1.double = true
    · obtain ⟨c', u', l', s', v', hc', hat'⟩ := hproper.exists_cut? hdouble
      change doubleQuotedRule.cut? line.text = some c' at hc'
      -- the longer of the two is taken
      by_cases hlonger : c.mid.length < c'.mid.length
      · exact ⟨c', u', l', s', v', by simp only [literalCut?, hc, hc', if_pos hlonger], hat'⟩
      · exact ⟨c, u, l, s, v, by simp only [literalCut?, hc, hc', if_neg hlonger], hat⟩
    · have hnone : doubleQuotedRule.cut? line.text = none :=
        doubleQuotedRule_cut?_eq_none (hkind true hdouble)
      exact ⟨c, u, l, s, v, by simp only [literalCut?, hc, hnone], hat⟩
  · have hnone : singleQuotedRule.cut? line.text = none :=
      singleQuotedRule_cut?_eq_none (hkind false hsingle)
    obtain ⟨p, hp⟩ := List.exists_mem_of_ne_nil _ hne
    have hdouble : p.1.double = true := by
      by_contra hd
      exact hsingle ⟨p, hp, by simpa using hd⟩
    obtain ⟨c, u, l, s, v, hc, hat⟩ := hproper.exists_cut? ⟨p, hp, hdouble⟩
    change doubleQuotedRule.cut? line.text = some c at hc
    exact ⟨c, u, l, s, v, by simp only [literalCut?, hc, hnone], hat⟩

/-- The line is divided where it is cut. -/
theorem CutAt.exists_divides {line : QuotedLine} {c : Cut} {u v : List (Literal × Segment)}
    {l : Literal} {s : Segment} (h : line.CutAt c u l s v) (hproper : line.Proper) :
    ∃ left, c.left = left.text ∧ line.Divides left (line.behind s v).oneLine := by
  rcases h.left with ⟨hleft, -⟩ | ⟨hleft, rfl, hblank⟩
  · exact ⟨_, hleft, hproper.divides h.pieces⟩
  · exact ⟨empty, hleft, hproper.divides_of_blank h.pieces rfl hblank⟩

/-- Without literals, the code of a line ends at its comment sign. -/
theorem code_eq_takeWhile {line : QuotedLine} (h : line.pieces = []) :
    line.code = line.text.takeWhile (· != '%') := by
  have hfree : '%' ∉ line.first.text := line.first.free '%' (by simp)
  have hcode : line.code = line.first.text := by simp [code, h]
  have htext : line.text = line.first.text ++ line.ending := by simp [text, body, h]
  rw [hcode, htext, ending]
  cases line.remark with
  | none =>
      dsimp only
      rw [List.append_nil, takeWhile_sign_eq_self hfree]
  | some r => exact (takeWhile_sign_append hfree r.text).symm

/-- **The code of a line is that of its segments**: nothing is left of literals and comment. -/
theorem Proper.respaced_codeOf {line : QuotedLine} (hproper : line.Proper) :
    Respaced line.code (codeOf line.text) := by
  -- on the number of literals: both sides of a cut have fewer
  induction hn : line.pieces.length using Nat.strong_induction_on generalizing line with
  | _ n ih =>
  by_cases hne : line.pieces = []
  · have hcode := code_eq_takeWhile hne
    rw [hcode]
    refine respaced_codeOf_unquoted ?_ ?_ ?_
    · exact quoteOf_not_mem_text (d := false) (by simp [hne])
    · exact quoteOf_not_mem_text (d := true) (by simp [hne])
    · rw [← hcode]
      exact line.not_mem_code (by simp)
  · obtain ⟨c, u, l, s, v, hcut, hat⟩ := hproper.exists_literalCut? hne
    obtain ⟨left, hleft, hdivides⟩ := hat.exists_divides hproper
    have hquoted : quotedCut? line.text = some c := by simp only [quotedCut?, hcut]
    have hcode : codeOf line.text =
        codeOf left.text ++ ' ' :: codeOf (line.behind s v).oneLine.text := by
      rw [codeOf_of_cut hquoted, hleft, hat.right]
    rw [hcode]
    have hl := ih _ (hn ▸ hdivides.left_lt) hdivides.left_proper rfl
    have hr := ih _ (hn ▸ hdivides.right_lt) hdivides.right_proper rfl
    exact hdivides.code.trans (hl.append hr.pad_cons)

end QuotedLine

end Pcode.Spacing
