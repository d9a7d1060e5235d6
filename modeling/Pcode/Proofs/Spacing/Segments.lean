import Pcode.Proofs.Spacing.Quoted

set_option autoImplicit false

/-! # Spacing a line with literals and a comment

A line with literals is spaced segment by segment, in whatever order its literals are cut out, if no
blanks alone stand between a literal that is cut out and the next one (`QuotedLine.Firm`). In front
of a comment the code gets one blank, which its own ink may take in again (`QuotedLine.closed`).

Main statement: the text of a firm line is spaced as its segments are
(`QuotedLine.Proper.skipBlanks_format_text`). -/

namespace Pcode.Text

/-- The text with one blank at its end. -/
def spaceEnd (s : List Char) : List Char := trimEnd s ++ [' ']

theorem respaced_spaceEnd (s : List Char) : Respaced s (spaceEnd s) := by
  have hpad := (Respaced.trimEnd s).append (Respaced.replicate_space 1)
  rwa [List.append_nil] at hpad

theorem ink_spaceEnd (s : List Char) : ink (spaceEnd s) = ink s := (respaced_spaceEnd s).ink_eq

theorem spaceEnd_of_blank {s : List Char} (hs : s.all isBlank = true) : spaceEnd s = [' '] := by
  rw [spaceEnd, (trimEnd_eq_nil_iff s).2 hs]
  rfl

theorem trimEnd_spaceEnd (s : List Char) : trimEnd (spaceEnd s) = trimEnd s := by
  rw [spaceEnd, trimEnd_append_of_blank (by decide), trimEnd_trimEnd]

/-- Blanks in front of ink stand in front of what follows it too. -/
theorem skipBlanks_append_of_ink {s : List Char} (hs : s.all isBlank = false) (t : List Char) :
    skipBlanks (s ++ t) = skipBlanks s ++ t := by
  obtain ⟨c, r, hskip, -⟩ := (beginsInk_skipBlanks hs).exists_cons
  rw [skipBlanks, (takeWhile_dropWhile_append hskip t).2, hskip]
  rfl

theorem skipBlanks_spaceEnd {s : List Char} (hs : s.all isBlank = false) :
    skipBlanks (spaceEnd s) = spaceEnd (skipBlanks s) := by
  have hend : (trimEnd s).all isBlank = false := (Respaced.trimEnd s).all_isBlank_eq.trans hs
  rw [spaceEnd, skipBlanks_append_of_ink hend, ← trim_eq_skipBlanks_trimEnd]
  rfl

theorem skipBlanks_append_congr {s s' : List Char} (h : skipBlanks s = skipBlanks s')
    (t : List Char) : skipBlanks (s ++ t) = skipBlanks (s' ++ t) := by
  cases hs : s.all isBlank with
  | true =>
      have hs' : s'.all isBlank = true := by
        rwa [← skipBlanks_eq_nil_iff, ← h, skipBlanks_eq_nil_iff]
      rw [skipBlanks_append_of_blank hs, skipBlanks_append_of_blank hs']
  | false =>
      have hs' : s'.all isBlank = false := by
        rw [← Bool.not_eq_true, ← skipBlanks_eq_nil_iff] at hs ⊢
        rwa [← h]
      rw [skipBlanks_append_of_ink hs, skipBlanks_append_of_ink hs', h]

end Pcode.Text

namespace Pcode.Spacing

open Pcode.Text

/-! ## Comments -/

/-- Blanks in front of a text are no end of a lead in ink. -/
theorem lastSplit_blank_append {β : Type} {probe : List Char → Option β} {b t : List Char}
    (hb : b.all isBlank = true) (ht : lastSplit isInk probe t = none) :
    lastSplit isInk probe (b ++ t) = none := by
  induction b with
  | nil => exact ht
  | cons c b ih =>
      rw [List.all_cons, Bool.and_eq_true] at hb
      have hc : isInk c = false := by simp [isInk, hb.1]
      rw [List.cons_append, lastSplit, ih hb.2, hc]
      simp

section

variable {s r : List Char} (hs : ∀ c ∈ ['\'', '"', '%', '\n'], c ∉ s)
  (hr : ∀ c ∈ ['\'', '"', '%', '\n'], c ∉ r)

include hs hr

/-- Code with a comment behind it is cut in front of the comment. -/
theorem commentRule_cut?_append :
    commentRule.cut? (s ++ '%' :: r) = some ⟨spaceEnd s, '%' :: r, [], false⟩ := by
  have hline : firstLine r = r := firstLine_of_not_mem (hr '\n' (by simp))
  have hfound : ∀ b : List Char, b.all isBlank = true →
      comment (b ++ '%' :: r) = some ⟨[], '%' :: r, []⟩ := by
    intro b hb
    have hskip : skipBlanks (b ++ '%' :: r) = '%' :: r := by
      rw [skipBlanks_append_of_blank hb]
      exact BeginsInk.skipBlanks_eq ⟨'%', rfl, by decide⟩
    simp only [comment, hskip, hline]
  by_cases hblank : s.all isBlank = true
  · have hprobe := hfound s hblank
    simp [commentRule, Rule.cut?, Rule.split?, hprobe, spaceEnd_of_blank hblank]
  · obtain ⟨_, b, rfl, ⟨v, c, rfl, hc⟩, hb⟩ := exists_endsInk_append (by simpa using hblank)
    -- there is no comment sign behind the first one, and ink in front of it
    have hnone : lastSplit isInk comment (b ++ '%' :: r) = none := by
      refine lastSplit_blank_append hb (lastSplit_eq_none (fun t ht => ?_) _)
      rw [comment]
      split
      · next hskip => exact absurd (mem_of_skipBlanks_suffix ht hskip) (hr '%' (by simp))
      · rfl
    have hv : '\n' ∉ v := fun hmem => hs '\n' (by simp) (by simp [hmem])
    have hsplit := lastSplit_of_end hv (show isInk c = true by simp [isInk, hc]) (hfound b hb) hnone
    have hstart : comment (v ++ c :: (b ++ '%' :: r)) = none := by
      rw [comment]
      split
      · next t hskip =>
          -- the first ink is one of the code
          have hink : (v ++ [c]).all isBlank = false := by simp [hc]
          obtain ⟨d, w, hfirst, -⟩ := (beginsInk_skipBlanks hink).exists_cons
          have happend := (takeWhile_dropWhile_append hfirst (b ++ '%' :: r)).2
          rw [List.append_assoc, List.singleton_append] at happend
          have hd : d = '%' := by
            rw [skipBlanks, happend] at hskip
            exact (List.cons.inj hskip).1
          have hmem : d ∈ v ++ [c] := (skipBlanks_sublist _).mem (by rw [hfirst]; simp)
          exact absurd (hd ▸ List.mem_append_left b hmem) (hs '%' (by simp))
      · rfl
    have hpad : spaceEnd (v ++ [c] ++ b) = v ++ [c] ++ [' '] := by
      rw [spaceEnd, trimEnd_append_of_blank hb, trimEnd_append_of_ink (by simp [hc]),
        trimEnd_cons_of_ink hc]
      rfl
    have htext : v ++ [c] ++ b ++ '%' :: r = v ++ c :: (b ++ '%' :: r) := by simp
    rw [hpad, htext]
    simp [commentRule, Rule.cut?, Rule.split?, hstart, hsplit]

theorem quotedCut?_append_comment :
    quotedCut? (s ++ '%' :: r) = some ⟨spaceEnd s, '%' :: r, [], true⟩ := by
  have hfree : ∀ c ∈ ['\'', '"'], c ∉ s ++ '%' :: r := by
    intro c hc hmem
    have hmark : c ∈ ['\'', '"', '%', '\n'] := List.mem_append_left ['%', '\n'] hc
    rcases List.mem_append.1 hmem with hmem | hmem
    · exact hs c hmark hmem
    · rcases List.mem_cons.1 hmem with rfl | hmem
      · exact absurd hc (by decide)
      · exact hr c hmark hmem
  have hcomment := commentRule_cut?_append hs hr
  simp only [quotedCut?, literalCut?, singleQuotedRule_cut?_eq_none (hfree '\'' (by simp)),
    doubleQuotedRule_cut?_eq_none (hfree '"' (by simp)), commentCut?, hcomment, Option.map_some]

/-- **In front of a comment code gets one blank**, and is spaced with it. -/
theorem format_append_comment : format (s ++ '%' :: r) = format (spaceEnd s) ++ '%' :: r := by
  have hcut : cut? (s ++ '%' :: r) = some ⟨spaceEnd s, '%' :: r, [], true⟩ := by
    have hink : (s ++ '%' :: r).all isBlank = false := by simp [show isBlank '%' = false by decide]
    rw [cut?, if_neg (by simp [hink])]
    simp only [quotedCut?_append_comment hs hr]
  rw [format_of_cut hcut, format_of_uncut (s := []) rfl, List.append_nil]

end

/-! ## Segments -/

namespace Segment

variable (s : Segment) {t : List Char}

theorem newline_not_mem : '\n' ∉ s.text := s.free '\n' (by simp)

theorem free_of_respaced (h : Respaced s.text t) : ∀ c ∈ ['\'', '"', '%', '\n'], c ∉ t := by
  intro c hc
  refine h.not_mem (s.free c hc) ?_
  rintro rfl
  exact absurd hc (by decide)

/-- A segment with its spacing in order. -/
def spaced : Segment := ⟨format s.text, s.free_of_respaced (respaced_format s.newline_not_mem)⟩

/-- A segment with one blank at its end. -/
def spaceEnd : Segment := ⟨Text.spaceEnd s.text, s.free_of_respaced (respaced_spaceEnd s.text)⟩

theorem codeOf_text : codeOf s.text = s.text :=
  codeOf_of_uncut
    (quotedCut?_eq_none (s.free _ (by simp)) (s.free _ (by simp)) (s.free _ (by simp)))

end Segment

namespace QuotedLine

/-- The segments with the last one changed. -/
def mapLast (f : Segment → Segment) :
    Segment → List (Literal × Segment) → Segment × List (Literal × Segment)
  | s, [] => (f s, [])
  | s, (l, t) :: v => (s, (l, (mapLast f t v).1) :: (mapLast f t v).2)

/-- The line with one blank in front of its comment. -/
def closed (line : QuotedLine) : QuotedLine :=
  match line.remark with
  | none => line
  | some r =>
      let closed := mapLast Segment.spaceEnd line.first line.pieces
      ⟨closed.1, closed.2, some r⟩

/-- The line with each of its segments in order. -/
def spaced (line : QuotedLine) : QuotedLine :=
  ⟨line.first.spaced, line.pieces.map fun p => (p.1, p.2.spaced), line.remark⟩

/-- The segments of a line, from left to right. -/
def segments (line : QuotedLine) : List Segment := line.first :: line.pieces.map (·.2)

/-- The segments that stand before a literal. -/
def fronts (line : QuotedLine) : List Segment := line.segments.take line.pieces.length

/-- No literal is cut out with blanks alone behind it and another literal behind these: there are
no such blanks, or the literals are of one kind and cut out from the last one on. -/
def Firm (line : QuotedLine) : Prop :=
  (∀ p ∈ line.pieces.dropLast, p.2.text = [] ∨ p.2.text.all isBlank = false) ∨
    line.first.text.all isBlank = false ∧ ∃ d, ∀ p ∈ line.pieces, p.1.double = d

instance (line : QuotedLine) : Decidable line.Firm :=
  haveI (p : Literal × Segment → Prop) [DecidablePred p] (ps : List (Literal × Segment)) :
      Decidable (∀ q ∈ ps, p q) := List.decidableBAll p ps
  inferInstanceAs (Decidable (_ ∨ _))

/-- No other comment sign follows the one of the comment, and the line ends with it. -/
def Single (line : QuotedLine) : Prop := ∀ r ∈ line.remark, '%' ∉ r.text ∧ '\n' ∉ r.text

theorem forall_mem_segments {line : QuotedLine} {P : Segment → Prop} :
    (∀ s ∈ line.segments, P s) ↔ P line.first ∧ ∀ p ∈ line.pieces, P p.2 := by
  rw [segments, List.forall_mem_cons, List.forall_mem_map]

section Split

variable {line : QuotedLine} {u v : List (Literal × Segment)} {l : Literal} {s : Segment}

theorem closed_of_none (h : line.remark = none) : line.closed = line := by
  rw [closed]
  split
  · rfl
  · next hr =>
      rw [h] at hr
      cases hr

theorem closed_remark (line : QuotedLine) : line.closed.remark = line.remark := by
  rw [closed]
  split
  · rfl
  · next hr => exact hr.symm

theorem mapLast_append (f : Segment → Segment) (t : Segment) (u : List (Literal × Segment))
    (l : Literal) (s : Segment) (v : List (Literal × Segment)) :
    mapLast f t (u ++ (l, s) :: v) = (t, u ++ (l, (mapLast f s v).1) :: (mapLast f s v).2) := by
  induction u generalizing t with
  | nil => rfl
  | cons p u ih =>
      obtain ⟨m, w⟩ := p
      rw [List.cons_append, mapLast, ih]
      rfl

variable (h : line.pieces = u ++ (l, s) :: v)

include h

/-- What is done in front of a comment is done behind each literal. -/
theorem closed_eq : line.closed =
    ⟨line.first, u ++ (l, (line.behind s v).closed.first) :: (line.behind s v).closed.pieces,
      line.remark⟩ := by
  cases hr : line.remark with
  | none =>
      have hbehind : (line.behind s v).closed = line.behind s v := closed_of_none hr
      rw [closed_of_none hr, hbehind, ← hr]
      show line = ⟨line.first, u ++ (l, s) :: v, line.remark⟩
      rw [← h]
  | some r =>
      have hbehind : (line.behind s v).remark = some r := hr
      simp only [closed, hr, hbehind, h, mapLast_append]
      rfl

theorem text_spaced_closed : line.closed.spaced.text =
    (line.before u).spaced.text ++ (l.text ++ (line.behind s v).closed.spaced.text) := by
  have hremark : (line.behind s v).closed.remark = line.remark := (line.behind s v).closed_remark
  rw [closed_eq h]
  simp [spaced, text, body, ending, before, hremark]

theorem Firm.before_firm (hfirm : line.Firm) : (line.before u).Firm := by
  refine hfirm.imp (fun hall p hp => ?_) ?_
  · rw [h, List.dropLast_append_cons] at hall
    exact hall p (List.mem_append_left _ ((List.dropLast_sublist u).mem hp))
  · rintro ⟨hfirst, d, hkind⟩
    exact ⟨hfirst, d, fun p hp => hkind p (by rw [h]; exact List.mem_append_left _ hp)⟩

/-- Behind the literal at which a firm line is cut it is firm again, and does not begin with blanks
and a literal. -/
theorem Firm.behind_firm (hfirm : line.Firm) {c : Cut} (hat : line.CutAt c u l s v) :
    (line.behind s v).Firm ∧ (v ≠ [] → s.text = [] ∨ s.text.all isBlank = false) := by
  rcases hfirm with hall | ⟨hfirst, d, hkind⟩
  · rw [h, List.dropLast_append_cons] at hall
    refine ⟨Or.inl fun p hp => hall p ?_, fun hne => hall (l, s) ?_⟩
    · refine List.mem_append_right _ ?_
      cases v with
      | nil => cases hp
      | cons q w => exact List.mem_cons_of_mem _ hp
    · obtain ⟨q, w, rfl⟩ := List.exists_cons_of_ne_nil hne
      exact List.mem_append_right _ List.mem_cons_self
  · rcases hat.left with ⟨-, hlast⟩ | ⟨-, -, hblank⟩
    · -- all literals are of one kind, so the one that is cut out is the last
      have hnil : v = [] := by
        refine List.eq_nil_iff_forall_not_mem.2 fun p hp => hlast p hp ?_
        rw [hkind p (by rw [h]; simp [hp]), hkind (l, s) (by rw [h]; simp)]
      subst hnil
      exact ⟨Or.inl fun p hp => absurd hp List.not_mem_nil, fun hne => absurd rfl hne⟩
    · rw [hfirst] at hblank
      cases hblank

end Split

theorem oneLine_text {line : QuotedLine} (hsingle : line.Single) :
    line.oneLine.text = line.text := by
  rw [← firstLine_text, firstLine_of_not_mem]
  intro hmem
  rcases List.mem_append.1 hmem with hbody | hending
  · exact line.newline_not_mem_body hbody
  · rw [ending] at hending
    split at hending
    · cases hending
    · next r hr =>
        rcases List.mem_cons.1 hending with hsign | hremark
        · exact absurd hsign (by decide)
        · exact (hsingle r hr).2 hremark

theorem Single.free {line : QuotedLine} (hsingle : line.Single) {r : Remark}
    (hr : line.remark = some r) : ∀ c ∈ ['\'', '"', '%', '\n'], c ∉ r.text := by
  have hsigns := hsingle r hr
  intro c hc
  simp only [List.mem_cons, List.not_mem_nil, or_false] at hc
  rcases hc with rfl | rfl | rfl | rfl
  · exact r.free '\'' (by simp)
  · exact r.free '"' (by simp)
  · exact hsigns.1
  · exact hsigns.2

theorem format_text_of_nil {line : QuotedLine} (h : line.pieces = []) (hsingle : line.Single) :
    format line.text = line.closed.spaced.text := by
  cases hr : line.remark with
  | none =>
      rw [closed_of_none hr]
      simp [text, body, ending, spaced, Segment.spaced, h, hr]
  | some r =>
      have htext : line.text = line.first.text ++ '%' :: r.text := by
        simp [text, body, ending, h, hr]
      rw [htext, format_append_comment line.first.free (hsingle.free hr)]
      simp [closed, spaced, text, body, ending, mapLast, Segment.spaced, Segment.spaceEnd, h, hr]

/-! ### Piece by piece -/

/-- A function follows the cuts at literals: what it gives for a text is what it gives for the two
sides of a cut, with something made of the literal between them. -/
def FollowsLiterals (f join : List Char → List Char) : Prop :=
  ∀ s c, literalCut? s = some c → f s = f c.left ++ (join c.mid ++ f c.right)

/-- What a function gives for each segment, with something made of the literals between them. A
comment goes with the last segment. -/
def piecewise (f join : List Char → List Char) (ending : List Char) :
    Segment → List (Literal × Segment) → List Char
  | s, [] => f (s.text ++ ending)
  | s, (l, t) :: v => f s.text ++ (join l.text ++ piecewise f join ending t v)

section

variable {f join : List Char → List Char} {line : QuotedLine}

theorem piecewise_append (ending : List Char) (t : Segment) (u : List (Literal × Segment))
    (l : Literal) (s : Segment) (v : List (Literal × Segment)) :
    piecewise f join ending t (u ++ (l, s) :: v) =
      piecewise f join [] t u ++ (join l.text ++ piecewise f join ending s v) := by
  induction u generalizing t with
  | nil => simp [piecewise]
  | cons p u ih =>
      obtain ⟨m, w⟩ := p
      rw [List.cons_append, piecewise, piecewise, ih, List.append_assoc, List.append_assoc]

theorem eq_piecewise_of_nil (h : line.pieces = []) :
    f line.text = piecewise f join line.ending line.first line.pieces := by
  simp [piecewise, text, body, h]

variable (hf : FollowsLiterals f join)

include hf

/-- **A function that follows the cuts at literals goes through a firm line segment by segment.** -/
theorem Proper.eq_piecewise (hproper : line.Proper) (hfirm : line.Firm) (hsingle : line.Single)
    (hfirst : line.pieces ≠ [] → line.first.text = [] ∨ line.first.text.all isBlank = false) :
    f line.text = piecewise f join line.ending line.first line.pieces := by
  -- on the number of literals: both sides of a cut have fewer
  induction hn : line.pieces.length using Nat.strong_induction_on generalizing line with
  | _ n ih =>
  by_cases hne : line.pieces = []
  · exact eq_piecewise_of_nil hne
  · obtain ⟨c, u, l, s, v, hcut, hat⟩ := hproper.exists_literalCut? hne
    have hdivides := hproper.divides hat.pieces
    obtain ⟨hbehind, hflush⟩ := hfirm.behind_firm hat.pieces hat
    have hleft : f (line.before u).text = piecewise f join [] line.first u :=
      ih _ (hn ▸ hdivides.left_lt) hdivides.left_proper (hfirm.before_firm hat.pieces)
        (fun r hr => by cases hr) (fun _ => hfirst hne) rfl
    have hright : f (line.behind s v).text = piecewise f join line.ending s v :=
      ih _ (hn ▸ hdivides.right_lt) (hproper.behind_proper hat.pieces) hbehind hsingle hflush rfl
    have hone : (line.behind s v).oneLine.text = (line.behind s v).text := oneLine_text hsingle
    have hbefore : c.left = (line.before u).text := by
      rcases hat.left with ⟨hall, -⟩ | ⟨hnone, rfl, hblank⟩
      · exact hall
      · have hempty := (hfirst hne).resolve_right (by rw [hblank]; simp)
        simp [hnone, QuotedLine.before, text, body, ending, hempty]
    rw [hf _ c hcut, hbefore, hat.mid, hat.right, hone, hleft, hright, hat.pieces, piecewise_append]

/-- Blanks in front of a first literal may be lost. -/
theorem Proper.skipBlanks_eq_piecewise (hproper : line.Proper) (hfirm : line.Firm)
    (hsingle : line.Single)
    (hblank : ∀ s : Segment, s.text.all isBlank = true → (f s.text).all isBlank = true) :
    skipBlanks (f line.text) =
      skipBlanks (piecewise f join line.ending line.first line.pieces) := by
  induction hn : line.pieces.length using Nat.strong_induction_on generalizing line with
  | _ n ih =>
  by_cases hne : line.pieces = []
  · rw [← eq_piecewise_of_nil hne]
  · obtain ⟨c, u, l, s, v, hcut, hat⟩ := hproper.exists_literalCut? hne
    have hdivides := hproper.divides hat.pieces
    obtain ⟨hbehind, hflush⟩ := hfirm.behind_firm hat.pieces hat
    have hright : f (line.behind s v).text = piecewise f join line.ending s v :=
      (hproper.behind_proper hat.pieces).eq_piecewise hf hbehind hsingle hflush
    have hone : (line.behind s v).oneLine.text = (line.behind s v).text := oneLine_text hsingle
    have hleft : skipBlanks (f c.left) = skipBlanks (piecewise f join [] line.first u) := by
      rcases hat.left with ⟨hall, -⟩ | ⟨hnone, rfl, hfirst⟩
      · rw [hall]
        exact ih _ (hn ▸ hdivides.left_lt) hdivides.left_proper (hfirm.before_firm hat.pieces)
          (fun r hr => by cases hr) rfl
      · have hnil : skipBlanks (f []) = [] := (skipBlanks_eq_nil_iff _).2 (hblank .nil rfl)
        rw [hnone, hnil, piecewise, List.append_nil, (skipBlanks_eq_nil_iff _).2 (hblank _ hfirst)]
    rw [hf _ c hcut, hat.mid, hat.right, hone, hright, hat.pieces, piecewise_append]
    exact skipBlanks_append_congr hleft _

end

/-! ### Spacing -/

theorem format_followsLiterals : FollowsLiterals format id := by
  intro s c hcut
  have hquoted : cut? s = some c := by
    have hink : s.all isBlank = false := by
      by_contra hblank
      have hall := List.all_eq_true.1 (by simpa using hblank : s.all isBlank = true)
      have hsingle : '\'' ∉ s := fun hmem => absurd (hall _ hmem) (by decide)
      have hdouble : '"' ∉ s := fun hmem => absurd (hall _ hmem) (by decide)
      simp [literalCut?, singleQuotedRule_cut?_eq_none hsingle,
        doubleQuotedRule_cut?_eq_none hdouble] at hcut
    rw [cut?, if_neg (by simp [hink])]
    simp only [quotedCut?, hcut]
  rw [format_of_cut hquoted, List.append_assoc]
  rfl

theorem piecewise_format {line : QuotedLine} (hsingle : line.Single) :
    piecewise format id line.ending line.first line.pieces = line.closed.spaced.text := by
  obtain ⟨s, pieces, remark⟩ := line
  induction pieces generalizing s with
  | nil => exact (eq_piecewise_of_nil rfl).symm.trans (format_text_of_nil rfl hsingle)
  | cons p v ih =>
      obtain ⟨l, t⟩ := p
      have hfirst : (before ⟨s, (l, t) :: v, remark⟩ []).spaced.text = format s.text := by
        simp [before, spaced, text, body, ending, Segment.spaced]
      rw [text_spaced_closed (u := []) rfl, hfirst]
      exact congrArg (fun w => format s.text ++ (l.text ++ w)) (ih t hsingle)

/-- **A firm line is spaced segment by segment**, but for blanks in front of a first literal. -/
theorem Proper.skipBlanks_format_text {line : QuotedLine} (hproper : line.Proper)
    (hfirm : line.Firm) (hsingle : line.Single) :
    skipBlanks (format line.text) = skipBlanks line.closed.spaced.text := by
  rw [← piecewise_format hsingle]
  exact hproper.skipBlanks_eq_piecewise format_followsLiterals hfirm hsingle fun s hs =>
    (respaced_format s.newline_not_mem).all_isBlank_eq.trans hs

/-! ### Code -/

/-- The segments of a line with a blank between them. -/
def joined (line : QuotedLine) : List Char :=
  line.first.text ++ line.pieces.flatMap fun p => ' ' :: p.2.text

theorem codeOf_followsLiterals : FollowsLiterals codeOf fun _ => [' '] := by
  intro s c hcut
  have hquoted : quotedCut? s = some c := by simp only [quotedCut?, hcut]
  rw [codeOf_of_cut hquoted]
  rfl

theorem trimEnd_piecewise_codeOf {line : QuotedLine} (hsingle : line.Single) :
    trimEnd (piecewise codeOf (fun _ => [' ']) line.ending line.first line.pieces) =
      trimEnd line.joined := by
  obtain ⟨s, pieces, remark⟩ := line
  induction pieces generalizing s with
  | nil =>
      cases remark with
      | none => simp [piecewise, ending, joined, s.codeOf_text]
      | some r =>
          have hcode : codeOf (s.text ++ '%' :: r.text) = spaceEnd s.text ++ [' '] := by
            rw [codeOf_of_cut (quotedCut?_append_comment s.free (hsingle.free rfl)), codeOf_nil]
            exact congrArg (· ++ [' ']) s.spaceEnd.codeOf_text
          show trimEnd (codeOf (s.text ++ '%' :: r.text)) = trimEnd (joined ⟨s, [], some r⟩)
          rw [hcode, trimEnd_append_of_blank (by decide), trimEnd_spaceEnd]
          simp [joined]
  | cons p v ih =>
      obtain ⟨l, t⟩ := p
      have hjoined :
          joined ⟨s, (l, t) :: v, remark⟩ = s.text ++ [' '] ++ joined ⟨t, v, remark⟩ := by
        simp [joined]
      rw [hjoined, piecewise, s.codeOf_text, ← List.append_assoc]
      exact trimEnd_append_congr (ih t hsingle) _

/-- **The code of a firm line is its segments with blanks between them**, but for blanks at the
ends. -/
theorem Proper.trim_codeOf_text {line : QuotedLine} (hproper : line.Proper) (hfirm : line.Firm)
    (hsingle : line.Single) : trim (codeOf line.text) = trim line.joined := by
  have hskip := hproper.skipBlanks_eq_piecewise codeOf_followsLiterals hfirm hsingle fun s hs => by
    rwa [s.codeOf_text]
  rw [trim, hskip, ← trim, trim_eq_skipBlanks_trimEnd, trimEnd_piecewise_codeOf hsingle,
    ← trim_eq_skipBlanks_trimEnd]

/-! ### The first segment -/

/-- The line with another first segment. -/
def withFirst (line : QuotedLine) (t : Segment) : QuotedLine := { line with first := t }

/-- What follows the first segment. -/
def rest (line : QuotedLine) : List Char :=
  (line.pieces.flatMap fun p => p.1.text ++ p.2.text) ++ line.ending

theorem text_eq_rest (line : QuotedLine) : line.text = line.first.text ++ line.rest := by
  rw [text, body, rest, List.append_assoc]

/-- What follows the first segment begins with a quote or the sign of a comment. -/
theorem skipBlanks_rest (line : QuotedLine) : skipBlanks line.rest = line.rest := by
  have hending : skipBlanks line.ending = line.ending := by
    rw [ending]
    split
    · rfl
    · exact BeginsInk.skipBlanks_eq ⟨'%', rfl, by decide⟩
  rw [rest]
  cases line.pieces with
  | nil => exact hending
  | cons p v =>
      apply BeginsInk.skipBlanks_eq
      exact ⟨quoteOf p.1.double, by simp [Literal.text], isBlank_quoteOf _⟩

/-- Blanks in front of a line are blanks in front of its first segment. -/
theorem skipBlanks_text (line : QuotedLine) :
    skipBlanks line.text = skipBlanks line.first.text ++ line.rest := by
  rw [text_eq_rest]
  cases hblank : line.first.text.all isBlank with
  | true =>
      rw [skipBlanks_append_of_blank hblank, (skipBlanks_eq_nil_iff _).2 hblank, skipBlanks_rest]
      rfl
  | false => rw [skipBlanks_append_of_ink hblank]

theorem free_append_skipBlanks (line : QuotedLine) {u : List Char}
    (hu : ∀ c ∈ ['\'', '"', '%', '\n'], c ∉ u) :
    ∀ c ∈ ['\'', '"', '%', '\n'], c ∉ u ++ skipBlanks line.first.text := by
  intro c hc hmem
  rcases List.mem_append.1 hmem with hmem | hmem
  · exact hu c hc hmem
  · exact line.first.free c hc ((skipBlanks_sublist _).mem hmem)

/-- The line with other text in front of it in place of its blanks. -/
def fronted (line : QuotedLine) (u : List Char) (hu : ∀ c ∈ ['\'', '"', '%', '\n'], c ∉ u) :
    QuotedLine :=
  line.withFirst ⟨u ++ skipBlanks line.first.text, line.free_append_skipBlanks hu⟩

section

variable (line : QuotedLine) {u : List Char} (hu : ∀ c ∈ ['\'', '"', '%', '\n'], c ∉ u)

theorem text_fronted : (line.fronted u hu).text = u ++ skipBlanks line.text := by
  rw [text_eq_rest, skipBlanks_text, ← List.append_assoc]
  rfl

theorem ink_code_fronted : ink (line.fronted u hu).code = ink u ++ ink line.code := by
  simp [fronted, withFirst, code, ink_append]

end

/-- The line without the blanks in front of it. -/
def unindented (line : QuotedLine) : QuotedLine := line.fronted [] fun _ _ => List.not_mem_nil

theorem text_unindented (line : QuotedLine) : line.unindented.text = skipBlanks line.text :=
  line.text_fronted _

theorem ink_code_unindented (line : QuotedLine) : ink line.unindented.code = ink line.code :=
  line.ink_code_fronted _

/-! ### Blanks at the end -/

end QuotedLine

/-- A segment without the blanks at its end. -/
def Segment.trimEnd (s : Segment) : Segment :=
  ⟨Text.trimEnd s.text, s.free_of_respaced (Respaced.trimEnd s.text)⟩

/-- A comment without the blanks at its end. -/
def Remark.trimEnd (r : Remark) : Remark :=
  ⟨Text.trimEnd r.text, fun c hc hmem => r.free c hc ((List.rdropWhile_prefix _ _).subset hmem)⟩

theorem Literal.trimEnd_append (l : Literal) (s : List Char) :
    trimEnd (l.text ++ s) = l.text ++ trimEnd s := by
  cases hs : s.all isBlank with
  | true =>
      have hquote : trimEnd [quoteOf l.double] = [quoteOf l.double] :=
        trimEnd_cons_of_ink (isBlank_quoteOf _) []
      rw [trimEnd_append_of_blank hs, (trimEnd_eq_nil_iff s).2 hs, List.append_nil, Literal.text,
        ← List.cons_append, trimEnd_append_of_ink (by simp [isBlank_quoteOf]), hquote]
  | false => rw [trimEnd_append_of_ink hs]

namespace QuotedLine

/-- A line without the blanks at its end. -/
def trimmed (line : QuotedLine) : QuotedLine :=
  match line.remark with
  | none =>
      let trimmed := mapLast Segment.trimEnd line.first line.pieces
      ⟨trimmed.1, trimmed.2, none⟩
  | some r => { line with remark := some r.trimEnd }

theorem text_trimmed (line : QuotedLine) : line.trimmed.text = trimEnd line.text := by
  obtain ⟨s, pieces, remark⟩ := line
  cases remark with
  | some r =>
      have hending : trimEnd ('%' :: r.text) = '%' :: trimEnd r.text :=
        trimEnd_cons_of_ink (by decide) r.text
      have hink : ('%' :: r.text).all isBlank = false := by
        simp [show isBlank '%' = false by decide]
      show body ⟨s, pieces, some r⟩ ++ '%' :: trimEnd r.text =
        trimEnd (body ⟨s, pieces, some r⟩ ++ '%' :: r.text)
      rw [trimEnd_append_of_ink hink, hending]
  | none =>
      induction pieces generalizing s with
      | nil => simp [trimmed, mapLast, text, body, ending, Segment.trimEnd]
      | cons p v ih =>
          obtain ⟨l, t⟩ := p
          have hink : (l.text ++ text ⟨t, v, none⟩).all isBlank = false := by
            simp [Literal.text, isBlank_quoteOf]
          have htext : text ⟨s, (l, t) :: v, none⟩ = s.text ++ (l.text ++ text ⟨t, v, none⟩) :=
            text_eq_first _ rfl
          have htrimmed : (trimmed ⟨s, (l, t) :: v, none⟩).text =
              s.text ++ (l.text ++ (trimmed ⟨t, v, none⟩).text) := text_eq_first _ rfl
          rw [htext, htrimmed, ih t, trimEnd_append_of_ink hink, l.trimEnd_append]

/-! ### Ink -/

theorem ink_code_mapLast {f : Segment → Segment} (hf : ∀ s, ink (f s).text = ink s.text)
    (s : Segment) (v : List (Literal × Segment)) (remark : Option Remark) :
    ink (code ⟨(mapLast f s v).1, (mapLast f s v).2, remark⟩) = ink (code ⟨s, v, remark⟩) := by
  induction v generalizing s with
  | nil => simp [mapLast, code, hf]
  | cons p v ih =>
      obtain ⟨l, t⟩ := p
      have hcode : ∀ (s t : Segment) (v : List (Literal × Segment)),
          code ⟨s, (l, t) :: v, remark⟩ = s.text ++ code ⟨t, v, remark⟩ :=
            fun s t v => by simp [code]
      rw [mapLast, hcode, hcode, ink_append, ink_append, ih t]

theorem ink_code_trimmed (line : QuotedLine) : ink line.trimmed.code = ink line.code := by
  rw [trimmed]
  split
  · next hr =>
      have hcode := ink_code_mapLast (f := Segment.trimEnd) (fun s => ink_trimEnd s.text) line.first
        line.pieces none
      rw [← hr] at hcode
      rw [← hr]
      exact hcode
  · rfl

/-- Spacing changes nothing but blanks in the code. -/
theorem ink_code_spaced (line : QuotedLine) : ink line.closed.spaced.code = ink line.code := by
  have hspaced : ∀ line : QuotedLine, ink line.spaced.code = ink line.code := by
    intro line
    have hink : ∀ s : Segment, ink s.spaced.text = ink s.text := fun s =>
      (respaced_format s.newline_not_mem).ink_eq
    simp [spaced, code, ink, List.filter_flatMap, List.flatMap_map] at hink ⊢
    simp [hink]
  rw [hspaced, closed]
  split
  · rfl
  · next r hr =>
      have hcode :=
        ink_code_mapLast (f := Segment.spaceEnd) (fun s => ink_spaceEnd s.text) line.first
        line.pieces (some r)
      rw [hcode, ← hr]

end QuotedLine

end Pcode.Spacing
