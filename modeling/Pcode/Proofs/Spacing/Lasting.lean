import Pcode.Proofs.Spacing.Beside
import Pcode.Proofs.Spacing.Reader

set_option autoImplicit false

/-! # Spacing a line with literals and a comment again

A line that has been spaced is read with the literals it had, if the characters beside them are of
classes that spacing leaves there (`QuotedLine.Lasting`). Its segments are those it came from with
their spacing in order (`QuotedLine.Carried`), and so a second pass does to it what it does to each
of them.

Main statement: a line that lasts stays as it is in a second pass if and only if no sign in its
segments wavers (`QuotedLine.Lasting.trim_format_eq_iff`). -/

namespace Pcode.Spacing

open Pcode.Text

namespace QuotedLine

/-! ## Segments of equal texts -/

/-- The texts of the segments, without the blanks at their ends. -/
def trims (line : QuotedLine) : List (List Char) := line.segments.map fun s => trim s.text

theorem trims_unindented (line : QuotedLine) : line.unindented.trims = line.trims := by
  show trim (skipBlanks line.first.text) :: _ = trim line.first.text :: _
  rw [trim_skipBlanks]
  rfl

section

variable {f : Segment → Segment}

theorem trims_mapLast (hf : ∀ s, trim (f s).text = trim s.text) (s : Segment)
    (v : List (Literal × Segment)) (r : Option Remark) :
    trims ⟨(mapLast f s v).1, (mapLast f s v).2, r⟩ = trims ⟨s, v, r⟩ := by
  induction v generalizing s with
  | nil => exact congrArg (fun t => [t]) (hf s)
  | cons p v ih => exact congrArg (trim s.text :: ·) (ih p.2)

theorem mapLast_first_cases (s : Segment) (v : List (Literal × Segment)) :
    (mapLast f s v).1 = s ∨ (mapLast f s v).1 = f s := by
  cases v with
  | nil => exact Or.inr rfl
  | cons p v => exact Or.inl rfl

/-- The pieces are the same, the last segment apart. -/
theorem pieces_mapLast (s : Segment) (v : List (Literal × Segment)) :
    (mapLast f s v).2.map (·.1) = v.map (·.1) ∧ (mapLast f s v).2.dropLast = v.dropLast := by
  induction v generalizing s with
  | nil => exact ⟨rfl, rfl⟩
  | cons p v ih =>
      refine ⟨congrArg (p.1 :: ·) (ih p.2).1, ?_⟩
      cases v with
      | nil => rfl
      | cons q w => exact congrArg (p :: ·) (ih p.2).2

end

theorem trims_trimmed (line : QuotedLine) : line.trimmed.trims = line.trims := by
  rw [trimmed]
  split
  · exact trims_mapLast (fun s => trim_trimEnd s.text) _ _ _
  · rfl

theorem trims_closed (line : QuotedLine) : line.closed.trims = line.trims := by
  have htrim : ∀ s : Segment, trim s.spaceEnd.text = trim s.text := fun s => by
    rw [← trim_trimEnd, ← trim_trimEnd s.text]
    exact congrArg trim (trimEnd_spaceEnd s.text)
  rw [closed]
  split
  · rfl
  · next hr =>
      rw [trims_mapLast htrim, ← hr]

/-- **Lines with the same text have the same segments**, but for blanks at the ends of all of
them. -/
theorem trims_eq {line line' : QuotedLine} (h : trim line.text = trim line'.text) :
    line.trims = line'.trims := by
  have htext : ∀ l : QuotedLine, l.unindented.trimmed.text = trim l.text := fun l => by
    rw [text_trimmed, text_unindented, trim]
  have hsame : line.unindented.trimmed = line'.unindented.trimmed :=
    text_injective (by rw [htext, htext, h])
  rw [← trims_unindented, ← trims_trimmed, hsame, trims_trimmed, trims_unindented]

/-! ## The second pass -/

/-- The segments of one line are those of another for the second pass, with the same literals. -/
structure Carried (line again : QuotedLine) : Prop where
  first : Relays false line.first.text again.first.text
  pieces : List.Forall₂ (fun p q => p.1 = q.1 ∧ Relays true p.2.text q.2.text) line.pieces
    again.pieces
  remark : again.remark = line.remark

/-- No sign of the line wavers. -/
def Steady (line : QuotedLine) : Prop := ∀ s ∈ line.segments, ∀ j, wavers j (filled s.text) = false

section

variable {line again : QuotedLine}

/-- Where no sign wavers, a second pass gives the same segments behind literals. -/
theorem map_spaced_eq {ps qs : List (Literal × Segment)}
    (h : List.Forall₂ (fun p q => p.1 = q.1 ∧ Relays true p.2.text q.2.text) ps qs)
    (hps : ∀ p ∈ ps, Docile p.2.text ∧ Spaces p.2.text ∧ ∀ j, wavers j (filled p.2.text) = false) :
    (qs.map fun q => (q.1, q.2.spaced)) = ps.map fun p => (p.1, p.2.spaced) := by
  induction h with
  | nil => rfl
  | @cons p q ps qs hpq _ ih =>
      obtain ⟨hdocile, hspaces, hsteady⟩ := hps p (by simp)
      have hsegment : q.2.spaced = p.2.spaced :=
        Segment.ext (format_eq_of_gapAt hdocile.code hpq.2.respaced hspaces fun _ =>
          hpq.2.gapAt_format_eq hdocile hsteady (Or.inl rfl))
      rw [List.map_cons, List.map_cons, hsegment, hpq.1, ih fun r hr => hps r (by simp [hr])]

/-- Where no sign wavers, a second pass gives the same line. -/
theorem Carried.skipBlanks_text_eq (h : line.Carried again)
    (hdocile : ∀ s ∈ line.segments, Docile s.text) (hspaces : ∀ s ∈ line.segments, Spaces s.text)
    (hsteady : line.Steady) : skipBlanks again.spaced.text = skipBlanks line.spaced.text := by
  rw [forall_mem_segments] at hdocile hspaces
  rw [Steady, forall_mem_segments] at hsteady
  have hpieces : again.spaced.pieces = line.spaced.pieces :=
    map_spaced_eq h.pieces fun p hp => ⟨hdocile.2 p hp, hspaces.2 p hp, hsteady.2 p hp⟩
  have hrest : again.spaced.rest = line.spaced.rest := by
    have hremark : again.spaced.remark = line.spaced.remark := h.remark
    rw [rest, rest, hpieces, ending, ending, hremark]
  rw [skipBlanks_text, skipBlanks_text, hrest]
  exact congrArg (· ++ _) (skipBlanks_format_eq_of_gapAt hdocile.1.code h.first.respaced hspaces.1
    fun _ hj => h.first.gapAt_format_eq hdocile.1 hsteady.1 (Or.inr hj))

/-- Where a second pass gives the same segments behind literals, no sign of them wavers. -/
theorem steady_of_map_eq {ps qs : List (Literal × Segment)}
    (h : List.Forall₂ (fun p q => p.1 = q.1 ∧ Relays true p.2.text q.2.text) ps qs)
    (hps : ∀ p ∈ ps, Docile p.2.text)
    (htrim : (qs.map fun q => trim (format q.2.text)) = ps.map fun p => trim (format p.2.text)) :
    ∀ p ∈ ps, ∀ j, wavers j (filled p.2.text) = false := by
  induction h with
  | nil => exact fun p hp => absurd hp List.not_mem_nil
  | @cons p q ps qs hpq _ ih =>
      obtain ⟨hfirst, hrest⟩ := List.cons.inj htrim
      rw [List.forall_mem_cons] at hps ⊢
      exact ⟨hpq.2.not_wavers hps.1 hfirst, ih hps.2 hrest⟩

/-- **A second pass keeps a line if and only if no sign in it wavers.** -/
theorem Carried.trim_text_eq_iff (h : line.Carried again)
    (hdocile : ∀ s ∈ line.segments, Docile s.text) (hspaces : ∀ s ∈ line.segments, Spaces s.text) :
    trim again.spaced.text = trim line.spaced.text ↔ line.Steady := by
  constructor
  · intro htrim
    obtain ⟨hfirst, hrest⟩ := List.cons.inj (trims_eq htrim)
    have hall := forall_mem_segments.1 hdocile
    rw [Steady, forall_mem_segments]
    refine ⟨h.first.not_wavers hall.1 hfirst, steady_of_map_eq h.pieces hall.2 ?_⟩
    simpa [spaced, Segment.spaced, Function.comp_def] using hrest
  · intro hsteady
    rw [trim, trim, h.skipBlanks_text_eq hdocile hspaces hsteady]

end

/-! ## One blank in front of a comment -/

section

variable {line : QuotedLine}

/-- The segments of a closed line are those of the line, the last one perhaps with a blank. -/
theorem mem_segments_closed {s : Segment} (h : s ∈ line.closed.segments) :
    ∃ t ∈ line.segments, s = t ∨ s = t.spaceEnd := by
  have hpad : ∀ (t : Segment) (v : List (Literal × Segment)),
      s ∈ (mapLast Segment.spaceEnd t v).1 :: (mapLast Segment.spaceEnd t v).2.map (·.2) →
        ∃ t' ∈ t :: v.map (·.2), s = t' ∨ s = t'.spaceEnd := by
    intro t v hmem
    induction v generalizing t with
    | nil => exact ⟨t, by simp, Or.inr (List.mem_singleton.1 hmem)⟩
    | cons p v ih =>
        rcases List.mem_cons.1 hmem with hfirst | hmem
        · exact ⟨t, by simp, Or.inl hfirst⟩
        · obtain ⟨t', ht', hs⟩ := ih p.2 hmem
          exact ⟨t', List.mem_cons_of_mem t ht', hs⟩
  rw [closed] at h
  split at h
  · exact ⟨s, h, Or.inl rfl⟩
  · exact hpad _ _ h

theorem mem_segments_of_closed {s : Segment} (h : s ∈ line.segments) :
    s ∈ line.closed.segments ∨ s.spaceEnd ∈ line.closed.segments := by
  have hpad : ∀ (t : Segment) (v : List (Literal × Segment)), s ∈ t :: v.map (·.2) →
      s ∈ (mapLast Segment.spaceEnd t v).1 :: (mapLast Segment.spaceEnd t v).2.map (·.2) ∨
        s.spaceEnd ∈ (mapLast Segment.spaceEnd t v).1 :: (mapLast Segment.spaceEnd t v).2.map
          (·.2) := by
    intro t v hmem
    induction v generalizing t with
    | nil =>
        obtain rfl := List.mem_singleton.1 hmem
        exact Or.inr List.mem_cons_self
    | cons p v ih =>
        rcases List.mem_cons.1 hmem with rfl | hmem
        · exact Or.inl List.mem_cons_self
        · exact (ih p.2 hmem).imp (List.mem_cons_of_mem t) (List.mem_cons_of_mem t)
  rw [closed]
  split
  · exact Or.inl h
  · exact hpad _ _ h

theorem steady_closed : line.closed.Steady ↔ line.Steady := by
  have hpad :
      ∀ (s : Segment) (j : Nat), wavers j (filled s.spaceEnd.text) = wavers j (filled s.text) :=
    fun s j => (wavers_filled_eq (isMarked_spaceEnd s.text) (respaced_spaceEnd s.text)
      (unaryAt_filled_spaceEnd s.text) j).symm
  constructor
  · intro h s hs j
    rcases mem_segments_of_closed hs with hmem | hmem
    · exact h s hmem j
    · rw [← hpad, h _ hmem j]
  · intro h s hs j
    obtain ⟨t, ht, rfl | rfl⟩ := mem_segments_closed hs
    · exact h s ht j
    · rw [hpad, h t ht j]

theorem docile_closed (h : ∀ s ∈ line.segments, Docile s.text) :
    ∀ s ∈ line.closed.segments, Docile s.text := by
  intro s hs
  obtain ⟨t, ht, rfl | rfl⟩ := mem_segments_closed hs
  · exact h s ht
  · exact (h t ht).spaceEnd

theorem spaces_closed (h : ∀ s ∈ line.segments, Spaces s.text) :
    ∀ s ∈ line.closed.segments, Spaces s.text := by
  intro s hs
  obtain ⟨t, ht, rfl | rfl⟩ := mem_segments_closed hs
  · exact h s ht
  · exact (h t ht).respaced (respaced_spaceEnd t.text)

/-- A line that has been closed and spaced, closed again. -/
theorem carried_mapLast {front : Bool} {s t s' : Segment} {v v' : List (Literal × Segment)}
    (hclosed : mapLast Segment.spaceEnd s v = (s', v')) (h : Relays front s'.text t.text)
    (hs : Docile s'.text) (hv : ∀ p ∈ v', Docile p.2.text) :
    let again := mapLast Segment.spaceEnd t (v'.map fun p => (p.1, p.2.spaced))
    Relays front s'.text again.1.text ∧
      List.Forall₂ (fun p q => p.1 = q.1 ∧ Relays true p.2.text q.2.text) v' again.2 := by
  induction v generalizing front s t s' v' with
  | nil =>
      obtain ⟨rfl, rfl⟩ := Prod.mk.inj hclosed
      refine ⟨Relays.spaceEnd h hs ?_, .nil⟩
      have hend := gapAt_spaceEnd_end s.text
      rwa [← ink_spaceEnd] at hend
  | cons p v ih =>
      obtain ⟨l, u⟩ := p
      obtain ⟨rfl, rfl⟩ := Prod.mk.inj hclosed
      rw [List.forall_mem_cons] at hv
      have hrelays := relays_format hv.1
      obtain ⟨hfirst, hrest⟩ :=
        ih (t := (mapLast Segment.spaceEnd u v).1.spaced) rfl hrelays hv.1 hv.2
      exact ⟨h, .cons ⟨rfl, hfirst⟩ hrest⟩

/-- **A line that has been spaced carries its spacing**, also with a blank put in front of its
comment again and with another first segment that does. -/
theorem carried_closed {t : Segment} (h : Relays false line.closed.first.text t.text)
    (hdocile : ∀ s ∈ line.segments, Docile s.text) :
    line.closed.Carried (line.closed.spaced.withFirst t).closed := by
  have hall := forall_mem_segments.1 (docile_closed hdocile)
  cases hr : line.remark with
  | none =>
      have hagain : (line.spaced.withFirst t).closed = line.spaced.withFirst t := closed_of_none hr
      rw [closed_of_none hr] at h hall ⊢
      rw [hagain]
      refine ⟨h, ?_, rfl⟩
      show List.Forall₂ _ line.pieces (line.pieces.map _)
      rw [List.forall₂_map_right_iff, List.forall₂_same]
      exact fun p hp => ⟨rfl, relays_format (hall.2 p hp)⟩
  | some r =>
      have hclosed : line.closed = ⟨(mapLast Segment.spaceEnd line.first line.pieces).1,
          (mapLast Segment.spaceEnd line.first line.pieces).2, some r⟩ := by
        simp only [closed, hr]
      rw [hclosed] at h hall ⊢
      obtain ⟨hfirst, hpieces⟩ := carried_mapLast rfl h hall.1 hall.2
      exact ⟨hfirst, hpieces, rfl⟩

end

/-! ## Lines that last -/

/-- A line with docile segments whose literals are told by what stands beside them, as it is and
once it has been spaced. -/
structure Lasting (line : QuotedLine) : Prop where
  proper : line.Proper
  firm : line.Firm
  single : line.Single
  docile : ∀ s ∈ line.segments, Docile s.text
  spaces : ∀ s ∈ line.segments, Spaces s.text
  opens : ∀ s ∈ line.fronts, ∀ c ∈ (ink (filled s.text)).getLast?, opensLiteral c = true
  follows : ∀ p ∈ line.pieces, ∀ c ∈ (ink (filled p.2.text)).head?, followsLiteral c = true

instance (line : QuotedLine) : Decidable line.Single :=
  inferInstanceAs (Decidable (∀ r ∈ line.remark, '%' ∉ r.text ∧ '\n' ∉ r.text))

instance (line : QuotedLine) : Decidable line.Lasting :=
  -- by going through the segments, not through all texts
  haveI (p : Segment → Prop) [DecidablePred p] (ss : List Segment) : Decidable (∀ s ∈ ss, p s) :=
    List.decidableBAll p ss
  haveI (p : Literal × Segment → Prop) [DecidablePred p] : Decidable (∀ q ∈ line.pieces, p q) :=
    List.decidableBAll p line.pieces
  decidable_of_iff (line.Proper ∧ line.Firm ∧ line.Single ∧ (∀ s ∈ line.segments, Docile s.text) ∧
      (∀ s ∈ line.segments, Spaces s.text) ∧
      (∀ s ∈ line.fronts, (ink (filled s.text)).getLast?.all opensLiteral = true) ∧
      ∀ p ∈ line.pieces, (ink (filled p.2.text)).head?.all followsLiteral = true)
    ⟨fun ⟨proper, firm, single, docile, spaces, opens, follows⟩ =>
      ⟨proper, firm, single, docile, spaces,
        fun s hs => Option.all_eq_true _ _ |>.1 (opens s hs),
        fun p hp => Option.all_eq_true _ _ |>.1 (follows p hp)⟩,
      fun h => ⟨h.proper, h.firm, h.single, h.docile, h.spaces,
        fun s hs => Option.all_eq_true _ _ |>.2 (h.opens s hs),
        fun p hp => Option.all_eq_true _ _ |>.2 (h.follows p hp)⟩⟩

section

variable {line : QuotedLine} {t : Segment}

theorem newline_not_mem_text (hsingle : line.Single) : '\n' ∉ line.text := by
  rw [← oneLine_text hsingle, ← firstLine_text]
  exact fun hmem => absurd (List.mem_takeWhile_imp hmem) (by simp)

theorem mem_fronts_withFirst {s : Segment} (h : s ∈ (line.withFirst t).fronts) :
    (s = t ∧ line.pieces ≠ []) ∨ s ∈ line.fronts := by
  cases hpieces : line.pieces with
  | nil =>
      rw [fronts, show (line.withFirst t).pieces = line.pieces from rfl, hpieces] at h
      cases h
  | cons p v =>
      rw [fronts, segments, show (line.withFirst t).pieces = line.pieces from rfl, hpieces] at h
      rcases List.mem_cons.1 h with rfl | h
      · exact Or.inl ⟨rfl, by simp⟩
      · rw [fronts, segments, hpieces]
        exact Or.inr (List.mem_cons_of_mem _ h)

theorem all_isBlank_spaced (s : Segment) : s.spaced.text.all isBlank = s.text.all isBlank :=
  (respaced_format s.newline_not_mem).all_isBlank_eq

/-- The pieces of a closed line are those of the line, the last segment apart. -/
theorem pieces_closed (line : QuotedLine) : line.closed.pieces.map (·.1) = line.pieces.map (·.1) ∧
    line.closed.pieces.dropLast = line.pieces.dropLast := by
  rw [closed]
  split
  · exact ⟨rfl, rfl⟩
  · exact pieces_mapLast _ _

theorem closed_first_cases (line : QuotedLine) :
    line.closed.first = line.first ∨ line.closed.first = line.first.spaceEnd := by
  rw [closed]
  split
  · exact Or.inl rfl
  · exact mapLast_first_cases _ _

theorem all_isBlank_closed (line : QuotedLine) :
    line.closed.spaced.first.text.all isBlank = line.first.text.all isBlank := by
  refine (all_isBlank_spaced line.closed.first).trans ?_
  rcases line.closed_first_cases with hfirst | hfirst
  · rw [hfirst]
  · rw [hfirst]
    exact (respaced_spaceEnd line.first.text).all_isBlank_eq

/-- A firm line that has been spaced is firm. -/
theorem Firm.again (hfirm : line.Firm) : line.closed.spaced.Firm := by
  obtain ⟨hkinds, hinner⟩ := line.pieces_closed
  rcases hfirm with hall | ⟨hink, d, hkind⟩
  · refine Or.inl fun p hp => ?_
    have hpieces : line.closed.spaced.pieces.dropLast =
        line.pieces.dropLast.map fun p => (p.1, p.2.spaced) := by
      rw [← hinner]
      exact List.map_dropLast.symm
    rw [hpieces] at hp
    obtain ⟨q, hq, rfl⟩ := List.mem_map.1 hp
    rw [all_isBlank_spaced]
    refine (hall q hq).imp_left fun hnil => ?_
    show format q.2.text = []
    rw [hnil, format_of_uncut rfl]
  · refine Or.inr ⟨line.all_isBlank_closed.trans hink, d, fun p hp => ?_⟩
    obtain ⟨q, hq, rfl⟩ := List.mem_map.1 (show p ∈ line.closed.pieces.map _ from hp)
    have hmem : q.1 ∈ line.pieces.map (·.1) := hkinds ▸ List.mem_map_of_mem hq
    obtain ⟨r, hr, hrq⟩ := List.mem_map.1 hmem
    show q.1.double = d
    rw [← hrq, hkind r hr]

/-- A firm line is firm behind other text. -/
theorem Firm.fronted (hfirm : line.Firm) {u : List Char}
    (hu : ∀ c ∈ ['\'', '"', '%', '\n'], c ∉ u) :
    (line.fronted u hu).Firm := by
  refine hfirm.imp_right fun hkind => ⟨?_, hkind.2⟩
  show (u ++ skipBlanks line.first.text).all isBlank = false
  rw [List.all_append, (Respaced.skipBlanks _).all_isBlank_eq, hkind.1, Bool.and_false]

/-- A firm line is firm without the blanks at its end. -/
theorem Firm.trimmed (hfirm : line.Firm) : line.trimmed.Firm := by
  have hpad : ∀ (s : Segment) (v : List (Literal × Segment)) (r : Option Remark), Firm ⟨s, v, r⟩ →
      Firm ⟨(mapLast Segment.trimEnd s v).1, (mapLast Segment.trimEnd s v).2, r⟩ := by
    intro s v r hline
    obtain ⟨hkinds, hinner⟩ := pieces_mapLast (f := Segment.trimEnd) s v
    refine hline.imp (fun hall p hp => hall p (hinner ▸ hp)) ?_
    rintro ⟨hink, d, hkind⟩
    refine ⟨?_, d, fun p hp => ?_⟩
    · rcases mapLast_first_cases (f := Segment.trimEnd) s v with hfirst | hfirst
      · exact (congrArg (fun t : Segment => t.text.all isBlank) hfirst).trans hink
      · refine (congrArg (fun t : Segment => t.text.all isBlank) hfirst).trans ?_
        exact (Respaced.trimEnd s.text).all_isBlank_eq.trans hink
    · have hmem : p.1 ∈ v.map (·.1) := hkinds ▸ List.mem_map_of_mem hp
      obtain ⟨q, hq, hpq⟩ := List.mem_map.1 hmem
      rw [← hpq, hkind q hq]
  rw [QuotedLine.trimmed]
  split
  · exact hpad _ _ _ hfirm
  · exact hfirm

theorem Single.trimmed (hsingle : line.Single) : line.trimmed.Single := by
  rw [QuotedLine.trimmed]
  split
  · exact fun q hq => by cases hq
  · next r hr =>
      intro q hq
      cases hq
      have hmem : ∀ {c}, c ∈ r.trimEnd.text → c ∈ r.text := fun hc =>
        (List.rdropWhile_prefix isBlank r.text).subset hc
      exact ⟨fun hsign => (hsingle r hr).1 (hmem hsign),
        fun hbreak => (hsingle r hr).2 (hmem hbreak)⟩

theorem trim_format_congr {s s' : List Char} (hs : '\n' ∉ s) (hs' : '\n' ∉ s')
    (h : trimEnd s = trimEnd s') : trim (format s) = trim (format s') := by
  rw [← trim_format_trimEnd hs, h, trim_format_trimEnd hs']

theorem free_replicate (n : Nat) : ∀ c ∈ ['\'', '"', '%', '\n'], c ∉ List.replicate n ' ' := by
  intro c hc hmem
  rw [List.eq_of_mem_replicate hmem] at hc
  exact absurd hc (by decide)

/-- A literal may stand behind spaces. -/
theorem isBeforeLiteral_replicate (n : Nat) :
    ∀ c ∈ (List.replicate n ' ').getLast?, isBeforeLiteral c = true := by
  intro c hc
  rw [List.eq_of_mem_replicate (List.mem_of_getLast? hc)]
  decide

/-- The line once it has been spaced, behind some spaces. -/
def moved (line : QuotedLine) (n : Nat) : QuotedLine :=
  line.closed.spaced.fronted (List.replicate n ' ') (free_replicate n)

namespace Lasting

variable (h : line.Lasting)

include h

theorem skipBlanks_format_text :
    skipBlanks (format line.text) = skipBlanks line.closed.spaced.text :=
  h.proper.skipBlanks_format_text h.firm h.single

/-- Once it has been spaced the line is proper. -/
theorem proper_again : line.closed.spaced.Proper :=
  proper_spaced h.proper h.docile h.opens h.follows

theorem single_again : line.closed.spaced.Single := by
  intro r hr
  have hremark : line.closed.remark = some r := hr
  exact h.single r (by rw [← line.closed_remark, hremark]; rfl)

/-- The line is spaced again segment by segment. -/
theorem skipBlanks_format_moved (n : Nat) :
    skipBlanks (format (line.moved n).text) = skipBlanks (line.moved n).closed.spaced.text := by
  refine Proper.skipBlanks_format_text ?_ (h.firm.again.fronted (free_replicate n)) h.single_again
  exact h.proper_again.fronted (free_replicate n) fun _ _ => isBeforeLiteral_replicate n

end Lasting

/-- **A line that lasts stays as it is in a second pass if and only if no sign in it wavers.** In
between it may be moved behind any number of spaces. -/
theorem Lasting.trim_format_eq_iff (h : line.Lasting)
    (hstart : unaryAt 0 (filled line.first.text) = false) (n : Nat) :
    trim (format (List.replicate n ' ' ++ trim (format line.text))) = trim (format line.text) ↔
      line.Steady := by
  have htext := newline_not_mem_text h.single
  have hfree : '\n' ∉ skipBlanks (format line.text) := fun hmem =>
    (respaced_format htext).newline_not_mem htext ((skipBlanks_sublist _).mem hmem)
  -- blanks at the end of what is spaced again do not matter
  have htrim : trimEnd (List.replicate n ' ' ++ trim (format line.text)) =
      trimEnd (List.replicate n ' ' ++ skipBlanks (format line.text)) :=
    trimEnd_append_congr (trimEnd_trim _) _
  have hmoved : (line.moved n).text = List.replicate n ' ' ++ skipBlanks (format line.text) := by
    rw [h.skipBlanks_format_text]
    exact text_fronted _ _
  have hagain : trim (format (List.replicate n ' ' ++ trim (format line.text))) =
      trim (line.moved n).closed.spaced.text := by
    have htrimmed : '\n' ∉ List.replicate n ' ' ++ trim (format line.text) :=
      ((Respaced.trimEnd _).pad_left n).newline_not_mem hfree
    rw [trim_format_congr htrimmed (((Respaced.refl _).pad_left n).newline_not_mem hfree) htrim,
      ← hmoved, trim, h.skipBlanks_format_moved n, ← trim]
  rw [hagain, trim, trim, h.skipBlanks_format_text, ← trim, ← trim, ← steady_closed]
  have hfirst : unaryAt 0 (filled line.closed.first.text) = false := by
    rcases line.closed_first_cases with heq | heq
    · rw [heq, hstart]
    · rw [heq, ← hstart]
      exact (unaryAt_filled_spaceEnd line.first.text 0).symm
  have hdocile := docile_closed h.docile
  have hrelays : Relays false line.closed.first.text (line.moved n).first.text :=
    (relays_format (forall_mem_segments.1 hdocile).1).behind hfirst n
  exact (carried_closed hrelays h.docile).trim_text_eq_iff hdocile (spaces_closed h.spaces)

/-! ## Blanks in front -/

/-- Another first segment is closed on its own. -/
theorem closed_withFirst (line : QuotedLine) (t : Segment) :
    (line.withFirst t).closed.pieces = line.closed.pieces ∧
      ((line.withFirst t).closed.first = t ∧ line.closed.first = line.first ∨
        (line.withFirst t).closed.first = t.spaceEnd ∧
          line.closed.first = line.first.spaceEnd) := by
  obtain ⟨s, v, r⟩ := line
  cases r with
  | none => exact ⟨rfl, Or.inl ⟨rfl, rfl⟩⟩
  | some r =>
      cases v with
      | nil => exact ⟨rfl, Or.inr ⟨rfl, rfl⟩⟩
      | cons p v => exact ⟨rfl, Or.inl ⟨rfl, rfl⟩⟩

section

variable (hsign : inkAt isSign 0 line.first.text = false)

include hsign

/-- Blanks in front matter to signs that stand there only. -/
theorem steady_unindented : line.unindented.Steady ↔ line.Steady := by
  have hwavers : ∀ j, wavers j (filled line.first.text) =
      wavers j (filled line.unindented.first.text) :=
    wavers_filled_eq (isMarked_skipBlanks _) (Respaced.skipBlanks _)
      (unaryAt_filled_skipBlanks hsign)
  rw [Steady, Steady, forall_mem_segments, forall_mem_segments]
  exact and_congr_left' (forall_congr' fun j => by rw [hwavers])

/-- A line that lasts does without the blanks in front of it. -/
theorem Lasting.unindented (h : line.Lasting) : line.unindented.Lasting := by
  have hrespaced : Respaced line.first.text line.unindented.first.text := Respaced.skipBlanks _
  have hdocile := forall_mem_segments.1 h.docile
  have hspaces := forall_mem_segments.1 h.spaces
  refine ⟨h.proper.unindented, ?_, h.single,
    forall_mem_segments.2 ⟨hdocile.1.skipBlanks hsign, hdocile.2⟩,
    forall_mem_segments.2 ⟨hspaces.1.respaced hrespaced, hspaces.2⟩, fun s hs => ?_, h.follows⟩
  · exact h.firm.imp_right fun hkind => ⟨hrespaced.all_isBlank_eq.trans hkind.1, hkind.2⟩
  · rcases mem_fronts_withFirst hs with ⟨rfl, hpieces⟩ | hmem
    · obtain ⟨p, v, hp⟩ := List.exists_cons_of_ne_nil hpieces
      have hfront : line.first ∈ line.fronts := by
        rw [fronts, segments, hp]
        exact List.mem_cons_self
      have hopens := h.opens line.first hfront
      rwa [ink_filled_eq (isMarked_skipBlanks _) (ink_skipBlanks _).symm] at hopens
    · exact h.opens s hmem

/-- Where no sign begins the line, the blanks in front of it change nothing behind them. -/
theorem Lasting.skipBlanks_format_skipBlanks (h : line.Lasting) :
    skipBlanks (format (skipBlanks line.text)) = skipBlanks (format line.text) := by
  have hdocile := (forall_mem_segments.1 h.docile).1
  have hspaces := (forall_mem_segments.1 h.spaces).1
  obtain ⟨hpieces, hfirst⟩ := line.closed_withFirst line.unindented.first
  have hrest : line.unindented.closed.spaced.rest = line.closed.spaced.rest := by
    have hmap : line.unindented.closed.spaced.pieces = line.closed.spaced.pieces :=
      congrArg (List.map fun p : Literal × Segment => (p.1, p.2.spaced)) hpieces
    have hremark : line.unindented.closed.spaced.remark = line.closed.spaced.remark :=
      line.unindented.closed_remark.trans line.closed_remark.symm
    rw [rest, rest, hmap, ending, ending, hremark]
  have hspaced : skipBlanks (format line.unindented.closed.first.text) =
      skipBlanks (format line.closed.first.text) := by
    rcases hfirst with ⟨hagain, hsame⟩ | ⟨hagain, hsame⟩
    · rw [show line.unindented.closed.first = _ from hagain, hsame]
      exact hdocile.skipBlanks_format_skipBlanks hsign hspaces
    · rw [show line.unindented.closed.first = _ from hagain, hsame]
      show skipBlanks (format (spaceEnd (skipBlanks line.first.text))) =
        skipBlanks (format (spaceEnd line.first.text))
      cases hblank : line.first.text.all isBlank with
      | false =>
          rw [← skipBlanks_spaceEnd hblank]
          exact hdocile.spaceEnd.skipBlanks_format_skipBlanks
            ((inkAt_of_ink_eq (ink_spaceEnd _) isSign 0).trans hsign)
            (hspaces.respaced (respaced_spaceEnd _))
      | true =>
          rw [spaceEnd_of_blank hblank,
            spaceEnd_of_blank ((Respaced.skipBlanks _).all_isBlank_eq.trans hblank)]
  rw [← text_unindented, (h.unindented hsign).skipBlanks_format_text, h.skipBlanks_format_text,
    skipBlanks_text, skipBlanks_text, hrest]
  exact congrArg (· ++ _) hspaced

end

end

theorem steady_iff (line : QuotedLine) :
    line.Steady ↔
      ∀ s ∈ line.segments, ∀ j < (ink (filled s.text)).length,
        wavers j (filled s.text) = false := by
  refine ⟨fun h s hs j _ => h s hs j, fun h s hs j => ?_⟩
  cases hwavers : wavers j (filled s.text) with
  | false => rfl
  | true =>
      have hj := lt_of_inkAt (inkAt_sign_of_unaryAt (unaryAt_of_wavers hwavers))
      exact hwavers.symm.trans (h s hs j hj)

instance (line : QuotedLine) : Decidable line.Steady :=
  haveI (p : Segment → Prop) [DecidablePred p] : Decidable (∀ s ∈ line.segments, p s) :=
    List.decidableBAll p line.segments
  decidable_of_iff _ line.steady_iff.symm

end QuotedLine

end Pcode.Spacing
