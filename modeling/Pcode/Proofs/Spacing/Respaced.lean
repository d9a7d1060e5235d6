import Pcode.Proofs.Spacing.Lead
import Pcode.Proofs.Text.Respaced

set_option autoImplicit false

/-! # Spacing adds and drops blanks only

On a text of one line every probe gives its pieces as a respacing of the text it was given
(`Probe.Respaces`), hence so does every rule and every cut, and cutting to the end respaces the
whole text.

Main statements: `respaced_format`, and for the code of a line, which leaves out literals and
comments, that it brings no new character (`mem_leaves`). A text with a line end is different:
what follows the line end is dropped by most probes. -/

namespace Pcode.Spacing

open Pcode.Text

/-! ## Pieces of probes -/

theorem respaced_remainder {s : List Char} (hs : '\n' ∉ s) : Respaced s (remainder s) := by
  have hskip := Respaced.skipBlanks s
  rw [remainder, firstLine_of_not_mem (hskip.newline_not_mem hs)]
  exact hskip

theorem respaced_symbols? {ps : List (Char → Bool)} {s m r : List Char}
    (h : symbols? ps s = some (m, r)) : Respaced s (m ++ r) := by
  induction ps generalizing s m with
  | nil =>
      obtain ⟨rfl, rfl⟩ : [] = m ∧ s = r := by simpa [symbols?] using h
      exact Respaced.refl s
  | cons p ps ih =>
      obtain ⟨c, t, m', hskip, -, hq, rfl⟩ := symbols?_cons_eq_some h
      exact (Respaced.of_skipBlanks hskip).trans ((ih hq).cons c)

theorem not_mem_symbols?_rest {ps : List (Char → Bool)} {s m r : List Char} (hs : '\n' ∉ s)
    (h : symbols? ps s = some (m, r)) : '\n' ∉ r := fun hr =>
  (respaced_symbols? h).newline_not_mem hs (List.mem_append_right m hr)

/-- A text of one line stays one behind the first ink. -/
theorem newline_not_mem_of_skipBlanks {s u r : List Char} (hs : '\n' ∉ s)
    (h : skipBlanks s = u ++ r) : '\n' ∉ r := by
  intro hmem
  apply (Respaced.skipBlanks s).newline_not_mem hs
  rw [h]
  exact List.mem_append_right u hmem

theorem takeWhile_append_firstLine {p : Char → Bool} {s : List Char} (hs : '\n' ∉ s) :
    s.takeWhile p ++ firstLine (s.dropWhile p) = s := by
  have hdrop : '\n' ∉ s.dropWhile p := fun h => hs ((List.dropWhile_sublist p).mem h)
  rw [firstLine_of_not_mem hdrop, List.takeWhile_append_dropWhile]

/-! ## Probes -/

/-- What a probe finds in a text of one line is the text but for blanks. -/
def Probe.Respaces (p : Probe) : Prop :=
  ∀ t f, '\n' ∉ t → p t = some f → Respaced t (f.head ++ f.mid ++ f.right)

/-- What a probe finds in a text of one line is the text but for the blanks in front of it. -/
def Probe.Exact (p : Probe) : Prop :=
  ∀ t f, '\n' ∉ t → p t = some f → f.head ++ f.mid ++ f.right = skipBlanks t

theorem Probe.Exact.respaces {p : Probe} (hp : p.Exact) : p.Respaces := by
  intro t f ht h
  rw [hp t f ht h]
  exact Respaced.skipBlanks t

theorem Probe.TakesSymbols.respaces {p : Probe} {ps : List (Char → Bool)}
    (h : p.TakesSymbols ps) : p.Respaces := by
  intro t f ht hf
  obtain ⟨r, hsymbols, hhead, hright⟩ := h t f hf
  have hline := not_mem_symbols?_rest ht hsymbols
  have hrest : Respaced r f.right := by
    rcases hright with heq | heq
    · rw [heq, firstLine_of_not_mem hline]
    · rw [heq]
      exact respaced_remainder hline
  rw [hhead, List.nil_append]
  exact (respaced_symbols? hsymbols).trans ((Respaced.refl f.mid).append hrest)

theorem blankRun_respaces : Probe.Respaces blankRun := by
  intro t f ht h
  obtain ⟨-, rfl⟩ := blankRun_eq_some h
  exact (respaced_remainder ht).pad_cons

theorem scientific_exact : Probe.Exact scientific := by
  intro t f ht h
  obtain ⟨r, hf⟩ := scientific_eq_some h
  rw [hf.right, firstLine_of_not_mem (newline_not_mem_of_skipBlanks ht hf.text), hf.text]

theorem ratio_respaces : Probe.Respaces ratio := by
  intro t f ht h
  obtain ⟨u, r, hf⟩ := ratio_eq_some h
  -- blanks are dropped in front of the numerator and on both sides of the slash
  have hskip := Respaced.skipBlanks t
  rw [hf.text] at hskip
  have hslash := Respaced.of_skipBlanks hf.slash
  have hline : '\n' ∉ r := fun hmem => hslash.newline_not_mem
    (newline_not_mem_of_skipBlanks ht hf.text) (List.mem_cons_of_mem _ hmem)
  rw [hf.mid, hf.right, List.append_assoc]
  exact hskip.trans ((Respaced.refl f.head).append
    (hslash.trans ((respaced_remainder hline).cons '/')))

/-! ## Literals and comments -/

theorem afterLiteral?_eq {s u : List Char} (hs : '\n' ∉ s) (h : afterLiteral? s = some u) :
    u = s := by
  rw [afterLiteral?.eq_def] at h
  split at h
  · cases h; rfl
  · next c t =>
      have ht : '\n' ∉ t := fun hmem => hs (List.mem_cons_of_mem c hmem)
      split at h
      · cases h
        rw [firstLine_of_not_mem ht]
      · split at h
        · cases h
          exact takeWhile_append_firstLine hs
        · cases h

theorem Probe.TakesLiteral.exact {p : Probe} {q : Char} (h : p.TakesLiteral q) : p.Exact := by
  intro t f ht hf
  obtain ⟨body, r, htext, hhead, -, hright⟩ := h t f hf
  rw [hhead, afterLiteral?_eq (newline_not_mem_of_skipBlanks ht htext) hright, htext,
    List.nil_append]

theorem comment_exact : Probe.Exact comment := by
  intro t f ht h
  obtain ⟨u, hskip, rfl⟩ := comment_eq_some h
  have hline : '\n' ∉ u := newline_not_mem_of_skipBlanks (u := ['%']) ht hskip
  rw [firstLine_of_not_mem hline, List.append_nil, hskip]
  rfl

/-! ## Cuts -/

/-- The parts of a cut, put together again, are the text but for blanks. -/
def Cut.Respaces (c : Cut) (s : List Char) : Prop := Respaced s (c.left ++ c.mid ++ c.right)

theorem Rule.cut?_respaces {r : Rule} (hr : Probe.Respaces r.probe) {s : List Char} {c : Cut}
    (hs : '\n' ∉ s) (h : r.cut? s = some c) : c.Respaces s := by
  obtain ⟨lead, t, f, -, rfl, ht, rfl⟩ := Rule.cut?_eq_some h
  have hprobe := hr t f (fun hmem => hs (List.mem_append_right lead hmem)) ht
  have hpad : ∀ b : Bool, Respaced [] (if b then [' '] else []) := by
    intro b
    cases b
    · exact Respaced.refl []
    · exact Respaced.replicate_space 1
  -- the pads stand on both sides of the middle, where the text has nothing
  have hhead : Respaced (f.head ++ f.mid ++ f.right)
      (f.head ++ (if r.padLeft then [' '] else []) ++ f.mid ++
        ((if r.padRight then [' '] else []) ++ f.right)) := by
    have hleft := (Respaced.refl f.head).append (hpad r.padLeft)
    have hright := (hpad r.padRight).append (Respaced.refl f.right)
    rw [List.append_nil] at hleft
    exact (hleft.append (Respaced.refl f.mid)).append hright
  have hall := (Respaced.refl lead).append (hprobe.trans hhead)
  simpa only [Cut.Respaces, List.append_assoc] using hall

theorem literalCut?_respaces {s : List Char} {c : Cut} (hs : '\n' ∉ s)
    (h : literalCut? s = some c) : c.Respaces s := by
  rcases literalCut?_eq_some h with h | h
  · exact Rule.cut?_respaces singleQuoted_takesLiteral.exact.respaces hs h
  · exact Rule.cut?_respaces doubleQuoted_takesLiteral.exact.respaces hs h

theorem commentCut?_respaces {s : List Char} {c : Cut} (hs : '\n' ∉ s)
    (h : commentCut? s = some c) : c.Respaces s := by
  obtain ⟨d, hd, rfl⟩ := Option.map_eq_some_iff.1 h
  have hd' : d.Respaces s := Rule.cut?_respaces (r := commentRule) comment_exact.respaces hs hd
  exact hd'

theorem quotedCut?_respaces {s : List Char} {c : Cut} (hs : '\n' ∉ s)
    (h : quotedCut? s = some c) : c.Respaces s := by
  rcases quotedCut?_eq_some h with hliteral | hcomment
  · exact literalCut?_respaces hs hliteral
  · exact commentCut?_respaces hs hcomment

theorem inkRules_respaces : ∀ r ∈ inkRules, Probe.Respaces r.probe := by
  intro r hr
  rcases inkRules_probe r hr with hprobe | hprobe | ⟨ps, -, hsymbols⟩
  · rw [hprobe]
    exact scientific_exact.respaces
  · rw [hprobe]
    exact ratio_respaces
  · exact hsymbols.respaces

theorem cut?_respaces {s : List Char} {c : Cut} (hs : '\n' ∉ s) (h : cut? s = some c) :
    c.Respaces s := by
  rcases cut?_eq_some h with ⟨hblank, rfl⟩ | hliteral | hcomment | ⟨r, hr, hrule⟩ | hrun
  · exact (Respaced.drop_all hblank).pad_cons
  · exact literalCut?_respaces hs hliteral
  · exact commentCut?_respaces hs hcomment
  · exact Rule.cut?_respaces (inkRules_respaces r hr) hs hrule
  · exact Rule.cut?_respaces (r := blankRunRule) blankRun_respaces hs hrun

/-! ## Cutting to the end -/

/-- A cutter respaces if each of its cuts in a text of one line does. -/
def Cutter.Respaces (k : Cutter) : Prop :=
  ∀ s c, '\n' ∉ s → k.cut? s = some c → c.Respaces s

theorem spacing_respaces : spacing.Respaces := fun _ _ => cut?_respaces

theorem quoting_respaces : quoting.Respaces := fun _ _ => quotedCut?_respaces

theorem Cut.Respaces.sides {c : Cut} {s : List Char} (h : c.Respaces s) (hs : '\n' ∉ s) :
    '\n' ∉ c.left ∧ '\n' ∉ c.right := by
  have hall := Respaced.newline_not_mem h hs
  constructor
  · exact fun hmem => hall (by simp [hmem])
  · exact fun hmem => hall (by simp [hmem])

theorem Cutter.respaced_tree {k : Cutter} (hk : k.Respaces) {s : List Char} (hs : '\n' ∉ s) :
    Respaced s (k.tree s).text := by
  induction s using Cutter.tree.induct k with
  | case1 s huncut =>
      rw [Cutter.tree_of_uncut huncut]
      exact Respaced.refl s
  | case2 s c hcut _ ihleft ihright =>
      have hc := hk s c hs hcut
      obtain ⟨hleft, hright⟩ := hc.sides hs
      rw [Cutter.tree_of_cut hcut]
      exact hc.trans (((ihleft hleft).append (Respaced.refl c.mid)).append (ihright hright))

/-- Leaving out the middles brings no new character. -/
theorem Cutter.mem_leaves {k : Cutter} (hk : k.Respaces) {s : List Char} (hs : '\n' ∉ s)
    {x : Char} (hx : x ∈ (k.tree s).leaves) : x ∈ s ∨ x = ' ' := by
  induction s using Cutter.tree.induct k with
  | case1 s huncut =>
      rw [Cutter.tree_of_uncut huncut] at hx
      exact Or.inl hx
  | case2 s c hcut _ ihleft ihright =>
      have hc := hk s c hs hcut
      obtain ⟨hleft, hright⟩ := hc.sides hs
      -- a leaf lies on one side of the cut; between the sides stands one blank
      have hside : x ∈ c.left ++ c.mid ++ c.right ∨ x = ' ' := by
        rw [Cutter.tree_of_cut hcut] at hx
        rcases List.mem_append.1 hx with hl | hr
        · exact (ihleft hleft hl).imp_left (by simp +contextual)
        · rcases List.mem_cons.1 hr with hspace | hr
          · exact Or.inr hspace
          · exact (ihright hright hr).imp_left (by simp +contextual)
      rcases hside with hmem | hspace
      · exact Respaced.mem hc x hmem
      · exact Or.inr hspace

/-- **Putting the spacing of a line in order** adds and drops blanks only. -/
theorem respaced_format {s : List Char} (hs : '\n' ∉ s) : Respaced s (format s) :=
  Cutter.respaced_tree spacing_respaces hs

end Pcode.Spacing
