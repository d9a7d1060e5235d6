import Pcode.Proofs.Indent.Layout
import Pcode.Proofs.Indent.Orderly

set_option autoImplicit false

/-! # Laying out a layout

A layout that is laid out again is read line by line in the forms in which it was written, and from
the same states (`layLines_again`): the empty lines that the first run has put in are those that the
second one would put in, and the first line gives back the level at which it stands. So the second
layout differs from the first in the texts of its lines only, and there only where a sign wavers.

Main statement: the layout of orderly lines is its own layout if and only if none of them wavers
(`layText_again_iff`). -/

namespace Pcode.Text

/-- Lines without line breaks, joined and divided again, are the same if the last is not empty. -/
theorem splitLines_intercalate {ls : List (List Char)} (hfree : ∀ l ∈ ls, BreakFree l)
    (hlast : ∀ l ∈ ls.getLast?, l ≠ []) : splitLines (['\n'].intercalate ls) = ls := by
  induction ls with
  | nil => rfl
  | cons l ls ih =>
      have hl := hfree l (by simp)
      cases ls with
      | nil =>
          have hne : l ≠ [] := hlast l rfl
          rw [List.intercalate_singleton, splitLines, ← List.append_nil l,
            splitLinesFrom_append hl, splitLinesFrom, List.append_nil, List.append_nil,
            if_neg (by simpa using hne), List.reverse_reverse]
      | cons m ls =>
          have hrest :=
            ih (fun n hn => hfree n (by simp [hn])) fun n hn => hlast n (by simpa using hn)
          rw [List.intercalate_cons_cons, List.append_assoc, splitLines, splitLinesFrom_append hl,
            List.singleton_append, splitLinesFrom_newline, List.append_nil, List.reverse_reverse]
          exact congrArg (l :: ·) hrest

end Pcode.Text

namespace Pcode.Indent

open Pcode.Text

/-! ## States -/

section

variable {st st₀ : State} {f : Form}

theorem Calm.next (h : Calm st) (m : Marks) (f : Form) : Calm (f.next m st) := by
  have hturned := h.turned false m
  cases f with
  | comment => exact h.turned true m
  | command => exact hturned
  | plain => exact hturned
  | continuation keyword => exact hturned
  | closing keyword => exact { hturned with }
  | opening kind keyword => cases kind <;> exact { hturned with }
  | row bracket levels => cases bracket <;> exact { hturned with }

theorem Calm.of_begun_eq (h : Calm st) (hbegun : st₀.begun = st.begun) : Calm st₀ :=
  Calm.of_begun (hbegun ▸ h.begun)

theorem Calm.shift (h : Calm st) (offset : Int) : Calm (st.shift offset) := { h with }

/-- What a form does is settled by the state but for what is noted of a single line. -/
theorem Form.of_begun_eq (f : Form) (m : Marks) (h : st₀.begun = st.begun) :
    f.next m st₀ = f.next m st ∧ f.offset st₀ = f.offset st ∧ f.add st₀ = f.add st := by
  have hbegun : ∀ s : State, f.next m s = f.next m s.begun ∧ f.offset s = f.offset s.begun ∧
      f.add s = f.add s.begun := by
    intro s
    cases f with
    | row bracket levels => cases bracket <;> exact ⟨rfl, rfl, rfl⟩
    | _ => exact ⟨rfl, rfl, rfl⟩
  rw [(hbegun st).1, (hbegun st).2.1, (hbegun st).2.2, ← h]
  exact hbegun st₀

theorem nest_of_begun_eq (h : st₀.begun = st.begun) : st₀.nest = st.nest := by
  have hnest : ∀ s : State, s.nest = s.begun.nest := fun _ => rfl
  rw [hnest, h, ← hnest]

/-- Near a comment the marks of a line have no part in what it does. -/
theorem Form.next_comment (m m' : Marks) (st : State) :
    Form.comment.next m st = Form.comment.next m' st := by
  simp [Form.next, State.turned]

end

/-! ## Empty lines read again -/

/-- The same line behind some number of spaces. -/
def Shifted (p q : List Char) : Prop := ∃ n, q = behind n (skipBlanks p)

theorem Shifted.all_isBlank {q : List Char} (h : Shifted [] q) : q.all isBlank = true := by
  obtain ⟨n, rfl⟩ := h
  rw [show skipBlanks [] = [] from rfl, behind, List.append_nil]
  exact all_isBlank_replicate n

theorem shifted_behind (n : Nat) {s : List Char} (hs : BeginsInk s) :
    Shifted (behind n s) (behind n s) :=
  ⟨n, by rw [skipBlanks_behind n hs]⟩

theorem shifted_of_mem_gap {b : Bool} : ∀ p ∈ State.gap b, Shifted p p := by
  have hgap : ∀ b : Bool, ∀ p ∈ State.gap b, p = [] := by decide
  intro p hp
  rw [hgap b p hp]
  exact ⟨0, rfl⟩

theorem map_nil_append {α : Type} (r : Except Error (List α)) : r.map ([] ++ ·) = r := by
  cases r <;> rfl

section

variable {style : Style} {st : State} {blank b : Bool} {g : List (List Char)}

theorem exists_shifted_of_gap (hg : List.Forall₂ Shifted (State.gap true) g) :
    ∃ q, g = [q] ∧ Shifted [] q := by
  cases hg with
  | cons hq hrest =>
      cases hrest
      exact ⟨_, rfl, hq⟩

/-- An empty line that has been put before a line is read and written again. -/
theorem layLines_gapBefore (hb : b = true → blank = false)
    (hg : List.Forall₂ Shifted (State.gap b) g) (lines : List (List Char)) :
    st.layLines style blank (g ++ lines) =
      ((st.layLines style (blank || b) lines).1,
        (st.layLines style (blank || b) lines).2.map (State.gap b ++ ·)) := by
  cases b with
  | false =>
      cases hg
      rw [Bool.or_false, State.gap, if_neg (by simp), map_nil_append]
      rfl
  | true =>
      obtain ⟨q, rfl, hq⟩ := exists_shifted_of_gap hg
      rw [hb rfl, List.singleton_append, State.layLines_cons_of_blank hq.all_isBlank]
      rfl

/-- An empty line that has been put after a line is not written twice. -/
theorem layLines_gapAfter (hg : List.Forall₂ Shifted (State.gap b) g) (lines : List (List Char)) :
    st.layLines style b (g ++ lines) = st.layLines style b lines := by
  cases b with
  | false =>
      cases hg
      rfl
  | true =>
      obtain ⟨q, rfl, hq⟩ := exists_shifted_of_gap hg
      rw [List.singleton_append, State.layLines_cons_of_blank hq.all_isBlank, Bool.not_true,
        State.gap, if_neg (by simp), map_nil_append]

end

/-! ## One line read again -/

section

variable {style : Style} (hwidth : style.width ≠ 0) (hfunctions : style.functions = .fixed 1)
  {st : State} (hst : Calm st)

include hwidth hfunctions hst

/-- **One step**: a line is written, and what is written is laid out again from the same state, with
the same effect and behind any number of spaces. -/
theorem layLine_again {line : List Char} {f : Form} {text : List Char}
    (h : Rereads style.width st.nest line f text) :
    ∃ st' l, st.layLine style line = (st', .ok l) ∧ Calm (st'.shift l.offset) ∧
      (st'.shift l.offset).nest = st.nest.after line ∧
      trimEnd l.text = (f.next (marks line) st).indent style.width (f.add st) ++ f.written text ∧
      (trimEnd l.text).all isBlank = false ∧
      ∀ (st₀ : State) (q : List Char), st₀.begun = st.begun → Shifted (trimEnd l.text) q →
        ∃ st₁ l', st₀.layLine style q = (st₁, .ok l') ∧ q.all isBlank = false ∧
          (st₁.shift l'.offset).begun = (st'.shift l.offset).begun ∧ l'.offset = l.offset ∧
          (trimEnd l'.text).all isBlank = false ∧
          (trimEnd l'.text = trimEnd l.text ↔ Steady line) := by
  obtain ⟨hread, ⟨hbegins, hends⟩, hagain⟩ := h
  obtain ⟨st', l, hlay, hbegun, hoffset, htext⟩ := hread.layLine hst hwidth hfunctions hbegins hends
  have hink : ∀ u v, BeginsInk v → (u ++ v).all isBlank = false := fun u v hv => by
    rw [List.all_append, hv.all_eq_false, Bool.and_false]
  have hcalm : Calm st' := (hst.next (marks line) f).of_begun_eq hbegun
  have hnest : st'.nest = st.nest.after line :=
    (nest_of_begun_eq hbegun).trans (hread.nest_next (marks line))
  refine ⟨st', l, hlay, hcalm.shift l.offset, hnest,
    htext, by rw [htext]; exact hink _ _ hbegins, ?_⟩
  -- read again from a state that agrees on what has begun, behind `n` spaces
  rintro st₀ q hst₀ ⟨n, rfl⟩
  have hskip : skipBlanks (trimEnd l.text) = f.written text := by
    rw [htext]
    exact skipBlanks_behind _ hbegins
  obtain ⟨text', hread', ⟨hbegins', hends'⟩, hmarks, hiff⟩ := hagain n
  have hsame : f.next (marks (behind n (f.written text))) st = f.next (marks line) st := by
    rcases hmarks with rfl | hmarks
    · exact Form.next_comment _ _ st
    · rw [hmarks]
  obtain ⟨hnext, hoffset₀, hadd⟩ := f.of_begun_eq (marks (behind n (f.written text))) hst₀
  rw [← nest_of_begun_eq hst₀] at hread'
  obtain ⟨st₁, l', hlay', hbegun', hoffset', htext'⟩ :=
    hread'.layLine (hst.of_begun_eq hst₀) hwidth hfunctions hbegins' hends'
  rw [hnext, hsame] at hbegun'
  rw [hoffset₀, ← hoffset] at hoffset'
  rw [hnext, hsame, hadd] at htext'
  refine ⟨st₁, l', by rw [hskip, hlay'], by rw [hskip]; exact hink _ _ hbegins, ?_, hoffset',
    by rw [htext']; exact hink _ _ hbegins', ?_⟩
  · rw [hoffset']
    exact congrArg (State.shift · l.offset) (hbegun'.trans hbegun.symm)
  · rw [htext', htext, ← hiff, List.append_cancel_left_eq]
    exact f.written_injective.eq_iff

end

/-! ## A run read again -/

theorem exists_append_of_forall₂ {α β : Type} {R : α → β → Prop} {xs ys : List α} {zs : List β}
    (h : List.Forall₂ R (xs ++ ys) zs) :
    ∃ us vs, zs = us ++ vs ∧ List.Forall₂ R xs us ∧ List.Forall₂ R ys vs := by
  induction xs generalizing zs with
  | nil => exact ⟨[], zs, rfl, .nil, h⟩
  | cons x xs ih =>
      obtain ⟨z, rest, hz, hrest, rfl⟩ := List.forall₂_cons_left_iff.1 h
      obtain ⟨us, vs, rfl, hus, hvs⟩ := ih hrest
      exact ⟨z :: us, vs, rfl, .cons hz hus, hvs⟩

theorem inkedLines_between {l : List Char} (h : l.all isBlank = false) (a b : Bool)
    (out : List (List Char)) :
    inkedLines (State.gap b ++ l :: (State.gap a ++ out)) = l :: inkedLines out := by
  have hgap : ∀ b, inkedLines (State.gap b) = [] := by decide
  rw [inkedLines_append, inkedLines_cons, inkedLines_append, hgap, hgap, inkedLines_singleton h]
  rfl

/-- A line with an empty line before it gets no other one. -/
theorem gapBefore_again (style : Style) {st st₀ : State} (blank : Bool) {l l' : Line}
    (hoffset : l'.offset = l.offset) (hrun : st₀.commentRun = st.commentRun) :
    let b := State.gapBefore style st blank l
    (b = true → blank = false) ∧ State.gapBefore style st₀ (blank || b) l' = false := by
  intro b
  have hb : b = (style.separate && decide (0 < l.offset) && !blank && st.commentRun == 0) := rfl
  rw [State.gapBefore, hoffset, hrun]
  cases blank with
  | true => simp [hb]
  | false =>
      cases hgap : b with
      | true => simp
      | false =>
          rw [hgap] at hb
          simpa using hb

/-- A line with the empty lines around it, read again: they are written as they were. -/
theorem layLines_framed_again {style : Style} {st st₀ st₂ st₃ : State} {blank : Bool} {l l' : Line}
    {q : List Char} {g g' out out' : List (List Char)} (hq : q.all isBlank = false)
    (hlay : st₀.layLine style q = (st₂, .ok l')) (hoffset : l'.offset = l.offset)
    (hrun : (st₂.shift l'.offset).commentRun = st.commentRun)
    (hg : List.Forall₂ Shifted (State.gap (State.gapBefore style st blank l)) g)
    (hg' : List.Forall₂ Shifted (State.gap (State.gapAfter style l)) g')
    (hout : (st₂.shift l'.offset).layLines style (State.gapAfter style l) out = (st₃, .ok out')) :
    st₀.layLines style blank (g ++ q :: (g' ++ out)) =
      (st₃, .ok (State.framed style st blank { l with text := l'.text } out')) := by
  have hafter : State.gapAfter style l' = State.gapAfter style l := by
    rw [State.gapAfter, State.gapAfter, hoffset]
  -- the empty line before the line has been read, so none is put in
  obtain ⟨hflag, hbefore⟩ := gapBefore_again style blank hoffset hrun
  rw [layLines_gapBefore hflag hg, State.layLines_cons_of_layLine hq hlay, hafter,
    layLines_gapAfter hg', hout]
  show (st₃, Except.ok (_ ++ State.framed style _ _ l' out')) = _
  rw [State.framed, hbefore, hafter]
  rfl

/-- The lines have a layout; and whatever spaces its lines are moved behind, from the same state it
is laid out again in the same lines, but for the texts of lines that are not steady. -/
def RunsAgain (style : Style) (st : State) (blank : Bool) (lines : List (List Char)) : Prop :=
  ∃ st₁ out, st.layLines style blank lines = (st₁, .ok out) ∧ (∀ p ∈ out, Shifted p p) ∧
    ∀ (st₀ : State) (out₀ : List (List Char)), st₀.begun = st.begun →
      List.Forall₂ Shifted out out₀ →
      ∃ st₂ out', st₀.layLines style blank out₀ = (st₂, .ok out') ∧
        ((∀ l ∈ lines, Steady l) → out' = out) ∧
        (inkedLines out' = inkedLines out → ∀ l ∈ lines, Steady l)

namespace RunsAgain

variable {style : Style} {st : State} {line : List Char} {lines : List (List Char)}

theorem nil (style : Style) (st : State) (blank : Bool) : RunsAgain style st blank [] := by
  refine ⟨st, [], rfl, fun p hp => absurd hp List.not_mem_nil, fun st₀ out₀ _ hshift => ?_⟩
  cases hshift
  exact ⟨st₀, [], rfl, fun _ => rfl, fun _ l hl => absurd hl List.not_mem_nil⟩

/-- A blank line is written as an empty one, if at all, and that one is read again. -/
theorem cons_of_blank (hblank : line.all isBlank = true) (blank : Bool)
    (h : RunsAgain style st true lines) : RunsAgain style st blank (line :: lines) := by
  obtain ⟨st₁, out, hout, hshape, hagain⟩ := h
  refine ⟨st₁, State.gap (!blank) ++ out, ?_, fun p hp => ?_, fun st₀ out₀ hst₀ hshift => ?_⟩
  · rw [State.layLines_cons_of_blank hblank, hout]
    rfl
  · exact (List.mem_append.1 hp).elim (shifted_of_mem_gap p) (hshape p)
  · obtain ⟨g, out₁, rfl, hg, hrest⟩ := exists_append_of_forall₂ hshift
    obtain ⟨st₂, out', hout', hsame, hsteady⟩ := hagain st₀ out₁ hst₀ hrest
    refine ⟨st₂, State.gap (!blank) ++ out', ?_, ?_, ?_⟩
    · have hflag : (blank || !blank) = true := by cases blank <;> rfl
      rw [layLines_gapBefore (by cases blank <;> simp) hg, hflag, hout']
      rfl
    · intro hall
      rw [hsame fun l hl => hall l (by simp [hl])]
    · intro hink l hl
      rcases List.mem_cons.1 hl with rfl | hl
      · exact steady_of_blank hblank
      · apply hsteady _ l hl
        have hgap : ∀ b, inkedLines (State.gap b) = [] := by decide
        simpa only [inkedLines_append, hgap, List.nil_append] using hink

/-- A line that can be read again is written with the empty lines around it, and all of them are
read again. -/
theorem cons_of_rereads (hwidth : style.width ≠ 0) (hfunctions : style.functions = .fixed 1)
    (hst : Calm st) (hblank : line.all isBlank = false) {f : Form} {text : List Char}
    (hreads : Rereads style.width st.nest line f text) (blank : Bool)
    (h : ∀ st', Calm st' → st'.nest = st.nest.after line →
      ∀ blank', RunsAgain style st' blank' lines) :
    RunsAgain style st blank (line :: lines) := by
  obtain ⟨st', l, hlay, hcalm, hnest, htext, hink, hstep⟩ :=
    layLine_again hwidth hfunctions hst hreads
  obtain ⟨st₁, out, hout, hshape, hagain⟩ := h _ hcalm hnest (State.gapAfter style l)
  refine ⟨st₁, State.framed style (st'.shift l.offset) blank l out, ?_, fun p hp => ?_,
    fun st₀ out₀ hst₀ hshift => ?_⟩
  · rw [State.layLines_cons_of_layLine hblank hlay, hout]
    rfl
  · rcases List.mem_append.1 hp with hp | hp
    · exact shifted_of_mem_gap p hp
    · rcases List.mem_cons.1 hp with rfl | hp
      · rw [htext]
        exact shifted_behind _ hreads.trimmed.1
      · exact (List.mem_append.1 hp).elim (shifted_of_mem_gap p) (hshape p)
  -- the lines read again are a gap, the line, a gap, and what the rest has written
  · obtain ⟨g, qs, rfl, hg, hqs⟩ := exists_append_of_forall₂ hshift
    obtain ⟨q, gs, hq, hgs, rfl⟩ := List.forall₂_cons_left_iff.1 hqs
    obtain ⟨g', out₁, rfl, hg', hrest⟩ := exists_append_of_forall₂ hgs
    obtain ⟨st₂, l', hlay', hq', hbegun, hoffset, hink', hiff⟩ := hstep st₀ q hst₀ hq
    obtain ⟨st₃, out', hout', hsame, hsteady⟩ := hagain (st₂.shift l'.offset) out₁ hbegun hrest
    have hrun : (st₂.shift l'.offset).commentRun = (st'.shift l.offset).commentRun := by
      have hsame := congrArg State.commentRun hbegun
      exact hsame
    refine ⟨st₃, _, layLines_framed_again hq' hlay' hoffset hrun hg hg' hout', ?_, ?_⟩
    · intro hall
      rw [State.framed, State.framed, hiff.2 (hall line (by simp)),
        hsame fun m hm => hall m (by simp [hm])]
      rfl
    · intro hsays
      rw [State.framed, State.framed, inkedLines_between hink', inkedLines_between hink] at hsays
      obtain ⟨hsaid, hlater⟩ := List.cons.inj hsays
      intro m hm
      rcases List.mem_cons.1 hm with rfl | hm
      · exact hiff.1 hsaid
      · exact hsteady hlater m hm

end RunsAgain

/-- **A run over what a run has written** writes the same lines again, but for the texts of lines
that are not steady. -/
theorem layLines_again {style : Style} (hwidth : style.width ≠ 0)
    (hfunctions : style.functions = .fixed 1) {lines : List (List Char)}
    (hfree : ∀ l ∈ lines, '\n' ∉ l) (st : State) (hlines : OrderlyFrom style.width st.nest lines)
    (hst : Calm st) (blank : Bool) : RunsAgain style st blank lines := by
  induction lines generalizing st blank with
  | nil => exact RunsAgain.nil style st blank
  | cons line rest ih =>
      have hrest : ∀ l ∈ rest, '\n' ∉ l := fun l hl => hfree l (by simp [hl])
      rw [OrderlyFrom] at hlines
      cases hblank : line.all isBlank with
      | true =>
          rw [if_pos hblank] at hlines
          exact (ih hrest st hlines hst true).cons_of_blank hblank blank
      | false =>
          rw [if_neg (by simp [hblank])] at hlines
          obtain ⟨f, text, hreads, -⟩ := hlines.1.reads (hfree line (by simp)) hblank
          refine RunsAgain.cons_of_rereads hwidth hfunctions hst hblank hreads blank
            fun st' hst' hnest blank' => ih hrest st' ?_ hst' blank'
          rw [hnest]
          exact hlines.2

/-! ## The ends of a layout -/

theorem exists_of_map_ok {α : Type} {a : State × Except Error α} {g : α → α} {st : State} {out : α}
    (h : (a.1, a.2.map g) = (st, .ok out)) : ∃ out', a = (st, .ok out') ∧ g out' = out := by
  obtain ⟨st', result⟩ := a
  cases result with
  | error e => cases h
  | ok out' =>
      cases h
      exact ⟨out', rfl, rfl⟩

namespace Runs

variable {style : Style} {st st₁ : State} {blank : Bool} {lines out : List (List Char)}

theorem blank_line {line : List Char} (hline : line.all isBlank = true) (blank : Bool) :
    Runs style st blank [line] st true (State.gap (!blank)) :=
  fun rest => State.layLines_cons_of_blank hline blank rest

/-- A layout can go on. -/
theorem of_layLines (h : st.layLines style blank lines = (st₁, .ok out)) :
    ∃ blank₁, Runs style st blank lines st₁ blank₁ out := by
  induction lines generalizing st blank out with
  | nil =>
      cases h
      exact ⟨blank, Runs.nil style _ blank⟩
  | cons line rest ih =>
      cases hblank : line.all isBlank with
      | true =>
          rw [State.layLines_cons_of_blank hblank] at h
          obtain ⟨out', hrest, rfl⟩ := exists_of_map_ok h
          obtain ⟨blank₁, hrun⟩ := ih hrest
          exact ⟨blank₁, (blank_line hblank blank).trans hrun⟩
      | false =>
          cases hline : st.layLine style line with
          | mk st' result =>
          cases result with
          | error e =>
              rw [State.layLines, if_neg (by simp [hblank])] at h
              simp only [hline] at h
              cases h
          | ok l =>
              rw [State.layLines_cons_of_layLine hblank hline] at h
              obtain ⟨out', hrest, rfl⟩ := exists_of_map_ok h
              obtain ⟨blank₁, hrun⟩ := ih hrest
              have hframed : State.framed style (st'.shift l.offset) blank l out' =
                  State.framed style (st'.shift l.offset) blank l [] ++ out' := by
                    simp [State.framed]
              rw [hframed]
              exact ⟨blank₁, (Runs.line hblank hline blank).trans hrun⟩

/-- Empty lines are read as such. -/
theorem empty (style : Style) {es : List (List Char)} (hes : ∀ e ∈ es, e = []) (st : State)
    (blank : Bool) :
    ∃ blank₁ out, Runs style st blank es st blank₁ out ∧ ∀ e ∈ out, e = [] := by
  have hgap : ∀ b : Bool, ∀ e ∈ State.gap b, e = [] := by decide
  induction es generalizing blank with
  | nil => exact ⟨blank, [], Runs.nil style st blank, fun e he => absurd he List.not_mem_nil⟩
  | cons e es ih =>
      obtain ⟨blank₁, out, hrun, hempty⟩ := ih (fun e he => hes e (by simp [he])) true
      have hblank : e.all isBlank = true := by rw [hes e (by simp)]; rfl
      refine ⟨blank₁, State.gap (!blank) ++ out, (blank_line hblank blank).trans hrun,
        fun e he => ?_⟩
      exact (List.mem_append.1 he).elim (hgap _ e) (hempty e)

end Runs

/-- Empty lines at the end of a document change nothing but empty lines at the end. -/
theorem layLines_append_empty {style : Style} {st st₁ : State} {blank : Bool}
    {lines out : List (List Char)} (h : st.layLines style blank lines = (st₁, .ok out))
    {es : List (List Char)} (hes : ∀ e ∈ es, e = []) :
    ∃ es', st.layLines style blank (lines ++ es) = (st₁, .ok (out ++ es')) ∧ ∀ e ∈ es', e = [] := by
  obtain ⟨blank₁, hrun⟩ := Runs.of_layLines h
  obtain ⟨blank₂, es', hempty, hes'⟩ := Runs.empty style hes st₁ blank₁
  exact ⟨es', (hrun.trans hempty).layLines_eq, hes'⟩

theorem Form.indent_next (f : Form) (m : Marks) {st : State} (hst : st.longLine = false)
    (width add : Int) :
    (f.next m st).indent width add = List.replicate ((st.level + add) * width).toNat ' ' := by
  have hnone : ∀ comment, (st.turned comment m).continued = false := fun comment => by
    simp [State.turned, hst]
  have hnext : (f.next m st).level = st.level ∧ (f.next m st).continued = false := by
    cases f with
    | opening kind keyword => cases kind <;> exact ⟨rfl, hnone false⟩
    | row bracket levels => cases bracket <;> exact ⟨rfl, hnone false⟩
    | comment => exact ⟨rfl, hnone true⟩
    | _ => exact ⟨rfl, hnone false⟩
  simp [State.indent, hnext.1, hnext.2]

/-- The first line that is written stands at the level at which the document begins. -/
theorem layLines_head {style : Style} (hwidth : style.width ≠ 0)
    (hfunctions : style.functions = .fixed 1) {lines : List (List Char)}
    (hfree : ∀ l ∈ lines, '\n' ∉ l)
    (hfirst : ∀ l ∈ (inkedLines lines).head?, ¬ Heads continuationWords (skipBlanks l)) (st : State)
    {st₁ : State} (hlines : OrderlyFrom style.width st.nest lines) (hst : Calm st)
    (hblocks : st.blocks = {}) (hnest : st.nest = {}) (hlong : st.longLine = false)
    {out : List (List Char)} (h : st.layLines style true lines = (st₁, .ok out)) :
    ∀ p ∈ out.head?, ∃ s, BeginsInk s ∧ p = behind (st.level * style.width).toNat s := by
  induction lines generalizing out with
  | nil =>
      cases h
      rintro p ⟨⟩
  | cons line rest ih =>
      rw [OrderlyFrom] at hlines
      cases hblank : line.all isBlank with
      | true =>
          have hinked : inkedLines (line :: rest) = inkedLines rest := by simp [inkedLines, hblank]
          rw [hinked] at hfirst
          rw [if_pos hblank] at hlines
          rw [State.layLines_cons_of_blank hblank] at h
          obtain ⟨out', hrest, rfl⟩ := exists_of_map_ok h
          exact ih (fun l hl => hfree l (by simp [hl])) hfirst hlines hrest
      | false =>
          rw [if_neg (by simp [hblank])] at hlines
          have hinked : (inkedLines (line :: rest)).head? = some line := by
            simp [inkedLines, hblank]
          obtain ⟨f, text, hreads, hadd⟩ := hlines.1.reads (hfree line (by simp)) hblank
          have hzero := hadd (hfirst line hinked) st hblocks hnest
          obtain ⟨st', l, hlay, -, -, htext, -⟩ := layLine_again hwidth hfunctions hst hreads
          rw [State.layLines_cons_of_layLine hblank hlay] at h
          obtain ⟨out', -, rfl⟩ := exists_of_map_ok h
          -- no empty line is put before it
          have hhead : (State.framed style (st'.shift l.offset) true l out').head? =
              some (trimEnd l.text) := by simp [State.framed, State.gapBefore, State.gap]
          rw [hhead]
          rintro p ⟨⟩
          refine ⟨f.written text, hreads.trimmed.1, ?_⟩
          rw [behind, htext, hzero, f.indent_next _ hlong, Int.add_zero]

/-! ## A layout laid out again -/

theorem exists_rdropWhile_append (out : List (List Char)) :
    ∃ es, out = out.rdropWhile List.isEmpty ++ es ∧ ∀ e ∈ es, e = [] := by
  refine ⟨(out.reverse.takeWhile List.isEmpty).reverse, ?_, fun e he => ?_⟩
  · rw [List.rdropWhile, ← List.reverse_append, List.takeWhile_append_dropWhile,
      List.reverse_reverse]
  · exact List.isEmpty_iff.1 (List.mem_takeWhile_imp (List.mem_reverse.1 he))

theorem rdropWhile_append_empty (out : List (List Char)) {es : List (List Char)}
    (hes : ∀ e ∈ es, e = []) :
    (out ++ es).rdropWhile List.isEmpty = out.rdropWhile List.isEmpty := by
  rw [List.rdropWhile, List.reverse_append, List.dropWhile_append_of_pos, List.rdropWhile]
  intro e he
  rw [hes e (List.mem_reverse.1 he)]
  rfl

/-- A text is laid out by a run over its lines, the first without the blanks that give the level. -/
theorem layText_eq_layLines {style : Style} (hstyle : style.Proper) {st st₁ : State}
    {source first : List Char} {rest out : List (List Char)}
    (hsource : splitLines source = first :: rest)
    (h : (st.entered style first).layLines style true (skipBlanks first :: rest) = (st₁, .ok out)) :
    st.layText style source 1 none =
      (st₁, .ok (['\n'].intercalate (out.rdropWhile List.isEmpty))) := by
  have hfree : BreakFree first := breakFree_of_mem_splitLines (by rw [hsource]; simp)
  rw [State.layText, selection_all, hsource]
  simp only [State.layDocument_of_layLines hstyle hfree h]
  rfl

/-- The level that the blanks of a line give at which the line stands. -/
theorem fdiv_behind {w : Nat} (hw : 0 < w) (n : Nat) {s : List Char} (hs : BeginsInk s) :
    let level : Int := Int.fdiv n w
    Int.fdiv ((behind (level * w).toNat s).takeWhile isBlank).length w = level := by
  intro level
  have hlevel : level = ((n / w : Nat) : Int) := by
    show Int.fdiv n w = _
    rw [Int.fdiv_eq_ediv_of_nonneg _ (by omega)]
    rfl
  rw [takeWhile_behind _ hs, hlevel, ← Int.natCast_mul, Int.toNat_natCast,
    Int.fdiv_eq_ediv_of_nonneg _ (by omega), Int.natCast_mul,
    Int.mul_ediv_cancel _ (by omega)]

section

variable {first : List Char} {rest : List (List Char)}

theorem orderly_document {width : Int} {nest : Nest} (h : OrderlyFrom width nest (first :: rest)) :
    OrderlyFrom width nest (skipBlanks first :: rest) := by
  have hall : (skipBlanks first).all isBlank = first.all isBlank :=
    (Respaced.skipBlanks first).all_isBlank_eq
  rw [OrderlyFrom] at h ⊢
  rw [hall]
  split at h
  · next hblank => rwa [if_pos hblank]
  · next hblank =>
      rw [if_neg hblank]
      refine ⟨h.1.skipBlanks, ?_⟩
      rw [h.1.after_skipBlanks]
      exact h.2

theorem head_document
    (h : ∀ l ∈ (inkedLines (first :: rest)).head?, ¬ Heads continuationWords (skipBlanks l)) :
    ∀ l ∈ (inkedLines (skipBlanks first :: rest)).head?,
      ¬ Heads continuationWords (skipBlanks l) := by
  have hall : (skipBlanks first).all isBlank = first.all isBlank :=
    (Respaced.skipBlanks first).all_isBlank_eq
  cases hblank : first.all isBlank with
  | true => simpa [inkedLines, hall, hblank] using h
  | false => simpa [inkedLines, hall, hblank, skipBlanks_skipBlanks] using h

theorem steady_document :
    (∀ l ∈ skipBlanks first :: rest, Steady l) ↔ ∀ l ∈ first :: rest, Steady l := by
  rw [List.forall_mem_cons, List.forall_mem_cons, steady_skipBlanks]

end

theorem layLines_breakFree {style : Style} (hproper : style.Proper) (st : State) (blank : Bool)
    {lines : List (List Char)} (hlines : ∀ l ∈ lines, BreakFree l) :
    ∃ st₁ out, st.layLines style blank lines = (st₁, .ok out) ∧ ∀ l ∈ out, BreakFree l := by
  obtain ⟨out, hout, -, hfree⟩ := State.layLines_ok hproper st blank hlines
  exact ⟨_, out, Prod.ext rfl hout, hfree⟩

/-- The text of a layout has the lines of the run that writes it, but for empty ones. -/
theorem inkedLines_layout {out : List (List Char)} (h : ∀ l ∈ out, BreakFree l) :
    inkedLines (splitLines (['\n'].intercalate (out.rdropWhile List.isEmpty))) =
      inkedLines out := by
  have hdrop : ∀ l ∈ out.rdropWhile List.isEmpty, BreakFree l := fun l hl =>
    h l ((List.rdropWhile_prefix List.isEmpty out).subset hl)
  rw [inkedLines_splitLines_intercalate hdrop]
  exact inkedLines_dropLastEmpty out

/-- A line that stands at the level at which the document begins gives that level. -/
theorem entered_behind {style : Style} {w : Nat} (hw : 0 < w) (hwidth : style.width = w)
    (first : List Char) {s : List Char} (hs : BeginsInk s) :
    let entered := ({} : State).entered style first
    ({} : State).entered style (behind (entered.level * style.width).toNat s) = entered := by
  intro entered
  have hlevel := fdiv_behind hw (first.takeWhile isBlank).length hs
  rw [← hwidth] at hlevel
  exact congrArg (fun level => { ({} : State) with level := level }) hlevel

/-- Where nothing is written, there is nothing to waver. -/
theorem steady_of_layLines_empty {style : Style} (hproper : style.Proper) {st st₁ : State}
    {blank : Bool} {lines out : List (List Char)} (hbreaks : ∀ l ∈ lines, BreakFree l)
    (hout : st.layLines style blank lines = (st₁, .ok out)) (hempty : ∀ e ∈ out, e = []) :
    ∀ l ∈ lines, Steady l := by
  obtain ⟨out', hout', hcode, -⟩ := State.layLines_ok hproper st blank hbreaks
  rw [hout] at hout'
  cases hout'
  have hnone : codeLines out = [] := by
    rw [codeLines_eq_nil_iff]
    intro l hl
    rw [hempty l hl]
    rfl
  rw [hcode, codeLines_eq_nil_iff] at hnone
  exact fun l hl => steady_of_blank (hnone l hl)

/-- The layout of a layout, by the runs that write them. -/
theorem layText_again {style : Style} (hproper : style.Proper)
    (hfunctions : style.functions = .fixed 1) {w : Nat} (hw : 0 < w) (hwidth : style.width = w)
    {first : List Char} {rest : List (List Char)}
    (hbreaks : ∀ l ∈ skipBlanks first :: rest, BreakFree l)
    (horderly : OrderlyFrom style.width {} (skipBlanks first :: rest))
    (hfirst : ∀ l ∈ (inkedLines (skipBlanks first :: rest)).head?,
      ¬ Heads continuationWords (skipBlanks l)) {st₁ : State} {out : List (List Char)}
    (hfree : ∀ l ∈ out, BreakFree l)
    (hout : (({} : State).entered style first).layLines style true (skipBlanks first :: rest) =
      (st₁, .ok out)) :
    ∃ out',
      (({} : State).layText style (['\n'].intercalate (out.rdropWhile List.isEmpty)) 1 none).2 =
        .ok (['\n'].intercalate (out'.rdropWhile List.isEmpty)) ∧ (∀ l ∈ out', BreakFree l) ∧
      ((∀ l ∈ skipBlanks first :: rest, Steady l) →
        out'.rdropWhile List.isEmpty = out.rdropWhile List.isEmpty) ∧
      (inkedLines out' = inkedLines out → ∀ l ∈ skipBlanks first :: rest, Steady l) := by
  have hnewlines : ∀ l ∈ skipBlanks first :: rest, '\n' ∉ l := fun l hl =>
    (hbreaks l hl).newline_not_mem
  have hcalm : Calm (({} : State).entered style first) := ⟨rfl, Nat.zero_le 2⟩
  obtain ⟨st₁', out₁, hout₁, hshape, hagain⟩ :=
    layLines_again hproper.width_ne hfunctions hnewlines (({} : State).entered style first)
      horderly hcalm true
  rw [hout] at hout₁
  cases hout₁
  obtain ⟨-, hlast⟩ := (State.layLines_laid hproper _ true hbreaks (by rw [hout])).dropLastEmpty
  change ∀ l ∈ (out.rdropWhile List.isEmpty).getLast?, l ≠ [] at hlast
  obtain ⟨es, hes, hempty⟩ := exists_rdropWhile_append out
  cases hdrop : out.rdropWhile List.isEmpty with
  | nil =>
      rw [hdrop, List.nil_append] at hes
      have hsteady := steady_of_layLines_empty hproper hbreaks hout (hes ▸ hempty)
      exact ⟨out, by rw [hdrop]; rfl, hfree, fun _ => hdrop, fun _ => hsteady⟩
  | cons first' rest' =>
      rw [hdrop] at hlast hes
      have hmem : ∀ l ∈ first' :: rest', BreakFree l := fun l hl =>
        hfree l (by rw [hes]; exact List.mem_append_left es hl)
      -- the level is that of the first layout again
      have hentered : ({} : State).entered style first' = ({} : State).entered style first := by
        obtain ⟨s, hs, rfl⟩ := layLines_head hproper.width_ne hfunctions hnewlines hfirst
          (({} : State).entered style first) horderly hcalm rfl rfl rfl hout first'
          (by rw [hes]; rfl)
        exact entered_behind hw hwidth first hs
      obtain ⟨_, out', hrun, hfree'⟩ :=
        layLines_breakFree hproper (({} : State).entered style first) true
          (breakFree_document hmem)
      obtain ⟨es', hrun', hempty'⟩ := layLines_append_empty hrun hempty
      have hshifted : List.Forall₂ Shifted out (skipBlanks first' :: rest' ++ es) := by
        nth_rw 1 [hes]
        refine .cons ⟨0, rfl⟩ (List.forall₂_same.2 fun p hp => hshape p ?_)
        rw [hes]
        exact List.mem_cons_of_mem first' hp
      obtain ⟨st₂, out₂, hout₂, hsame, hsteady⟩ := hagain _ _ rfl hshifted
      rw [hrun'] at hout₂
      cases hout₂
      refine ⟨out', ?_, hfree', fun hall => ?_, fun hink => hsteady ?_⟩
      · rw [layText_eq_layLines hproper (splitLines_intercalate hmem hlast)
          (by rw [hentered]; exact hrun)]
      · rw [← hdrop, ← hsame hall, rdropWhile_append_empty out' hempty']
      · have hes' : inkedLines es' = [] := inkedLines_eq_nil_of_forall_empty fun e he => by
          rw [hempty' e he]
          rfl
        rw [inkedLines_append, hink, hes', List.append_nil]

/-- **A layout is its own layout if and only if no sign in it wavers.** With a width of at least
one, with or without empty lines around blocks, and a level for the body of each function: if every
line of a text that is not blank is orderly, with the brackets open that the lines before it leave
open, and the first of them is no continuation, the text has a layout, and the layout of that is the
same text if and only if all lines are steady. -/
theorem layText_again_iff (w : Nat) (hw : 0 < w) (separate : Bool) (source : List Char)
    (hlines : OrderlyFrom w {} (splitLines source))
    (hfirst : ∀ l ∈ (inkedLines (splitLines source)).head?,
      ¬ Heads continuationWords (skipBlanks l)) :
    let style : Style := ⟨w, separate, .ofInt 1⟩
    ∃ out, (({} : State).layText style source 1 none).2 = .ok out ∧
      ((({} : State).layText style out 1 none).2 = .ok out ↔
        ∀ l ∈ splitLines source, Steady l) := by
  intro style
  have hproper : style.Proper := Style.proper_ofInt (by omega) separate 1
  cases hsource : splitLines source with
  | nil =>
      refine ⟨[], ?_, iff_of_true rfl (by simp)⟩
      rw [State.layText, selection_all, hsource]
  | cons first rest =>
      rw [hsource] at hlines hfirst
      have hbreaks : ∀ l ∈ skipBlanks first :: rest, BreakFree l :=
        breakFree_document fun l hl => breakFree_of_mem_splitLines (by rw [hsource]; exact hl)
      obtain ⟨_, out, hrun, hfree⟩ := layLines_breakFree hproper (({} : State).entered style first)
        true hbreaks
      obtain ⟨out', hout', hfree', hsame, hsteady⟩ := layText_again hproper rfl hw rfl hbreaks
        (orderly_document hlines) (head_document hfirst) hfree hrun
      refine ⟨_, by rw [layText_eq_layLines hproper hsource hrun], ?_⟩
      rw [← steady_document, hout']
      constructor
      · intro htext
        apply hsteady
        rw [← inkedLines_layout hfree', Except.ok.inj htext, inkedLines_layout hfree]
      · intro hall
        rw [hsame hall]

/-- A document with a line of each form, whose signs stand. -/
def steadySource : List Char :=
  ["  % area", "function [r,k]=f(x)   % of [x", "if x>-1", "", "", "[r,k] = g([x -1],\x7b2\x7d);",
    "disp( [ 'a  %',\"b]\" ],1 ) ;% no [ brackets ...", "m=[1,2", "x+1 , y];", "n = \x7b'one' ,...",
    "'two'\x7d ;", "s = r+k ... % goes on", "*2;", "switch 'x'", "case \x7b'y','z'\x7d", "end;",
    "else % or  else", "clear x y", "end   % if", "end"].flatMap fun line => line.toList ++ ['\n']

/-- A steady document, and one whose sign wavers. -/
theorem layText_again_iff_documents :
    (∃ out, (({} : State).layText ⟨2, true, .ofInt 1⟩ steadySource 1 none).2 = .ok out ∧
      (({} : State).layText ⟨2, true, .ofInt 1⟩ out 1 none).2 = .ok out) ∧
    ∃ out, (({} : State).layText ⟨4, false, .ofInt 1⟩ "y = x ^ -1".toList 1 none).2 = .ok out ∧
      (({} : State).layText ⟨4, false, .ofInt 1⟩ out 1 none).2 ≠ .ok out := by
  obtain ⟨out, hout, hsteady⟩ :=
    layText_again_iff 2 (by decide) true steadySource (by decide +kernel) (by decide +kernel)
  obtain ⟨out', hout', hwavers⟩ := layText_again_iff 4 (by decide) false "y = x ^ -1".toList
    (by decide +kernel) (by decide +kernel)
  refine ⟨⟨out, hout, hsteady.2 (by decide +kernel)⟩, out', hout', fun hagain => ?_⟩
  exact absurd (hwavers.1 hagain) (by decide +kernel)

set_option maxRecDepth 4000 in
/-- **A layout that is not its own layout.** The sign of a number is drawn to a power, and set apart
from the number after that. -/
theorem layText_parts_sign :
    (({} : State).layText ⟨4, false, .ofInt 1⟩ "y = x ^ -1".toList 1 none).2 =
        .ok "y = x^-1".toList ∧
      (({} : State).layText ⟨4, false, .ofInt 1⟩ "y = x^-1".toList 1 none).2 =
        .ok "y = x^ - 1".toList := by
  cbv

end Pcode.Indent
