import Pcode.Indent.Statement
import Pcode.Proofs.Spacing.Respaced

set_option autoImplicit false

/-! # The parts of a statement make up its line

A line is recognised by a keyword and taken apart: keyword, expression, closing word, rest.
Main statement: on a line without a line end the parts, in order, are the line but for
blanks (`Statement.respaced_parts`). -/

namespace Pcode.Indent

open Pcode.Text
open Pcode.Spacing (lastSplit lastSplit_eq_some takeWhile_append_firstLine)

/-! ## Words -/

theorem after?_eq_some {w s r : List Char} (h : after? w s = some r) : s = w ++ r := by
  fun_induction after? w s with
  | case1 s => cases h; rfl
  | case2 d w s ih => rw [ih h, List.cons_append]
  | case3 c w d s hcd => cases h
  | case4 c w => cases h

theorem word?_eq_some {β : Type} {words : List String} {tail? : List Char → Option β}
    {s w : List Char} {t : β} (h : word? words tail? s = some (w, t)) :
    ∃ r, s = w ++ r ∧ tail? r = some t := by
  obtain ⟨word, -, hword⟩ := List.exists_of_findSome?_eq_some h
  obtain ⟨r, hafter, htail⟩ := Option.bind_eq_some_iff.1 hword
  obtain ⟨u, hu, hpair⟩ := Option.map_eq_some_iff.1 htail
  cases hpair
  exact ⟨r, after?_eq_some hafter, hu⟩

/-! ## Tails -/

theorem respaced_expressionTail? {s t : List Char} (hs : '\n' ∉ s)
    (h : expressionTail? s = some t) : Respaced s t := by
  rw [expressionTail?] at h
  split at h
  · next hnil =>
      cases h
      exact Respaced.of_skipBlanks hnil
  · next c u hcons =>
      have hcu : Respaced s (c :: u) := Respaced.of_skipBlanks hcons
      have hu : '\n' ∉ u := fun hmem => hcu.newline_not_mem hs (List.mem_cons_of_mem c hmem)
      split at h
      · cases h
        rw [takeWhile_append_firstLine hu]
        exact hcu
      · split at h
        · next b hlast =>
            cases h
            -- the last blank before the text is kept in front of it
            have hb : b ∈ s.takeWhile isBlank := List.mem_of_getLast? hlast
            rw [firstLine_of_not_mem hu]
            refine ⟨?_, fun x hx => ?_⟩
            · rw [ink_cons_of_isBlank (List.mem_takeWhile_imp hb), hcu.ink_eq]
            · rcases List.mem_cons.1 hx with rfl | hx
              · exact Or.inl ((List.takeWhile_sublist isBlank).mem hb)
              · exact hcu.mem x hx
        · cases h

theorem closingTail?_eq {s t : List Char} (hs : '\n' ∉ s) (h : closingTail? s = some t) :
    t = s := by
  rw [closingTail?] at h
  split at h
  · cases h; rfl
  · next c u hcons =>
      split at h
      · cases h
      · cases h
        rw [← hcons]
        exact takeWhile_append_firstLine hs

theorem closing?_append {words : List String} {s close tail : List Char} (hs : '\n' ∉ s)
    (h : closing? words s = some (close, tail)) : s = close ++ tail := by
  obtain ⟨word, -, hword⟩ := List.exists_of_findSome?_eq_some h
  obtain ⟨r, hafter, htail⟩ := Option.bind_eq_some_iff.1 hword
  have hsr := after?_eq_some hafter
  have hr : '\n' ∉ r := fun hmem => hs (by rw [hsr]; exact List.mem_append_right _ hmem)
  split at htail
  · next t =>
      obtain ⟨u, hu, hpair⟩ := Option.map_eq_some_iff.1 htail
      cases hpair
      rw [hsr, closingTail?_eq (fun hmem => hr (List.mem_cons_of_mem _ hmem)) hu,
        List.append_assoc]
      rfl
  · obtain ⟨u, hu, hpair⟩ := Option.map_eq_some_iff.1 htail
    cases hpair
    rw [hsr, closingTail?_eq hr hu]

theorem shortBody?_append {s body close tail : List Char} (hs : '\n' ∉ s)
    (h : shortBody? s = some (body, close, tail)) : s = body ++ (close ++ tail) := by
  rw [shortBody?.eq_def] at h
  split at h
  · cases h
  · next b t =>
      split at h
      · cases h
      · split at h
        · cases h
        · next c u hcons =>
            obtain ⟨⟨lead, found⟩, hsplit, hpair⟩ := Option.map_eq_some_iff.1 h
            cases hpair
            -- the closing word is the last one of the line, so it begins the rest `v`
            obtain ⟨v, rfl, hclose⟩ := lastSplit_eq_some hsplit
            have ht : t.takeWhile isBlank ++ c :: (lead ++ v) = t := by
              rw [← hcons, List.takeWhile_append_dropWhile]
            have hv : '\n' ∉ v := fun hmem => hs (by rw [← ht]; simp [hmem])
            calc b :: t
                = b :: (t.takeWhile isBlank ++ c :: (lead ++ v)) := by rw [ht]
              _ = b :: (t.takeWhile isBlank ++ c :: lead) ++ v := by simp
              _ = b :: (t.takeWhile isBlank ++ c :: lead) ++ (found.1 ++ found.2) := by
                  rw [← closing?_append hv hclose]

/-! ## Statements -/

/-- The parts of a statement in order; plain code is the whole line. -/
def Statement.parts (line : List Char) : Statement → List Char
  | .short keyword body close tail => keyword ++ body ++ close ++ tail
  | .functionStart keyword tail => keyword ++ tail
  | .blockStart keyword tail => keyword ++ tail
  | .switchStart keyword tail => keyword ++ tail
  | .continuation keyword tail => keyword ++ tail
  | .blockEnd close tail => close ++ tail
  | .plain => line

theorem respaced_keyword {words : List String} {s w t : List Char} (hs : '\n' ∉ s)
    (h : word? words expressionTail? s = some (w, t)) : Respaced s (w ++ t) := by
  obtain ⟨r, rfl, htail⟩ := word?_eq_some h
  have hr : '\n' ∉ r := fun hmem => hs (List.mem_append_right w hmem)
  exact (Respaced.refl w).append (respaced_expressionTail? hr htail)

/-- **Taking a statement apart** loses and adds blanks only. -/
theorem Statement.respaced_parts {line : List Char} (hline : '\n' ∉ line) :
    Respaced line ((Statement.ofLine line).parts line) := by
  have hskip := Respaced.skipBlanks line
  have hs : '\n' ∉ skipBlanks line := hskip.newline_not_mem hline
  simp only [Statement.ofLine]
  -- the kinds in the order in which they are tried
  split
  · next w body close tail hword =>
      obtain ⟨r, hr, hbody⟩ := word?_eq_some hword
      have hrest : '\n' ∉ r := fun hmem => hs (by rw [hr]; exact List.mem_append_right w hmem)
      rw [hr, shortBody?_append hrest hbody] at hskip
      simpa only [Statement.parts, List.append_assoc] using hskip
  split
  · next hword => exact hskip.trans (respaced_keyword hs hword)
  split
  · next hword => exact hskip.trans (respaced_keyword hs hword)
  split
  · next hword => exact hskip.trans (respaced_keyword hs hword)
  split
  · next hword => exact hskip.trans (respaced_keyword hs hword)
  split
  · next close tail hclose =>
      rw [closing?_append hs hclose] at hskip
      exact hskip
  · exact Respaced.refl line

/-! ## Block comments -/

/-- A line is a mark and blanks if it is the mark without them. -/
theorem skipBlanks_eq_mark_iff {line : List Char} {c d : Char} (hc : isBlank c = false)
    (hd : isBlank d = false) :
    (∃ r, skipBlanks line = c :: d :: r ∧ r.all isBlank = true) ↔ trim line = [c, d] := by
  rw [trim]
  constructor
  · rintro ⟨r, hr, hblank⟩
    rw [hr, trimEnd_cons_of_ink hc, trimEnd_cons_of_ink hd, (trimEnd_eq_nil_iff r).2 hblank]
  · intro h
    obtain ⟨b, hb, hblank⟩ := exists_trimEnd_append (skipBlanks line)
    rw [h] at hb
    exact ⟨b, hb, hblank⟩

theorem opensComment_iff {line : List Char} :
    opensComment line = true ↔ trim line = ['%', '{'] := by
  rw [← skipBlanks_eq_mark_iff (by decide) (by decide), opensComment]
  constructor
  · intro h
    split at h
    · next r hr => exact ⟨r, hr, h⟩
    · cases h
  · rintro ⟨r, hr, hblank⟩
    rw [hr]
    exact hblank

theorem closesComment_iff {line : List Char} :
    closesComment line = true ↔ trim line = ['%', '}'] := by
  rw [← skipBlanks_eq_mark_iff (by decide) (by decide), closesComment]
  constructor
  · intro h
    split at h
    · next r hr => exact ⟨r, hr, h⟩
    · cases h
  · rintro ⟨r, hr, hblank⟩
    rw [hr]
    exact hblank

end Pcode.Indent
