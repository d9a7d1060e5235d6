import Pcode.Text.Blank
import Pcode.Text.Line

set_option autoImplicit false

/-! # Cuts

A cut divides a text in three. The middle is final; the two sides are divided further.
Spacing is put in order by the blanks that a cut adds beside its middle and by the blanks
that it leaves out.

A *rule* finds a cut: a *lead* that is empty or ends in a character of a given class, and
right of the lead what a *probe* recognises. The longest lead wins, unless the probe
recognises the whole text.

Main statement: a cut found by a rule whose probe takes something other than a blank has
sides with fewer characters that are not blank (`Rule.cut?_ink`). -/

namespace Pcode.Spacing

open Pcode.Text

/-- A text divided in three; `isComment` says that the middle is a comment. -/
structure Cut where
  left : List Char
  mid : List Char
  right : List Char
  isComment : Bool
deriving Repr, DecidableEq

/-- What a probe recognises right of a lead: `head` is kept with the lead. -/
structure Found where
  head : List Char
  mid : List Char
  right : List Char
deriving Repr, DecidableEq

/-- A recogniser for the text right of a lead. -/
abbrev Probe := List Char → Option Found

/-- The longest lead that ends in a character of the class `ends`, lies in the first line
but for its last character, and has right of it what `probe` recognises. -/
def lastSplit {β : Type} (ends : Char → Bool) (probe : List Char → Option β) :
    List Char → Option (List Char × β)
  | [] => none
  | c :: s =>
      match (if c = '\n' then none else lastSplit ends probe s) with
      | some (lead, f) => some (c :: lead, f)
      | none => if ends c then (probe s).map (([c], ·)) else none

/-- The lead and what is found right of it belong to the text. -/
theorem lastSplit_eq_some {β : Type} {ends : Char → Bool} {probe : List Char → Option β}
    {s lead : List Char} {f : β} (h : lastSplit ends probe s = some (lead, f)) :
    ∃ t, s = lead ++ t ∧ probe t = some f := by
  induction s generalizing lead with
  | nil => simp [lastSplit] at h
  | cons c s ih =>
      rw [lastSplit] at h
      split at h
      · next l g hrec =>
          cases h
          split at hrec
          · cases hrec
          · obtain ⟨t, rfl, ht⟩ := ih hrec
            exact ⟨t, rfl, ht⟩
      · next =>
          split at h
          · obtain ⟨g, hg, hpair⟩ := Option.map_eq_some_iff.1 h
            cases hpair
            exact ⟨s, rfl, hg⟩
          · cases h

/-- A rule: whether the lead may be empty, the class of its last character otherwise, what
stands right of it, and on which sides of the middle a blank is added. -/
structure Rule where
  emptyLead : Bool
  ends : Char → Bool
  probe : Probe
  padLeft : Bool
  padRight : Bool

namespace Rule

/-- The lead and what is found right of it: the empty lead first, then the longest one. -/
def split? (r : Rule) (s : List Char) : Option (List Char × Found) :=
  match (if r.emptyLead then r.probe s else none) with
  | some f => some ([], f)
  | none => lastSplit r.ends r.probe s

/-- The cut that a rule makes in a text. -/
def cut? (r : Rule) (s : List Char) : Option Cut :=
  match r.split? s with
  | some (lead, f) =>
      some {
        left := lead ++ f.head ++ (if r.padLeft then [' '] else [])
        mid := f.mid
        right := (if r.padRight then [' '] else []) ++ f.right
        isComment := false }
  | none => none

theorem split?_eq_some {r : Rule} {s lead : List Char} {f : Found}
    (h : r.split? s = some (lead, f)) : ∃ t, s = lead ++ t ∧ r.probe t = some f := by
  rw [split?] at h
  split at h
  · next g hg =>
      cases h
      split at hg
      · exact ⟨s, rfl, hg⟩
      · cases hg
  · exact lastSplit_eq_some h

/-- A cut by a rule comes from what the probe finds right of the lead. -/
theorem cut?_eq_some {r : Rule} {s : List Char} {c : Cut} (h : r.cut? s = some c) :
    ∃ lead t f, r.split? s = some (lead, f) ∧ s = lead ++ t ∧ r.probe t = some f ∧
      c = ⟨lead ++ f.head ++ (if r.padLeft then [' '] else []), f.mid,
        (if r.padRight then [' '] else []) ++ f.right, false⟩ := by
  rw [Rule.cut?] at h
  split at h
  · next lead f hsplit =>
      obtain ⟨t, ht, hprobe⟩ := split?_eq_some hsplit
      exact ⟨lead, t, f, hsplit, ht, hprobe, (Option.some.inj h).symm⟩
  · cases h

end Rule

/-- A probe takes ink: its middle has a character that is not blank, and what it returns
has no more such characters than the text. -/
def Probe.TakesInk (p : Probe) : Prop :=
  ∀ t f, p t = some f →
    0 < inkCount f.mid ∧ inkCount f.head + inkCount f.mid + inkCount f.right ≤ inkCount t

/-- What a probe returns stands in the text, part after part. -/
def Probe.InOrder (p : Probe) : Prop :=
  ∀ t f, p t = some f → (f.head ++ f.mid ++ f.right).Sublist t

theorem Probe.InOrder.takesInk {p : Probe} (h : p.InOrder)
    (hmid : ∀ t f, p t = some f → 0 < inkCount f.mid) : p.TakesInk := by
  intro t f hf
  have hle := inkCount_le_of_sublist (h t f hf)
  rw [inkCount_append, inkCount_append] at hle
  exact ⟨hmid t f hf, hle⟩

/-- The cut of a rule whose probe takes ink leaves less ink on each side. -/
theorem Rule.cut?_ink {r : Rule} (hr : Probe.TakesInk r.probe) {s : List Char} {c : Cut}
    (h : r.cut? s = some c) : inkCount c.left < inkCount s ∧ inkCount c.right < inkCount s := by
  obtain ⟨lead, t, f, -, rfl, ht, rfl⟩ := Rule.cut?_eq_some h
  obtain ⟨hpos, hle⟩ := hr t f ht
  have hpad : ∀ b : Bool, inkCount (if b then [' '] else []) = 0 := by decide
  simp only [inkCount_append, hpad]
  omega

end Pcode.Spacing
