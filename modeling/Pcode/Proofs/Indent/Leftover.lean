import Mathlib
import Pcode.Proofs.Indent.Blocks

set_option autoImplicit false

/-! # Functions left open before a text

Functions that were left open lie below all blocks that a text opens. As long as every closing
word of the text closes a block of its own, they are not reached: a move does the same with them
and without (`Blocks.move_above`), hence so does a list of moves (`Blocks.follow_above`).

Main statement: the layout of a text that closes no more than it opens is the same, whatever
functions were left open, and these are still open after it (`layText_above_leftover`). -/

namespace Pcode.Indent

namespace Blocks

/-- The blocks with further functions open below them. -/
def above (b : Blocks) (leftover : List Int) : Blocks :=
  { b with functions := b.functions ++ leftover }

/-- A move that closes no more than is open does not reach what lies below. -/
theorem move_above {b : Blocks} {m : Move} (hexcess : (b.move m).excess = 0)
    (leftover : List Int) :
    ((b.above leftover).move m).blocks = (b.move m).blocks.above leftover ∧
      ((b.above leftover).move m).step = (b.move m).step ∧
      ((b.above leftover).move m).excess = 0 := by
  obtain ⟨control, functions⟩ := b
  cases m with
  | keep => exact ⟨rfl, rfl, rfl⟩
  | control step => exact ⟨rfl, rfl, rfl⟩
  | function => exact ⟨rfl, rfl, rfl⟩
  | close =>
      -- control blocks go first, whatever functions there are
      cases control with
      | cons step rest => exact ⟨rfl, rfl, rfl⟩
      | nil =>
          cases functions with
          | cons step rest => exact ⟨rfl, rfl, rfl⟩
          | nil => cases hexcess

/-- Moves without a closing word in excess do not reach what lies below. -/
theorem follow_above {b : Blocks} {ms : List Move} (hexcess : (b.follow ms).2.2 = 0)
    (leftover : List Int) :
    (b.above leftover).follow ms = ((b.follow ms).1.above leftover, (b.follow ms).2.1, 0) := by
  induction ms generalizing b with
  | nil => rfl
  | cons m ms ih =>
      obtain ⟨hnow, hlater⟩ := Nat.add_eq_zero_iff.1 hexcess
      obtain ⟨hblocks, hstep, hnone⟩ := move_above hnow leftover
      simp only [follow, hblocks, hstep, hnone, ih hlater, Nat.add_zero]

end Blocks

/-- **Functions left open do not show.** Let a text be laid out from the start with no block open,
by a style in which the bodies of all functions are indented alike, and let no closing word be
in excess. Then with any functions left open before it, the same text comes out, no closing word is
in excess, and the same blocks are left open, above those that were. -/
theorem layText_above_leftover (width : Int) (hwidth : 1 ≤ width) (separate : Bool) (mode : Int)
    (hmode : mode ≠ -1) (source : List Char) (start : Int) (stop : Option Int)
    (leftover : List Int)
    (hquiet : (({} : State).layText ⟨width, separate, .ofInt mode⟩ source start stop).1.excessEnds =
      0) :
    let clean := ({} : State).layText ⟨width, separate, .ofInt mode⟩ source start stop
    let later := ({ blocks := { functions := leftover } } : State).layText
      ⟨width, separate, .ofInt mode⟩ source start stop
    (∃ text, clean.2 = .ok text ∧ later.2 = .ok text) ∧ later.1.excessEnds = 0 ∧
      later.1.blocks.control = clean.1.blocks.control ∧
      later.1.blocks.functions = clean.1.blocks.functions ++ leftover := by
  intro clean later
  have hfixed : FunctionIndent.ofInt mode = .fixed mode := if_neg hmode
  have hproper : Style.Proper ⟨width, separate, .ofInt mode⟩ :=
    Style.proper_ofInt (by omega) separate mode
  obtain ⟨render, hrender⟩ := State.layText_steered hfixed hproper.width_ne {} source start stop
  obtain ⟨htext, hblocks, hexcess⟩ := hrender 0 {} 0
  obtain ⟨htext', hblocks', hexcess'⟩ := hrender 0 { functions := leftover } 0
  -- both layouts follow the same moves, of which none reaches the functions left open
  have hnone := hexcess.symm.trans hquiet
  rw [Nat.zero_add] at hnone
  have hfollow := Blocks.follow_above hnone leftover
  change Blocks.follow { functions := leftover } _ = _ at hfollow
  rw [hfollow] at htext' hblocks' hexcess'
  obtain ⟨out, hout, -⟩ := State.layText_ok hproper {} source start stop
  have hclean : clean.1.blocks = _ := hblocks
  have hlater : later.1.blocks = _ := hblocks'
  refine ⟨⟨_, hout, htext'.trans (htext.symm.trans hout)⟩, hexcess', ?_, ?_⟩
  · rw [hlater, hclean]
    rfl
  · rw [hlater, hclean]
    rfl

/-- A function that is not closed after one that is, above two functions left open. -/
def unclosedSource : List Char := "function f\nif x\nend\nend\nfunction g\ny".toList

set_option maxRecDepth 4000 in
theorem layText_above_leftover_sample :
    (({} : State).layText ⟨2, true, .ofInt 1⟩ unclosedSource 1 none).1.excessEnds = 0 ∧
      (({} : State).layText ⟨2, true, .ofInt 1⟩ unclosedSource 1 none).1.blocks.functions = [1] ∧
      (({ blocks := { functions := [1, 1] } } : State).layText ⟨2, true, .ofInt 1⟩ unclosedSource 1
        none).1.blocks.functions = [1, 1, 1] := by
  -- one evaluation for both, since the run is what takes time
  have hclean : (fun st : State => (st.excessEnds, st.blocks.functions))
      (({} : State).layText ⟨2, true, .ofInt 1⟩ unclosedSource 1 none).1 = (0, [1]) := by cbv
  obtain ⟨hquiet, hopen⟩ := Prod.mk.inj hclean
  obtain ⟨-, -, -, hfunctions⟩ := layText_above_leftover 2 (by decide) true 1 (by decide)
    unclosedSource 1 none [1, 1] hquiet
  exact ⟨hquiet, hopen, by rw [hfunctions, hopen]; rfl⟩

end Pcode.Indent
