set_option autoImplicit false

/-! # Sets of code points given by their bounds

A set of code points is written as the increasing array of the points where membership
changes: the first entry is the least member, the second the least non-member above it, and
so on. A point belongs to the set exactly when an odd number of bounds lies at or below it. -/

namespace Pcode.Text

/-- How many entries of the increasing array `bounds` from `lo` up to `hi` are at most `n`,
added to `lo`: halving the interval finds the first entry above `n`. -/
def rank (bounds : Array Nat) (n lo hi : Nat) : Nat :=
  if h : lo < hi then
    let mid := (lo + hi) / 2
    if bounds.getD mid 0 ≤ n then rank bounds n (mid + 1) hi else rank bounds n lo mid
  else lo
termination_by hi - lo
decreasing_by all_goals omega

/-- Membership in the set with the given bounds. -/
def inRanges (bounds : Array Nat) (n : Nat) : Bool :=
  rank bounds n 0 bounds.size % 2 == 1

end Pcode.Text
