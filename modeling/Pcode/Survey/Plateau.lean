set_option autoImplicit false

/-! # When to stop

A survey is repeated until a count that should fall has reached zero, or has not fallen for some
rounds. The running best is kept with the number of rounds since it was first reached; a tie is
no improvement. -/

namespace Pcode.Survey

/-- The lowest count so far, and the number of rounds since it was first reached. -/
structure Best where
  count : Int
  since : Nat
deriving Repr, DecidableEq

/-- The best after one more round. -/
def Best.next (b : Best) (count : Int) : Best :=
  if count < b.count then ⟨count, 0⟩ else ⟨b.count, b.since + 1⟩

/-- The best of some counts, the first one given apart. -/
def Best.of (first : Int) (counts : List Int) : Best := counts.foldl Best.next ⟨first, 0⟩

/-- The best of the counts of earlier rounds and the current one. -/
def bestOf (history : List Int) (current : Int) : Best :=
  match history with
  | [] => ⟨current, 0⟩
  | first :: counts => Best.of first (counts ++ [current])

/-- The number of rounds without improvement that end a survey. -/
def patience : Nat := 3

/-- Why a survey can end. -/
inductive Ending where
  | nothingLeft
  | noImprovement (best : Best)
deriving Repr, DecidableEq

/-- Whether a survey can end after the current round. -/
def ending? (history : List Int) (current : Int) : Option Ending :=
  if current == 0 then some .nothingLeft
  else
    let best := bestOf history current
    if patience ≤ best.since then some (.noImprovement best) else none

def Ending.message : Ending → String
  | nothingLeft => "repo_time converged (0 below)"
  | noImprovement best =>
      let rounds := best.since
      let count := best.count
      s!"repo_time converged (no improvement in {rounds} rounds; best {count} below)"

end Pcode.Survey
