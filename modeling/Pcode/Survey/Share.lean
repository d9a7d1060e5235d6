import Pcode.Survey.Runner
import Pcode.Text.Pad

set_option autoImplicit false

/-! # Shares of time

The share of its time that a bench spends in the program under survey, in percent. A share below
zero is that of a bench that failed. -/

namespace Pcode.Survey

open Pcode.Data
open Pcode.Text

/-- The share that is aimed at. -/
def targetShare : Float := 50

/-- Shares below this one are marked. -/
def leastShare : Float := 45

/-- The share of a bench, and where else its time goes. -/
structure Share where
  bench : String
  percent : Float
  /-- names of other modules with their shares -/
  elsewhere : List (String × Float) := []

namespace Share

def isKnown (s : Share) : Bool := s.percent >= 0

def isLow (s : Share) : Bool := s.isKnown && s.percent < leastShare

/-- The shares in the data of a runner. -/
def ofData (v : Value) : Except RunnerFault (List Share) := do
  let shares ← recordIn v "repo_time_pct"
  let elsewhere ← recordIn v "hot_ext"
  shares.mapM fun (bench, share) => do
    let percent ← number share
    let modules := (((elsewhere.lookup bench).getD .null).items).filterMap fun entry =>
      match entry.items with
      | [share, .text name] =>
          match number share with
          | .ok percent => some (name, percent)
          | .error _ => none
      | _ => none
    return { bench, percent, elsewhere := modules }

def text (s : Share) : String :=
  let shown := if s.isKnown then s.percent else 0
  let note :=
    if !s.isKnown then "  <error>"
    else if s.isLow && !s.elsewhere.isEmpty then
      let parts := s.elsewhere.map fun (name, percent) =>
        name ++ " " ++ Decimal.fixed 0 percent ++ "%"
      " (hot: " ++ " ".intercalate parts ++ ")"
    else ""
  (if s.isLow then "  * " else "    ") ++ padEnd 32 s.bench ++ " " ++
    padStart 5 (Decimal.fixed 1 shown) ++ "%" ++ note

end Share

/-- The number of low shares; `none` if no share is known. -/
def lowCount? (shares : List Share) : Option Nat :=
  if shares.any Share.isKnown then some (shares.filter Share.isLow).length else none

/-- The lines about some shares, the lowest first. -/
def shareLines (shares : List Share) : List String :=
  if shares.isEmpty then []
  else
    let target := Decimal.fixed 0 targetShare
    let least := Decimal.fixed 0 leastShare
    ["", s!"repo_time (target {target}%; * = below {least}%):"] ++
      (shares.mergeSort fun a b => a.percent <= b.percent).map Share.text

end Pcode.Survey
