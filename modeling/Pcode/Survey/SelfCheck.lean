import Pcode.Data.Write
import Pcode.Survey.Runner
import Pcode.Text.Pad

set_option autoImplicit false

/-! # Self-checks

Whether what a bench returns depends on the work that is measured: it returns something, the
same each time, that is not one of its parameters but changes with them, and most of its time is
spent in the program under survey. -/

namespace Pcode.Survey

open Pcode.Data
open Pcode.Text

/-- What is known of a bench. -/
structure Check where
  bench : String
  /-- the type of its results; in angle brackets what it raised -/
  resultType : String
  /-- fingerprints of its results with the same parameters -/
  repeated : List String
  /-- fingerprints of its results by its parameters -/
  byParameter : List String
  /-- fingerprints of its parameters -/
  parameters : List String
  /-- shares of its time in the program under survey -/
  shares : List Float
  /-- milliseconds in the program under survey -/
  times : List Float

inductive Verdict where
  | ok
  | unparametrised
  | error
  | returnsNone
  | unstable
  | returnsInput
  | lowShare
  | tooFast
  | invariant
  | modified
deriving Repr, DecidableEq

namespace Verdict

def text : Verdict → String
  | ok => "ok"
  | unparametrised => "ok-unparam"
  | error => "error"
  | returnsNone => "returns-none"
  | unstable => "unstable"
  | returnsInput => "returns-input"
  | lowShare => "low-repo-time"
  | tooFast => "too-fast"
  | invariant => "param-invariant"
  | modified => "repo-modified"

def isGood : Verdict → Bool
  | ok | unparametrised => true
  | _ => false

end Verdict

/-- The middle of some numbers: the mean of the two middle ones if their number is even, and
zero if there are none. -/
def median (xs : List Float) : Float :=
  let sorted := xs.mergeSort fun a b => a <= b
  let half := sorted.length / 2
  if sorted.length % 2 == 1 then sorted.getD half 0
  else if sorted.isEmpty then 0
  else (sorted.getD (half - 1) 0 + sorted.getD half 0) / 2

namespace Check

/-- What the data of a runner says of a bench; `none` if it is no record. -/
def ofData (bench : String) (row : Value) : Except RunnerFault (Option Check) :=
  match row with
  | .record _ => do
      let shares ← recordIn row "repo_frac"
      let times ← recordIn row "repo_tt_ms"
      let byParameter ← recordIn row "fp_by_param"
      return some {
        bench
        resultType := match row.get "ret_type" with
          | .text s => s
          | _ => ""
        repeated := (row.get "fp_stable").items.map Value.write
        byParameter := byParameter.map fun (_, v) => v.write
        parameters := (row.get "param_fps").items.map Value.write
        shares := ← shares.mapM fun (_, v) => number v
        times := ← times.mapM fun (_, v) => number v }
  | _ => .ok none

/-- The checks in the data of a runner. -/
def listOfData (v : Value) : Except RunnerFault (List Check) := do
  let rows ← recordIn v "semcheck"
  return (← rows.mapM fun (bench, row) => ofData bench row).filterMap id

/-- The lowest share; zero if there are none. -/
def leastShare (c : Check) : Float :=
  match c.shares with
  | [] => 0
  | x :: xs => xs.foldl (fun a b => if b < a then b else a) x

/-- What is to be said of a bench, in a repository that is modified or not. -/
def verdict (isModified : Bool) (c : Check) : Verdict :=
  if isModified then .modified
  else if c.resultType == "" || c.resultType.toList.head? == some '<' then .error
  else if c.resultType == "NoneType" then .returnsNone
  else
    match c.repeated.eraseDups with
    | [result] =>
        if c.parameters.contains result then .returnsInput
        else if !c.shares.isEmpty && c.leastShare < 0.5 then .lowShare
        else if !c.times.isEmpty && median c.times < 1 then .tooFast
        else if c.byParameter.length < 2 then .unparametrised
        else if c.byParameter.eraseDups.length < 2 then .invariant
        else .ok
    | _ => .unstable

def text (isModified : Bool) (c : Check) : String :=
  let v := c.verdict isModified
  let type := if c.resultType == "" then "?" else c.resultType
  let share := Decimal.fixed 0 (100 * c.leastShare)
  let time := Decimal.fixed 1 (median c.times)
  (if v.isGood then "    " else "  * ") ++ padEnd 32 c.bench ++ " " ++ padEnd 16 v.text ++
    s!" ({type}, repo {share}%) {time}ms"

end Check

/-- What the verdicts ask for. -/
def checkLegend : List String := [
  "", "self-check (* = fix needed):",
  "  returns-none: run() has no return — collect and return the call results",
  "  unstable: seed RNG in setup; avoid time/uuid/id in the return",
  "  returns-input: return repo output, not the parameter value",
  "  low-repo-time: <50% of run() time is in repo code — move glue to setup",
  "  param-invariant: return something derived from run()'s work, not setup",
  "  repo-modified: revert edits to repo files (git checkout -- <path>)"]

/-- The lines about some checks: first the benches that need a change. -/
def checkLines (isModified : Bool) (checks : List Check) : List String :=
  if checks.isEmpty then []
  else
    let isGood (c : Check) : Bool := (c.verdict isModified).isGood
    checkLegend ++ (checks.filter (!isGood ·) ++ checks.filter isGood).map (·.text isModified)

/-- The lines about files that were modified. -/
def modifiedLines (paths : List String) : List String :=
  if paths.isEmpty then []
  else
    let count := paths.length
    ["", s!"** repo modified ({count} file(s)) — revert these; only microbench.py is yours to edit:"] ++
      (paths.take 10).map ("   " ++ ·)

end Pcode.Survey
