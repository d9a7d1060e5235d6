import Pcode.Data.Write
import Pcode.Files.Basic
import Pcode.Survey.Coverage
import Pcode.Survey.Plateau
import Pcode.Survey.SelfCheck
import Pcode.Survey.Share
import Pcode.Text.Blank

set_option autoImplicit false

/-! # Rounds of a survey

In each round the coverage is measured, then the shares of time and the self-checks, as far as
there are runners for them. The round is shown, and a line is added to a file of checkpoints,
from which the next round takes its history. -/

namespace Pcode.Survey

open Pcode.Data
open Pcode.Text

/-! ## The history -/

def checkpointFile : String := ".pti_checkpoint.jsonl"

/-- What earlier rounds left behind. -/
structure History where
  /-- the number of the current round -/
  round : Nat
  /-- the checkpoints of the earlier rounds, in order, up to the first line that holds none -/
  checkpoints : List Value
  /-- whether every line holds a checkpoint -/
  complete : Bool

/-- The text of a file; empty if there is none. -/
def textOf (files : Files) (path : String) : List Char :=
  match files.read path with
  | .ok content => Utf8.decodeLossy content
  | .error _ => []

/-- A checkpoint, if a line holds one. -/
def checkpoint? (line : List Char) : Option Value :=
  match Data.read line with
  | .ok (.record fields) => some (.record fields)
  | _ => none

/-- The checkpoints in some lines. A line that holds none ends the reading, but what stands in front
of it has been read. -/
def readCheckpoints : List (List Char) → List Value × Bool
  | [] => ([], true)
  | line :: lines =>
      match checkpoint? line with
      | none => ([], false)
      | some v =>
          let (checkpoints, complete) := readCheckpoints lines
          (v :: checkpoints, complete)

/-- The history in a file of checkpoints. -/
def History.of (text : List Char) : History :=
  let lines := (splitLines text).filter fun line => !(trim line).isEmpty
  let (checkpoints, complete) := readCheckpoints lines
  { round := lines.length + 1, checkpoints, complete }

namespace History

/-- The count that a checkpoint gives: a whole number, where a flag counts as one or zero. -/
def count? : Value → Option Int
  | .int n => some n
  | .bool b => some (if b then 1 else 0)
  | _ => none

/-- The counts of low shares in earlier rounds. -/
def counts (h : History) : List Int :=
  h.checkpoints.filterMap fun v => count? (v.get "n_below_repo_time")

/-- The seconds since the last round; zero if its time is not known. -/
def elapsed (h : History) (now : Float) : Float :=
  match h.checkpoints.getLast? with
  | none => 0
  | some v =>
      match v.get? "ts" with
      | some (.int n) => Decimal.roundTo 2 (now - Float.ofInt n)
      | some (.float x) => Decimal.roundTo 2 (now - x)
      | _ => 0

end History

/-! ## The parts of a round -/

/-- The folder of the program under survey. -/
def repository : String := "/repo"

/-- Files that do not count as parts of the program. -/
def omitted : List String := [
  "*/microbench.py", "*/_pti_*.py", "*/setup.py", "*/conftest.py", "*/test_*.py", "*/*_test.py",
  "*/tests/*", "*/test/*", "*/__tests__/*", "*/__fixtures__/*", "*/_version.py"]

/-- The number of benches that a module defines. -/
def definedBenches (source : List Char) : Nat :=
  ((splitLines source).filter ("def bench_".toList.isPrefixOf ·)).length

/-- What a round starts from. -/
structure Setting where
  files : Files
  /-- the clock before and after the coverage is measured -/
  started : Float
  ended : Float
  /-- the time of the round -/
  now : Float

def Setting.has (s : Setting) (file : String) : Bool := (s.files.find file).toOption.isSome

/-- Measure the coverage; the report that it leaves. -/
def measureCoverage (s : Setting) : Script Value := do
  let ended ← Script.start ["python", repository ++ "/_pti_cov_runner.py", repository, "microbench",
    repository ++ "/_pti_coverage.json", (Value.list (omitted.map Value.text)).write]
  Script.printError ended.errors
  if ended.code != 0 || !s.has "_pti_coverage.json" then
    let code := ended.code
    Script.print s!"coverage measurement failed (exit {code})"
    Script.print ended.output
    throw (.exit (if code == 0 then 1 else code))
  let text := textOf s.files "_pti_coverage.json"
  match Data.read text with
  | .ok report => pure report
  | .error f => throw (.fault "JSONDecodeError" (f.message text))

/-- Measure the shares of time, if there is a runner for them. -/
def measureShares (s : Setting) : Script (List Share) := do
  if !s.has "_pti_repotime.py" then return []
  let shares ← runRunner "repotime" ["python", repository ++ "/_pti_repotime.py"] Share.ofData
  return shares.getD []

/-- The files of the program that were modified; none if that is not known. -/
def modifiedFiles : Script (List String) := do
  let output ← tryCatch
    (do
      let ended ← Script.start ["git", "-C", repository, "status", "--porcelain", "--", ".",
        ":!microbench.py", ":!_pti_*", ":!.pti_*", ":!.coverage"]
      pure ended.output)
    fun stop =>
      match stop with
      | .start _ => pure ""
      | stop => throw stop
  return ((splitLines output.toList).filter fun line => !(trim line).isEmpty).map fun line =>
    String.ofList (line.drop 3)

/-- Check the benches, if there is a runner for that; also the files that were modified. -/
def measureChecks (s : Setting) : Script (List String × List Check) := do
  if !s.has "_pti_semcheck.py" then return ([], [])
  let modified ← modifiedFiles
  let checks ← runRunner "semcheck" ["python", repository ++ "/_pti_semcheck.py"] Check.listOfData
  return (modified, checks.getD [])

/-! ## The round -/

/-- What a round finds. -/
structure Findings where
  report : Value
  benches : Nat
  shares : List Share
  modified : List String
  checks : List Check

namespace Findings

/-- The errors of benches that the report notes. -/
def errors (f : Findings) : List (String × Value) :=
  ((f.report.get "meta").get errorsKey).fields

def totals (f : Findings) : Totals := Totals.of f.report

def isModified (f : Findings) : Bool := !f.modified.isEmpty

def verdicts (f : Findings) : List (String × Verdict) :=
  f.checks.map fun c => (c.bench, c.verdict f.isModified)

/-- The number of benches that do not check themselves. -/
def unchecked (f : Findings) : Nat := (f.verdicts.filter (!·.2.isGood)).length

/-- The most errors that are shown. -/
def maxErrors : Nat := 8

def errorLines (f : Findings) : List String :=
  if f.errors.isEmpty then []
  else
    let count := f.errors.length
    ["", s!"{count} bench error(s):"] ++ (f.errors.take maxErrors).map fun (bench, v) =>
      "  " ++ bench ++ ": " ++ (match v with
        | .text s => s
        | v => v.write)

/-- The line that sums up the round. -/
def summaryLine (f : Findings) (round : Nat) (seconds : Float) : String :=
  let benches := f.benches
  let percent := Decimal.fixed 1 (toFloat f.totals.percent)
  let known := (f.shares.filter Share.isKnown).length
  let low := (f.shares.filter Share.isLow).length
  let least := Decimal.fixed 0 leastShare
  let unchecked := f.unchecked
  let checks := f.checks.length
  let time := Decimal.fixed 1 seconds
  s!"[round {round}: {benches} benches, {percent}% covered, " ++
    (if f.shares.isEmpty then "" else s!"{low}/{known} below repo_time {least}%, ") ++
    (if f.checks.isEmpty then "" else s!"{unchecked}/{checks} not self-checking, ") ++
    s!"measured in {time}s]"

/-- The least coverage, in percent, at which a survey can end. -/
def leastCoverage : Float := 60

/-- Why the survey can end: the coverage is high enough, and the count of low shares does not
fall any more. -/
def ending? (f : Findings) (history : List Int) : Option Ending :=
  match lowCount? f.shares with
  | some count =>
      if toFloat f.totals.percent >= leastCoverage then Survey.ending? history count else none
  | none => none

/-- The lines of the round. -/
def lines (f : Findings) (h : History) (seconds : Float) : List String :=
  coverageTable f.report ++ f.errorLines ++ shareLines f.shares ++ modifiedLines f.modified ++
    checkLines f.isModified f.checks ++ ["", f.summaryLine h.round seconds] ++
    match f.ending? h.counts with
    | none => []
    | some ending => ["", ">>> STOP: " ++ ending.message ++ ". Finalize microbench.py now. <<<"]

/-- The checkpoint of the round. -/
def checkpoint (f : Findings) (h : History) (now seconds : Float) : Value :=
  .record [
    ("round", .int h.round), ("ts", .float now), ("wall_since_prev_s", .float (h.elapsed now)),
    ("coverage_pct", f.totals.percent), ("covered_lines", f.totals.covered),
    ("num_statements", f.totals.statements), ("n_bench_fns", .int f.benches),
    ("n_bench_errors", .int f.errors.length),
    ("cov_measure_s", .float (Decimal.roundTo 3 seconds)),
    ("repo_time_pct", .record (f.shares.map fun s => (s.bench, .float s.percent))),
    ("n_below_repo_time", match lowCount? f.shares with
      | some n => .int n
      | none => .null),
    ("semcheck", .record (f.verdicts.map fun (bench, v) => (bench, .text v.text))),
    ("n_not_self_checking", .int f.unchecked)]

end Findings

/-- Run a round; the files that it leaves. The checkpoint is written only if all the earlier ones
can be read. -/
def runRound (s : Setting) : Script Files := do
  let report ← measureCoverage s
  let shares ← measureShares s
  let (modified, checks) ← measureChecks s
  let benches := definedBenches (textOf s.files "microbench.py")
  let f : Findings := { report, benches, shares, modified, checks }
  let seconds := s.ended - s.started
  let earlier := textOf s.files checkpointFile
  let h := History.of earlier
  (f.lines h seconds).forM Script.print
  if !h.complete then return s.files
  let text := earlier ++ (f.checkpoint h s.now seconds).write.toList ++ ['\n']
  match s.files.write checkpointFile (Utf8.encode text) with
  | .ok files => return files
  | .error _ => return s.files

end Pcode.Survey
