import Pcode.Data.Value
import Pcode.Decimal.Text
import Pcode.Survey.Bench

set_option autoImplicit false

/-! # What runners report

The runner for self-checks calls each bench twice and reports fingerprints of its results; the
runner for shares reports where its time goes. A module that cannot be loaded is reported
instead. -/

namespace Pcode.Survey

open Pcode.Data

/-- The name of a call without parameters. -/
def defaultCall : String := "<default>"

/-- What is reported of a module that cannot be loaded. -/
def loadFailure (raised : Raised) : Value := .record [("_import_error", .text raised.text)]

/-! ## Self-checks -/

/-- The number of calls that have to agree. -/
def repeatedCalls : Nat := 2

/-- What is reported of a bench, with fingerprints of the given number of calls. -/
def checkReport (m : Module) (folder : String) (calls : Nat) (b : Bench) : Value :=
  let program := b.profile.seconds (m.isProgram folder)
  let others := b.profile.seconds fun file => !isInside folder file
  let byCall (x : Float) : Value := .record [(defaultCall, .float x)]
  let head : List (String × Value) := match b.raises with
    | some raised => [("ret_type", .text ("<" ++ raised.kind ++ ">")), ("fp_stable", .list [])]
    | none => [
        ("ret_type", .text (b.result 0).typeName),
        ("fp_stable", .list ((List.range calls).map fun i => .text (b.result i).fingerprint))]
  .record (head ++ [
    ("fp_by_param", .record []), ("param_fps", .list []),
    ("repo_tt_ms", byCall (Decimal.roundTo 3 (1000 * program))),
    ("repo_frac", byCall (Decimal.roundTo 3 (b.profile.part program))),
    ("ext_frac", byCall (Decimal.roundTo 3 (b.profile.part others)))])

/-- The report of the runner for self-checks. -/
def checksReport (m : Module) (folder : String) (calls : Nat) : Value :=
  match m.loaded with
  | .error raised => loadFailure raised
  | .ok functions =>
      .record [("semcheck", .record ((benchesOf functions).map fun b =>
        (b.name, checkReport m folder calls b)))]

/-! ## Shares of time -/

/-- The name of the module of a file. -/
def moduleName (file : String) : String := (Path.splitName (Path.ofString file).name).1

/-- The modules outside the program with their shares, in percent, the largest first. -/
def elsewhere (folder : String) (p : Profile) : List (Float × String) :=
  let outside := p.frames.filter fun (file, _) => !isInside folder file
  let names := (outside.map fun (file, _) => moduleName file).eraseDups
  let shares := names.map fun name =>
    (Decimal.roundTo 1 (100 * p.part (p.seconds fun file =>
      !isInside folder file && moduleName file == name)), name)
  shares.mergeSort fun a b => a.1 >= b.1

/-- The share of a bench in percent; below zero if it failed. -/
def shareOf (m : Module) (folder : String) (b : Bench) : Float :=
  match b.raises with
  | some _ => -1
  | none => Decimal.roundTo 1 (100 * b.profile.part (b.profile.seconds (m.isProgram folder)))

/-- The report of the runner for shares. -/
def sharesReport (m : Module) (folder : String) : Value :=
  match m.loaded with
  | .error raised => loadFailure raised
  | .ok functions =>
      let benches := benchesOf functions
      .record [
        ("repo_time_pct", .record (benches.map fun b => (b.name, .float (shareOf m folder b)))),
        ("hot_ext", .record (benches.map fun b => (b.name,
          .list ((elsewhere folder b.profile).map fun (x, name) => .list [.float x, .text name]))))]

end Pcode.Survey
