import Pcode.Data.Value
import Pcode.Decimal.Text
import Pcode.Files.Path
import Pcode.Survey.Bench
import Pcode.Text.Pad

set_option autoImplicit false

/-! # Coverage

A report says which statements of which files were run. The names of the benches that failed are
noted in it, and it is shown as a table, with the least covered files first. -/

namespace Pcode.Survey

open Pcode.Data
open Pcode.Text

/-- A number; zero for any other value. -/
def toFloat : Value → Float
  | .int n => Float.ofInt n
  | .float x => x
  | .bool b => if b then 1 else 0
  | _ => 0

/-- A whole number; zero for any other value. -/
def toInt : Value → Int
  | .int n => n
  | .bool b => if b then 1 else 0
  | _ => 0

/-! ## Measuring -/

def errorsKey : String := "_pti_bench_errors"

def countKey : String := "_pti_n_benches"

/-- What was raised when a module was loaded and its benches were called, by name. -/
def Module.errors (m : Module) : List (String × Raised) :=
  match m.loaded with
  | .error raised => [("<import>", raised)]
  | .ok functions => (benchesOf functions).filterMap fun b => b.raises.map fun r => (b.name, r)

/-- The number of benches of a module. -/
def Module.count (m : Module) : Nat :=
  match m.loaded with
  | .error _ => 0
  | .ok functions => (benchesOf functions).length

/-- A report with the number of benches and their errors noted in it. -/
def annotate (m : Module) (report : Value) : Value :=
  let errors := Value.record (m.errors.map fun (name, raised) => (name, .text raised.text))
  report.set "meta"
    (((report.get "meta").set errorsKey errors).set countKey (.int m.count))

/-- The line about a report; the name of a field if it is missing. -/
def summary (m : Module) (report : Value) : Except String String := do
  let need (v : Value) (key : String) : Except String Value :=
    match v.get? key with
    | some v => .ok v
    | none => .error key
  let totals ← need report "totals"
  let percent := Decimal.fixed 1 (toFloat (← need totals "percent_covered"))
  let covered := toInt (← need totals "covered_lines")
  let statements := toInt (← need totals "num_statements")
  let benches := m.count
  let errors := m.errors.length
  return s!"coverage: {percent}% ({covered}/{statements} stmts, {benches} benches, {errors} errors)\n"

/-! ## The table -/

/-- The path of a file as seen from the folder `/repo`. -/
def fromRepository (file : String) : String :=
  let p := Path.ofString file
  if p.root == "" then p.toString
  else
    match p.names with
    | "repo" :: rest => (Path.mk "" rest).toString
    | names => (Path.mk "" (".." :: names)).toString

/-- A row of the table. -/
structure CoverageRow where
  name : String
  statements : Int
  missing : Int
  percent : Float
  lines : List Int

/-- The row of a file of a report. -/
def CoverageRow.of (file : String) (v : Value) : CoverageRow :=
  let totals := v.get "summary"
  { name := fromRepository file
    statements := toInt (totals.get "num_statements")
    missing := toInt (totals.get "missing_lines")
    percent := toFloat (totals.get "percent_covered")
    lines := (v.get "missing_lines").items.map toInt }

/-- The most lines that a row shows. -/
def maxLines : Nat := 12

/-- The most characters of a name that a row shows. -/
def maxName : Nat := 60

/-- The columns after the name. -/
def columns (statements missing : Int) (percent : Float) : String :=
  "  " ++ padStart 5 (toString statements) ++ "  " ++ padStart 4 (toString missing) ++ "  " ++
    padStart 4 (Decimal.fixed 0 percent) ++ "%"

def CoverageRow.text (width : Nat) (row : CoverageRow) : String :=
  let lines := ",".intercalate ((row.lines.take maxLines).map toString) ++
    (if maxLines < row.lines.length then "…" else "")
  padEnd width (String.ofList (row.name.toList.take maxName)) ++
    columns row.statements row.missing row.percent ++ "  " ++ lines

/-- The totals of a report. -/
structure Totals where
  percent : Value
  covered : Value
  statements : Value

def Totals.of (report : Value) : Totals :=
  let totals := report.get "totals"
  { percent := (totals.get? "percent_covered").getD (.float 0)
    covered := (totals.get? "covered_lines").getD (.int 0)
    statements := (totals.get? "num_statements").getD (.int 0) }

/-- The lines of the table of a report. -/
def coverageTable (report : Value) : List String :=
  let rows := (report.get "files").fields.map fun (file, v) => CoverageRow.of file v
  let rows := rows.mergeSort fun a b => a.percent <= b.percent
  let width := rows.foldl (fun w row => max w (min maxName row.name.length)) 4
  let totals := Totals.of report
  let statements := toInt totals.statements
  let rule := String.ofList (List.replicate (width + 42) '-')
  [padEnd width "Name" ++ "  Stmts  Miss  Cover  Missing", rule] ++ rows.map (·.text width) ++
    [rule, padEnd width "TOTAL" ++
      columns statements (statements - toInt totals.covered) (toFloat totals.percent)]

end Pcode.Survey
