import Pcode.Data.Value
import Pcode.Files.Path
import Pcode.Survey.Fingerprint

set_option autoImplicit false

/-! # Benches

A bench is a function of the module under survey. What it does when it is called is given: its
results call by call, or how it fails, and where a profiler sees the time go. -/

namespace Pcode.Survey

/-- Something that was raised: the name of its kind, and its message. -/
structure Raised where
  kind : String
  message : String
deriving Repr, DecidableEq

def Raised.text (r : Raised) : String := r.kind ++ ": " ++ r.message

/-- Where a profiler sees the time go: seconds by file, and the seconds in all. -/
structure Profile where
  frames : List (String × Float) := []
  total : Float := 0
deriving Repr

structure Bench where
  name : String
  /-- whether it can be called at all -/
  callable : Bool := true
  /-- the results of successive calls; the last one repeats -/
  results : List Result := [.none]
  raises : Option Raised := none
  profile : Profile := {}
deriving Repr

/-- The result of a call, counted from zero. -/
def Bench.result (b : Bench) (call : Nat) : Result :=
  (b.results[call]?).getD (b.results.getLast?.getD .none)

/-- The module under survey: its file, and its benches, or what was raised when it was loaded. -/
structure Module where
  file : String := "/repo/microbench.py"
  loaded : Except Raised (List Bench)

/-- The benches among some functions: those whose name says so, in the order of their names. -/
def benchesOf (functions : List Bench) : List Bench :=
  (functions.filter fun b => b.callable && "bench_".toList.isPrefixOf b.name.toList).mergeSort
    fun a b => decide (a.name ≤ b.name)

/-! ## Time -/

/-- Whether a file lies in a folder; a relative path lies in it. -/
def isInside (folder file : String) : Bool :=
  match file.toList with
  | '/' :: _ => (folder.toList ++ ['/']).isPrefixOf file.toList
  | '<' :: _ | '~' :: _ => false
  | _ => true

/-- The seconds that a profile has in files that satisfy a condition. -/
def Profile.seconds (p : Profile) (inFile : String → Bool) : Float :=
  p.frames.foldl (fun sum (file, seconds) => if inFile file then sum + seconds else sum) 0

/-- A part of the time of a profile; zero if there is no time. -/
def Profile.part (p : Profile) (seconds : Float) : Float :=
  if p.total > 0 then seconds / p.total else 0

/-- Whether a file belongs to the program under survey: it lies in the folder, and is not the
module itself. -/
def Module.isProgram (m : Module) (folder file : String) : Bool :=
  isInside folder file && (Path.ofString file).name != (Path.ofString m.file).name

end Pcode.Survey
