set_option autoImplicit false

/-! # Starting programs

A script starts other programs, prints, and may stop early. What the programs answer is not
known to the script, so a `Shell` holds the answers that are still to come, and everything that
the script has done so far. What has been done stays done when a script stops. -/

namespace Pcode

/-- Why a program gives no answer. -/
inductive StartFailure where
  | notFound (message : String)
  | timedOut
  | other (kind message : String)
deriving Repr, DecidableEq

namespace StartFailure

/-- The name of the kind of a failure, as reports show it. -/
def kind : StartFailure → String
  | notFound _ => "FileNotFoundError"
  | timedOut => "TimeoutExpired"
  | other kind _ => kind

def message : StartFailure → String
  | notFound message => message
  | timedOut => "Command 'x' timed out after 1 seconds"
  | other _ message => message

end StartFailure

/-- What a program that ended leaves behind. -/
structure Ended where
  code : Int := 0
  output : String := ""
  errors : String := ""
deriving Repr, DecidableEq

/-- The answer of a program. -/
inductive Reply where
  | ended (e : Ended)
  | failed (e : StartFailure)
deriving Repr, DecidableEq

/-- A program that was started: its name with its arguments, and whether it had to succeed. -/
structure Call where
  mustSucceed : Bool
  words : List String
deriving Repr, DecidableEq

/-- What a script has in hand: the answers to come, and what it has done. -/
structure Shell where
  /-- answers of programs that may fail -/
  replies : List Reply := []
  /-- exit codes of programs that have to succeed -/
  codes : List Int := []
  /-- the arguments of the script -/
  args : List String := []
  calls : List Call := []
  output : String := ""
  errors : String := ""
deriving Repr

/-- Why a script stops early. -/
inductive Stop where
  | exit (code : Int)
  /-- a program that had to succeed ended with another code than zero -/
  | unsuccessful (code : Int)
  | start (e : StartFailure)
  /-- something that the script reads is not what it should be -/
  | fault (kind message : String)
deriving Repr, DecidableEq

namespace Stop

/-- Names of signals by their number. -/
def signals : List (Nat × String) := [
  (1, "SIGHUP"), (2, "SIGINT"), (3, "SIGQUIT"), (4, "SIGILL"), (5, "SIGTRAP"), (6, "SIGABRT"),
  (7, "SIGBUS"), (8, "SIGFPE"), (9, "SIGKILL"), (10, "SIGUSR1"), (11, "SIGSEGV"),
  (12, "SIGUSR2"), (13, "SIGPIPE"), (14, "SIGALRM"), (15, "SIGTERM"), (16, "SIGSTKFLT"),
  (17, "SIGCHLD"), (18, "SIGCONT"), (19, "SIGSTOP"), (20, "SIGTSTP"), (21, "SIGTTIN"),
  (22, "SIGTTOU"), (23, "SIGURG"), (24, "SIGXCPU"), (25, "SIGXFSZ"), (26, "SIGVTALRM"),
  (27, "SIGPROF"), (28, "SIGWINCH"), (29, "SIGIO"), (30, "SIGPWR"), (31, "SIGSYS"),
  (34, "SIGRTMIN"), (64, "SIGRTMAX")]

/-- What is said of a program that had to succeed. A code below zero is that of a signal. -/
def unsuccessfulMessage (code : Int) : String :=
  if code < 0 then
    let number := code.natAbs
    match signals.lookup number with
    | some name => s!"Command 'child' died with <Signals.{name}: {number}>."
    | none => s!"Command 'child' died with unknown signal {number}."
  else s!"Command 'child' returned non-zero exit status {code}."

def message : Stop → String
  | exit code => toString code
  | unsuccessful code => unsuccessfulMessage code
  | start e => e.message
  | fault _ message => message

end Stop

/-- A script: it works on a shell and may stop early. -/
abbrev Script := ExceptT Stop (StateM Shell)

namespace Script

/-- Print a line. -/
def print (line : String) : Script Unit :=
  modify fun sh => { sh with output := sh.output ++ line ++ "\n" }

/-- Print to the error output. -/
def printError (text : String) : Script Unit :=
  modify fun sh => { sh with errors := sh.errors ++ text }

/-- Start a program that may fail. Without an answer there is no such program. -/
def start (words : List String) : Script Ended := do
  let sh : Shell ← get
  modify fun sh => { sh with replies := sh.replies.tail, calls := sh.calls ++ [⟨false, words⟩] }
  match sh.replies with
  | .ended e :: _ => pure e
  | .failed e :: _ => throw (.start e)
  | [] => throw (.start (.notFound "no such program"))

/-- Start a program that has to succeed. Without an answer it does. -/
def mustRun (words : List String) : Script Unit := do
  let sh : Shell ← get
  modify fun sh => { sh with codes := sh.codes.tail, calls := sh.calls ++ [⟨true, words⟩] }
  match sh.codes with
  | [] | 0 :: _ => pure ()
  | code :: _ => throw (.unsuccessful code)

/-- The result of a script that may find that a program is missing or does not answer in
time. -/
def orAbsent {α : Type} (script : Script (Option α)) : Script (Option α) :=
  tryCatch script fun stop =>
    match stop with
    | .start (.notFound _) | .start .timedOut => pure none
    | stop => throw stop

/-- The first result that one of the scripts has, tried in order. -/
def firstOf {α : Type} : List (Script (Option α)) → Script (Option α)
  | [] => pure none
  | script :: more => do
      match ← orAbsent script with
      | some a => pure (some a)
      | none => firstOf more

/-- Take an argument away; the result says whether it was there. -/
def takeArgument (word : String) : Script Bool := do
  let sh : Shell ← get
  modify fun sh => { sh with args := sh.args.erase word }
  pure (sh.args.contains word)

end Script

end Pcode
