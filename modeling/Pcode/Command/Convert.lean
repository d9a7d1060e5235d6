import Pcode.Convert

set_option autoImplicit false

/-! # The command for conversion

With one or two arguments a file is converted. Without arguments a window opens, and only the
banner is printed. Otherwise the names of files are asked for until the answer is empty or
`exit`. -/

namespace Pcode.Command.Convert

open Pcode.Text

/-- Why the command stops early. -/
inductive Failure where
  /-- the input ends where an answer is needed -/
  | endOfInput
  /-- a path without a name has no counterpart with another suffix -/
  | emptyName (path : Path)
deriving Repr, DecidableEq

def Failure.message : Failure → String
  | .endOfInput => "EOF when reading a line"
  | .emptyName path => path.emptyNameMessage

/-- What the command leaves behind. -/
structure Outcome where
  workspace : Workspace
  output : String
  failure : Option Failure := none

def rule : String := String.ofList (List.replicate 100 '*') ++ "\n"

/-- What is printed first. -/
def banner : String :=
  rule ++ "ptompy tool - convert Matlab .p to .m\n" ++ "Version:       ptompy tool \t0.20\n" ++
    "Usage:\n" ++
    "\t ptompy.exe pfile [mfile]  - convert pfile to mfile (mfile defaults to pfile.m)\n" ++
    "\t exit - to quit program (when running without args)\n" ++ rule

def containerPrompt : String := "pfile (or exit): "

def sourcePrompt : String := "mfile (Enter = same name .m): "

/-- Convert, to the same name with another suffix if no target is given, and print how it
went. -/
def convert (host : Convert.Host) (inflate : Inflate) (w : Workspace) (output : String)
    (pfile : String) (mfile : Option String) : Outcome :=
  let target := match mfile with
    | some m => some m
    | none => ((Path.ofString pfile).withSuffix? ".m").map Path.toString
  match target with
  | none => ⟨w, output, some (.emptyName (Path.ofString pfile))⟩
  | some m =>
      let (w, verdict) := Convert.runOn host inflate w pfile m
      ⟨w, output ++ verdict.message ++ "\n", none⟩

/-- Ask for files until told to stop. -/
def dialogue (host : Convert.Host) (inflate : Inflate) (w : Workspace) (output : String) :
    List (List Char) → Outcome
  | [] => ⟨w, output ++ containerPrompt, some .endOfInput⟩
  | answer :: rest =>
      let pfile := String.ofList (trim answer)
      let output := output ++ containerPrompt
      if pfile == "" || pfile.toLower == "exit" then ⟨w, output, none⟩
      else
        match rest with
        | [] => ⟨w, output ++ sourcePrompt, some .endOfInput⟩
        | answer :: rest =>
            let mfile := String.ofList (trim answer)
            let done := convert host inflate w (output ++ sourcePrompt) pfile
              (if mfile == "" then none else some mfile)
            match done.failure with
            | some _ => done
            | none => dialogue host inflate done.workspace done.output rest

/-- Run the command with its arguments and the lines of its input. -/
def run (host : Convert.Host) (inflate : Inflate) (w : Workspace) (args : List String)
    (input : List (List Char)) : Outcome :=
  match args with
  | [] => ⟨w, banner, none⟩
  | [pfile] =>
      if pfile == "--tui" then dialogue host inflate w banner input
      else convert host inflate w banner pfile none
  | [pfile, mfile] =>
      if pfile == "--tui" then dialogue host inflate w banner input
      else convert host inflate w banner pfile (some mfile)
  | _ => dialogue host inflate w banner input

end Pcode.Command.Convert
