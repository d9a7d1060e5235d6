import Pcode.Byte.Utf8
import Pcode.Files.Basic
import Pcode.Indent.Document
import Pcode.Indent.Setting

set_option autoImplicit false

/-! # The command for layout

The first argument is the file to lay out, `-` for the input; the others are settings. Without
arguments the settings are listed. -/

namespace Pcode.Command.Format

open Pcode.Text
open Pcode.Indent (Setting ArgumentError NonNumber settingIn settingsOf)

/-- Why the command stops early. -/
inductive Failure where
  | argument (e : ArgumentError)
  | file (e : FileError)
  | encoding (e : Utf8.Error)
  /-- the first line is not a number -/
  | start (kind : NonNumber)
  /-- the last line is a text -/
  | stop
  /-- the width is not a number -/
  | width (kind : NonNumber)
  | layout (e : Indent.Error)
deriving Repr, DecidableEq

/-- Files are read in blocks of this many bytes. -/
def blockSize : Nat := 8192

/-- Where a fault is reported: from the start of the block in which it shows, or from the start
of the character that was carried over into that block or to the end of the file. -/
def reportedPosition (e : Utf8.Error) : Nat :=
  let shows := match e.kind with
    | .start => e.position
    | _ => e.position + e.bad.length
  let block := shows / blockSize * blockSize
  if e.kind == .truncated || e.position < block then 0 else e.position - block

/-- The message for bytes that are not UTF-8. -/
def encodingMessage (e : Utf8.Error) : String :=
  let position := reportedPosition e
  let reason := match e.kind with
    | .start => "invalid start byte"
    | .continuation => "invalid continuation byte"
    | .truncated => "unexpected end of data"
  let what := match e.bad with
    | [b] => "byte 0x" ++ String.ofList (Hex.encode [b]) ++ " in position " ++ toString position
    | bad =>
        "bytes in position " ++ toString position ++ "-" ++
          toString (position + bad.length - 1)
  "'utf-8' codec can't decode " ++ what ++ ": " ++ reason

def Failure.message : Failure → String
  | .argument e => e.message
  | .file e => e.message
  | .encoding e => encodingMessage e
  | .start kind => "unsupported operand type(s) for -: '" ++ kind.name ++ "' and 'int'"
  | .stop => "slice indices must be integers or None or have an __index__ method"
  | .width kind => "unsupported operand type(s) for //: 'int' and '" ++ kind.name ++ "'"
  | .layout e => e.message

/-- What the command leaves behind. -/
structure Outcome where
  output : String := ""
  errors : String := ""
  failure : Option Failure := none

/-- The list of settings, shown without arguments. -/
def usage : String :=
  "usage: matlab_formatter.py filename [options...]\n" ++ "  OPTIONS:\n" ++
    "    --startLine=int\n" ++ "    --endLine=int\n" ++ "    --indentWidth=int\n" ++
    "    --separateBlocks=bool\n" ++ "    --indentMode=str\n\n"

/-- The text to lay out. -/
def readText (fs : Files) (input : List Char) (name : String) : Except Failure (List Char) :=
  if name == "-" then .ok input
  else
    match fs.read name with
    | .error e => .error (.file e)
    | .ok bytes =>
        match Utf8.decode bytes with
        | .error e => .error (.encoding e)
        | .ok text => .ok text

/-- The first and the last line to lay out. -/
def bounds (settings : List (String × Setting)) : Except Failure (Int × Option Int) :=
  match (settingIn settings "startLine" (.number 1)).toInt with
  | .error kind => .error (.start kind)
  | .ok start =>
      match (settingIn settings "endLine" .missing).toInt with
      | .ok stop => .ok (start, some stop)
      | .error .missing => .ok (start, none)
      | .error .text => .error .stop

/-- The style that settings ask for. -/
def styleOf (settings : List (String × Setting)) : Except Failure Indent.Style :=
  match (settingIn settings "indentWidth" (.number 4)).toInt with
  | .error kind => .error (.width kind)
  | .ok width =>
      .ok {
        width := width
        separate := (settingIn settings "separateBlocks" (.flag true)).isTrue
        functions :=
          match (settingIn settings "indentMode" (.number 1)).toInt with
          | .ok n => .ofInt n
          | .error kind => .invalid kind }

/-- Lay out a file, or the input for `-`, and print it; a warning goes with every closing word
that has no block to close. -/
def print (fs : Files) (input : List Char) (style : Indent.Style) (st : Indent.State) (name : String)
    (start : Int) (stop : Option Int) : Indent.State × Outcome :=
  match readText fs input name with
  | .error e => (st, { failure := some e })
  | .ok text =>
      let (st', laid) := st.layFile style (fileLines (universal text)) start stop
      let errors := Indent.warnings (st'.excessEnds - st.excessEnds)
      match laid with
      | .ok out =>
          (st', { output := String.join (out.map fun l => String.ofList l ++ "\n"), errors := errors })
      | .error e => (st', { errors := errors, failure := some (.layout e) })

/-- The style and the lines that settings ask for. -/
def request (settings : List (String × Setting)) :
    Except Failure (Indent.Style × Int × Option Int) :=
  match bounds settings with
  | .error e => .error e
  | .ok (start, stop) =>
      match styleOf settings with
      | .error e => .error e
      | .ok style => .ok (style, start, stop)

/-- Run the command with its arguments and its input, both read as text. -/
def run (fs : Files) (blocks : Indent.Blocks) (args : List String) (input : List Char) : Outcome :=
  match args with
  | [] => { errors := usage }
  | name :: args =>
      match settingsOf args with
      | .error e => { failure := some (.argument e) }
      | .ok settings =>
      match request settings with
      | .ok (style, start, stop) => (print fs input style { blocks := blocks } name start stop).2
      | .error e =>
          -- the settings are looked at after the text has been read
          match readText fs input name with
          | .error e => { failure := some e }
          | .ok _ => { failure := some e }

end Pcode.Command.Format
