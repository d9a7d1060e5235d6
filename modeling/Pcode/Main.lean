import Pcode.Command.Convert

set_option autoImplicit false

/-! # The program

The command for conversion, with the files and the terminal of the system. A file is looked at
once its name is known, and what the command has changed is written back. -/

open Pcode

namespace Pcode.Main

/-- The files with the one at a path on the system, if there is one. -/
def load (files : Files) (path : String) : IO Files := do
  try
    let content ← IO.FS.readBinFile path
    return files.install path (.file content.toList)
  catch _ => return files

/-- Write the files that have changed. -/
def save (old new : Files) : IO Unit := do
  for (place, content) in Files.changes old new do
    let folder := "/".intercalate place.dropLast
    if folder != "" then IO.FS.createDirAll folder
    IO.FS.writeBinFile ("/".intercalate place) (ByteArray.mk content.toArray)

/-- Print warnings about closing words without a block. -/
def warn (count : Nat) : IO Unit := IO.eprint (Indent.warnings count)

/-- Run the command with the answers given so far, print what is new, and go on with one more
answer if the command asks for it. -/
partial def converse (files : Files) (args : List String) (answers : List (List Char))
    (printed : Nat) : IO UInt32 := do
  let out := Command.Convert.run .stack Zlib.inflate { files } args answers
  IO.print (String.ofList (out.output.toList.drop printed))
  (← IO.getStdout).flush
  match out.failure with
  | some .endOfInput =>
      let line ← (← IO.getStdin).getLine
      if line.isEmpty then
        save files out.workspace.files
        IO.eprintln Command.Convert.Failure.endOfInput.message
        return 1
      let files ← load files (String.ofList (Text.trim line.toList))
      converse files args (answers ++ [line.toList]) out.output.length
  | some failure =>
      save files out.workspace.files
      IO.eprintln failure.message
      return 1
  | none =>
      save files out.workspace.files
      warn out.workspace.excessEnds
      return 0

end Pcode.Main

def main (args : List String) : IO UInt32 := do
  let files ← args.foldlM Main.load {}
  Main.converse files args [] 0
