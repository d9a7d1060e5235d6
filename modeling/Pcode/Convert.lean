import Pcode.Container
import Pcode.Files.Basic
import Pcode.Indent.Document

set_option autoImplicit false

/-! # Conversion

A container is read, its program is decoded, and the source is laid out and written. The open
blocks outlive a conversion: a source that leaves a block open changes how the next one is laid
out. Decompression is a parameter, so that what is said here does not depend on it.

What happens outside the program is a parameter too (`Host`): the user may interrupt a conversion,
the system may refuse a file or fail while bytes are stored, and the stack may be too small for a
line. A conversion that is stopped leaves what it has done until then. -/

namespace Pcode

/-- What conversions share: the files and the open blocks; and how many closing words have had
no block to close. -/
structure Workspace where
  files : Files := {}
  blocks : Indent.Blocks := {}
  excessEnds : Nat := 0
deriving Repr

/-- The decompression in use. -/
abbrev Inflate := List UInt8 → Option (List UInt8)

namespace Convert

/-- Why a step of a conversion is stopped from outside. -/
inductive Halt where
  /-- the user has interrupted it -/
  | interrupted
  /-- the calls are nested too deep -/
  | tooDeep
  /-- the system refuses an operation on a file, or cannot complete it -/
  | file (e : FileError)
deriving Repr, DecidableEq

def Halt.message : Halt → String
  | .interrupted => "Cancelled by user (Ctrl+C)"
  | .tooDeep => "maximum recursion depth exceeded while calling a Python object"
  | .file e => e.message

/-- What happens outside the program while it converts: for each step, whether and why it is
stopped. -/
structure Host where
  /-- while the container is read and decoded -/
  reading : Option Halt := none
  makingFolders : Option Halt := none
  /-- while a source is laid out, with the number of lines that have been -/
  layingOut : List Char → Option (Nat × Halt) := fun _ => none
  /-- when the file for the source is to be opened -/
  opening : Option Halt := none
  /-- while a content is stored in the open file, with the number of bytes that have been -/
  storing : List UInt8 → Option (Nat × Halt) := fun _ => none

/-- Why a conversion fails. -/
inductive Error where
  /-- no file stands at the path of the container -/
  | missing (path : String)
  /-- the file is shorter than a header -/
  | noHeader (path : String)
  | file (e : FileError)
  /-- the payload does not decompress, or has too few bytes -/
  | noProgram
  | program (e : Program.Error)
  | layout (e : Indent.Error)
  | halted (h : Halt)
deriving Repr, DecidableEq

def Error.message : Error → String
  | .missing path => ".p file not found: " ++ path
  | .noHeader path => ".p file has no header (<32 bytes): " ++ path
  | .file e => e.message
  | .noProgram => "'NoneType' object has no attribute 'tokens'"
  | .program e => e.message
  | .layout e => e.message
  | .halted h => h.message

/-- How a conversion ends. -/
inductive Verdict where
  | saved (path : String)
  | failed (e : Error)
  /-- the header does not fit the payload -/
  | invalid
deriving Repr, DecidableEq

namespace Verdict

/-- The number of a verdict: zero for success. -/
def code : Verdict → Nat
  | saved _ => 0
  | failed _ => 1
  | invalid => 2

def message : Verdict → String
  | saved path => "Saved to " ++ path
  | failed e => e.message
  | invalid => "Invalid p-file or decompression failed."

end Verdict

/-- Read the container at a path. -/
def readContainer (fs : Files) (path : String) : Except Error Container :=
  let p := (Path.ofString path).toString
  match fs.exists? p with
  | .error e => .error (.file e)
  | .ok false => .error (.missing path)
  | .ok true =>
      match fs.read p with
      | .error e => .error (.file e)
      | .ok bytes =>
          match Container.ofBytes? bytes with
          | some c => .ok c
          | none => .error (.noHeader path)

/-- The style of converted sources. -/
def style : Indent.Style := { width := 4, separate := true, functions := .fixed 1 }

/-- Lay out a source while some blocks are open. If that is stopped, the blocks are those which the
lines laid out until then leave open. -/
def layOut (host : Host) (blocks : Indent.Blocks) (source : List Char) :
    Indent.State × Except Error (List Char) :=
  match host.layingOut source with
  | some (lines, halt) =>
      ((Indent.State.layText style { blocks } source 1 (some lines)).1, .error (.halted halt))
  | none =>
      match Indent.State.layText style { blocks } source 1 none with
      | (st, .error e) => (st, .error (.layout e))
      | (st, .ok text) => (st, .ok text)

/-- Open the file at a path and store a content in it. If that is stopped, the file holds a first
part of the content. -/
def writeFile (host : Host) (fs : Files) (path : String) (content : List UInt8) :
    Files × Except Error Unit :=
  match host.opening with
  | some halt => (fs, .error (.halted halt))
  | none =>
      match fs.create path with
      | .error e => (fs, .error (.file e))
      | .ok (place, fs) =>
          match host.storing content with
          | some (size, halt) =>
              (fs.put place (.file (content.take size)), .error (.halted halt))
          | none => (fs.put place (.file content), .ok ())

/-- Lay out a source and write it; folders on the way are made first. -/
def writeSource (host : Host) (w : Workspace) (path : String) (source : List Char) :
    Workspace × Except Error Unit :=
  let p := Path.ofString path
  match host.makingFolders with
  | some halt => (w, .error (.halted halt))
  | none =>
      match w.files.ensureFolders p.root p.parent.names.reverse with
      | (fs, .error e) => ({ w with files := fs }, .error (.file e))
      | (fs, .ok _) =>
          let (st, laid) := layOut host w.blocks source
          let w := { w with
            files := fs, blocks := st.blocks, excessEnds := w.excessEnds + st.excessEnds }
          match laid with
          | .error e => (w, .error e)
          | .ok text =>
              let (fs, written) := writeFile host fs p.toString (Utf8.encode text)
              ({ w with files := fs }, written)

/-- The source in a container. -/
def sourceOf (inflate : Inflate) (c : Container) : Except Error (List Char) :=
  match c.program? inflate with
  | none => .error .noProgram
  | some program =>
      match program.source with
      | .error e => .error (.program e)
      | .ok source => .ok source

/-- Convert the container at `pfile` to a source at `mfile`. -/
def runOn (host : Host) (inflate : Inflate) (w : Workspace) (pfile mfile : String) :
    Workspace × Verdict :=
  match host.reading with
  | some halt => (w, .failed (.halted halt))
  | none =>
      match readContainer w.files pfile with
      | .error e => (w, .failed e)
      | .ok c =>
          if !c.isValid then (w, .invalid)
          else
            match sourceOf inflate c with
            | .error e => (w, .failed e)
            | .ok source =>
                match writeSource host w mfile source with
                | (w, .error e) => (w, .failed e)
                | (w, .ok _) => (w, .saved mfile)

/-- Convert while nothing outside stops it. -/
def run (inflate : Inflate) (w : Workspace) (pfile mfile : String) : Workspace × Verdict :=
  runOn {} inflate w pfile mfile

/-! ## The stack -/

/-- How many calls can be nested while a line is laid out. -/
def callDepth : Nat := 980

/-- Whether the cuts of a line are nested deeper than calls can be. -/
def isTooDeep (line : List Char) : Bool := callDepth < (Spacing.spacing.tree line).depth

/-- A host that stops a conversion only where the stack is too small for a line. -/
def Host.stack : Host where
  layingOut source :=
    ((Text.splitLines source).findIdx? fun line => isTooDeep (Text.trim line)).map (·, .tooDeep)

end Convert

end Pcode
