import Pcode.Convert

set_option autoImplicit false

/-! # The window

The state of the window with its three buttons: choose a container, convert it, view the
source. A session is a window with the files it works on; each step of it is one button. -/

namespace Pcode

inductive Window.Color where
  | green
  | red
deriving Repr, DecidableEq

/-- What the window shows and remembers. -/
structure Window where
  /-- the chosen container -/
  pfile : Option Path := none
  /-- where its source goes -/
  mfile : Option Path := none
  /-- where the next file dialog opens; `none` is the folder of the program -/
  folder : Option Path := none
  fileLabel : String := "No file selected"
  status : String := "Select a .p file, then click Convert"
  color : Window.Color := .green
  /-- the last size the window was given -/
  geometry : Option String := none
  /-- whether the progress bar is shown -/
  progressShown : Bool := false
  /-- whether the progress bar runs -/
  progressRunning : Bool := false
deriving Repr, DecidableEq

namespace Window

/-- Why a button stops half way. -/
inductive Fault where
  /-- a path without a name has no source beside it -/
  | emptyName (path : Path)
  /-- a container was chosen, but no place for its source -/
  | noSource
  /-- a path cannot be looked up at all -/
  | lookup (e : FileError)
deriving Repr, DecidableEq

def Fault.message : Fault → String
  | .emptyName path => path.emptyNameMessage
  | .noSource => "'ParseGUI' object has no attribute 'mfile'"
  | .lookup e => e.message

def noFileLabel : String := "No file selected"

/-- The least height of the window. -/
def minHeight : Int := 130

/-- Give the window a height for what it shows. -/
def fit (win : Window) (needed : Int) : Window :=
  { win with geometry := some ("450x" ++ toString (max minHeight (needed + 5))) }

/-- Whether a text ends in another. -/
def endsWith (s e : String) : Bool := e.toList.reverse.isPrefixOf s.toList.reverse

/-- Choose the file that the dialog answered with; any other than a container leaves the window
as it is. A path without a name gives nothing to convert to. -/
def select (win : Window) (answer : String) (needed : Int) : Window × Option Fault :=
  if !endsWith answer ".p" then (win, none)
  else
    let p := Path.ofString answer
    match p.withSuffix? ".m" with
    | none => ({ win with pfile := some p, folder := some p.parent }, some (.emptyName p))
    | some m =>
        (fit { win with
          pfile := some p
          mfile := some m
          folder := some p.parent
          fileLabel := "File: " ++ p.name
          status := "Click Convert to decode and save .m file"
          color := .green } needed, none)

/-- Show that there is nothing to convert. -/
def refuse (win : Window) : Window :=
  { win with status := "Please select a .p (MATLAB) file!", color := .red }

/-- Start the progress bar. -/
def startProgress (win : Window) : Window :=
  { win with progressShown := true, progressRunning := true }

/-- Stop the progress bar and hide it. -/
def stopProgress (win : Window) : Window :=
  { win with progressShown := false, progressRunning := false }

/-- Convert the chosen container. -/
def convert (host : Convert.Host) (inflate : Inflate) (win : Window) (w : Workspace)
    (needed : Int) : Window × Workspace × Option Fault :=
  let win := win.startProgress
  let refused := fit win.stopProgress.refuse needed
  match win.pfile with
  | none => (refused, w, none)
  | some p =>
      if p.suffix != ".p" then (refused, w, none)
      else if win.fileLabel != noFileLabel then
        let win := { win with status := "Decoding... (most files decode in a few seconds)" }
        match win.mfile with
        | none => (win, w, some .noSource)
        | some m =>
            let (w, verdict) := Convert.runOn host inflate w p.toString m.toString
            let color := if verdict.code = 0 then Color.green else Color.red
            (fit { win.stopProgress with status := verdict.message, color := color } needed, w,
              none)
      else (refused, w, none)

/-- The place of the source to open in an editor, if it is there. -/
def view (win : Window) (fs : Files) : Except Fault (Option Place) :=
  match win.pfile with
  | none => .ok none
  | some p =>
      match p.withSuffix? ".m" with
      | none => .error (.emptyName p)
      | some m =>
          match fs.exists? m.toString with
          | .error e => .error (.lookup e)
          | .ok false => .ok none
          | .ok true => .ok (fs.locate m.toString).toOption

/-! ## Sessions -/

/-- What a user does. -/
inductive Action where
  /-- choose a file; the dialog answers with a path, empty if it was cancelled -/
  | select (answer : String)
  | convert
  | view
deriving Repr, DecidableEq

/-- What a step shows outside the window. -/
structure Report where
  /-- where a file dialog was opened -/
  asked : Option (Option Path) := none
  /-- what was opened in an editor -/
  opened : Option Place := none
  fault : Option Fault := none
deriving Repr, DecidableEq

end Window

/-- A window with the files it works on. -/
structure Session where
  window : Window := {}
  workspace : Workspace := {}

/-- One step of a session; `needed` is the height that the window asks for in it. -/
def Session.perform (host : Convert.Host) (inflate : Inflate) (s : Session)
    (action : Window.Action) (needed : Int) : Session × Window.Report :=
  match action with
  | .select answer =>
      let (win, fault) := s.window.select answer needed
      ({ s with window := win }, { asked := some s.window.folder, fault := fault })
  | .convert =>
      let (win, w, fault) := s.window.convert host inflate s.workspace needed
      ({ window := win, workspace := w }, { fault := fault })
  | .view =>
      match s.window.view s.workspace.files with
      | .ok opened => (s, { opened := opened })
      | .error fault => (s, { fault := some fault })

end Pcode
