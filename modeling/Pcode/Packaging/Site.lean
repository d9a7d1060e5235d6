import Pcode.Files.Basic
import Pcode.Shell

set_option autoImplicit false

/-! # Where packages are made

A site is the folder with everything that goes into a package, and what is known of the system
around it. -/

namespace Pcode.Packaging

/-- The folder of the program and the system around it. -/
structure Site where
  /-- the text of the path of the folder -/
  root : String
  files : Files := {}
  platform : String := "linux"
  /-- the version of the interpreter, the most significant part first -/
  version : List Int := [3, 12]
  interpreter : String := "python"
  /-- whether the compiler is installed beside the interpreter -/
  hasCompiler : Bool := true
  /-- the folder of 32-bit programs, if the system names one -/
  programFolder : Option String := none
deriving Repr

/-- A path with another path below it; a path from the root on replaces what stands before. -/
def joinPath (above below : String) : String :=
  if below.toList.head? == some '/' then below
  else if above == "" || above.toList.getLast? == some '/' then above ++ below
  else above ++ "/" ++ below

/-- A path with further names below it. -/
def joinPaths (above : String) (names : List String) : String := names.foldl joinPath above

namespace Site

/-- The path of names below the folder. -/
def path (site : Site) (names : List String) : String := joinPaths site.root names

/-- What stands at a path, which may begin with the path of the folder. -/
def find (site : Site) (path : String) : Option Node :=
  let base := site.root.toList ++ ['/']
  let path :=
    if base.isPrefixOf path.toList then String.ofList (path.toList.drop base.length) else path
  (site.files.find path).toOption

/-- Whether a file stands at a path. -/
def isFile (site : Site) (path : String) : Bool :=
  match site.find path with
  | some (.file _) => true
  | _ => false

/-- Whether a folder stands at a path. -/
def isFolder (site : Site) (path : String) : Bool := site.find path == some .folder

def isWindows (site : Site) : Bool := site.platform == "win32"

/-- Whether the interpreter is too new for the bundled compiler of C. -/
def isRecent (site : Site) : Bool := !site.version.lex [3, 13]

/-- The folder of 32-bit programs. -/
def programs (site : Site) : String := site.programFolder.getD "C:\\Program Files (x86)"

end Site

end Pcode.Packaging
