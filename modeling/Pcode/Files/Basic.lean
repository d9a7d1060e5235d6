import Pcode.Files.Path

set_option autoImplicit false

/-! # Files

A tree of folders and files, seen from a current folder. A name in a path is looked up only
in a folder, so a path through a file or through a name that is not there fails, with the
cause of the first such name. -/

namespace Pcode

/-- What stands at a place. -/
inductive Node where
  | file (content : List UInt8)
  | folder
deriving Repr, DecidableEq

/-- A place: the names that lead to it from the current folder. Places above the current
folder begin with `..`, and places from the root on with `/`. -/
abbrev Place := List String

/-- The files and folders that are there, apart from the current folder and those above it. -/
structure Files where
  nodes : List (Place × Node) := []
deriving Repr

/-- Why an operation on a path fails. -/
inductive FileError.Cause where
  | notFound
  | exists
  | notFolder
  | isFolder
  | nameTooLong
  | nullByte
  /-- the user may not do it -/
  | denied
  /-- the device has no room for more bytes -/
  | noSpace
  /-- the device does not work -/
  | device
deriving Repr, DecidableEq

/-- A failed operation: the cause, and the path it was asked for. -/
structure FileError where
  cause : FileError.Cause
  path : String
deriving Repr, DecidableEq

def FileError.message (e : FileError) : String :=
  let numbered (text : String) := text ++ ": " ++ Text.quoted e.path
  match e.cause with
  | .notFound => numbered "[Errno 2] No such file or directory"
  | .exists => numbered "[Errno 17] File exists"
  | .notFolder => numbered "[Errno 20] Not a directory"
  | .isFolder => numbered "[Errno 21] Is a directory"
  | .nameTooLong => numbered "[Errno 36] File name too long"
  | .nullByte => "embedded null byte"
  | .denied => numbered "[Errno 13] Permission denied"
  -- of a file that is open already the path is not known any more
  | .noSpace => "[Errno 28] No space left on device"
  | .device => "[Errno 5] Input/output error"

namespace Files

/-- The folders that are always there. -/
def isBase (place : Place) : Bool := place.all (· == "..") || place == ["/"]

/-- What stands at a place. -/
def get? (fs : Files) (place : Place) : Option Node :=
  if isBase place then some .folder else fs.nodes.lookup place

/-- Put a node at a place. -/
def put (fs : Files) (place : Place) (node : Node) : Files :=
  ⟨(place, node) :: fs.nodes.filter (·.1 != place)⟩

/-- The place that a name leads to from a folder. -/
def step (place : Place) (name : String) : Place :=
  if name == "" || name == "." then place
  else if name == ".." then
    if place == ["/"] then place
    else if place.all (· == "..") then place ++ [".."]
    else place.dropLast
  else place ++ [name]

/-- The longest name a file may have, in bytes. -/
def maxNameSize : Nat := 255

/-- Follow names from a place, each looked up in a folder. -/
def walk (fs : Files) (place : Place) : List String → Except FileError.Cause Place
  | [] => .ok place
  | name :: names =>
      match fs.get? place with
      | none => .error .notFound
      | some (.file _) => .error .notFolder
      | some .folder =>
          if maxNameSize < name.utf8ByteSize then .error .nameTooLong
          else fs.walk (step place name) names

/-- The place of a path. -/
def locate (fs : Files) (path : String) : Except FileError Place :=
  let fail (cause : FileError.Cause) : Except FileError Place := .error ⟨cause, path⟩
  if path.toList.contains (Char.ofNat 0) then fail .nullByte
  else if path == "" then fail .notFound
  else
    let base : Place := if path.toList.head? == some '/' then ["/"] else []
    match fs.walk base ((Path.splitSlash path.toList).map String.ofList) with
    | .ok place => .ok place
    | .error cause => fail cause

/-- What stands at a path. -/
def find (fs : Files) (path : String) : Except FileError Node :=
  match fs.locate path with
  | .error e => .error e
  | .ok place =>
      match fs.get? place with
      | some node => .ok node
      | none => .error ⟨.notFound, path⟩

/-- Whether something stands at a path. A path that cannot be looked up at all is an error. -/
def exists? (fs : Files) (path : String) : Except FileError Bool :=
  match fs.find path with
  | .ok _ => .ok true
  | .error e => if e.cause == .nameTooLong then .error e else .ok false

/-- Whether a folder stands at a path. -/
def isFolder (fs : Files) (path : String) : Bool :=
  match fs.find path with
  | .ok .folder => true
  | _ => false

/-- The content of a file. -/
def read (fs : Files) (path : String) : Except FileError (List UInt8) :=
  match fs.find path with
  | .ok (.file content) => .ok content
  | .ok .folder => .error ⟨.isFolder, path⟩
  | .error e => .error e

/-- Open a file to be written; also the place of the file. It need not be there but for its folder,
and is empty as soon as it is open. -/
def create (fs : Files) (path : String) : Except FileError (Place × Files) :=
  match fs.locate path with
  | .error e => .error e
  | .ok place =>
      match fs.get? place, fs.get? place.dropLast with
      | some .folder, _ => .error ⟨.isFolder, path⟩
      | _, some .folder => .ok (place, fs.put place (.file []))
      | _, _ => .error ⟨.notFound, path⟩

/-- Write a file on a device that stores all it is given. -/
def write (fs : Files) (path : String) (content : List UInt8) : Except FileError Files :=
  match fs.create path with
  | .error e => .error e
  | .ok (place, fs) => .ok (fs.put place (.file content))

/-- Make a folder in a folder that is there. -/
def makeFolder (fs : Files) (path : String) : Except FileError Files :=
  match fs.locate path with
  | .error e => .error e
  | .ok place =>
      match fs.get? place with
      | some _ => .error ⟨.exists, path⟩
      | none => .ok (fs.put place .folder)

/-- Make a folder unless it is there. -/
def ensureFolder (fs : Files) (path : String) : Except FileError Files :=
  match fs.makeFolder path with
  | .ok fs => .ok fs
  | .error e => if e.cause != .notFound && fs.isFolder path then .ok fs else .error e

/-- Make a folder and those it stands in, unless they are there; the path is given by its root
and its names, the last one first. The files are also given if it fails, with the folders made
until then. -/
def ensureFolders (fs : Files) (root : String) : List String → Files × Except FileError Unit
  | [] => (fs, .ok ())
  | name :: above =>
      let path := (Path.mk root (name :: above).reverse).toString
      match fs.ensureFolder path with
      | .ok fs => (fs, .ok ())
      | .error e =>
          if e.cause == .notFound then
            match fs.ensureFolders root above with
            | (fs, .ok _) =>
                match fs.ensureFolder path with
                | .ok fs => (fs, .ok ())
                | .error e => (fs, .error e)
            | failed => failed
          else (fs, .error e)

/-- Put a file or folder at a place, with the folders above it. -/
def install (fs : Files) (path : String) (node : Node) : Files :=
  let p := Path.ofString path
  let place := p.names.foldl step (if p.root == "" then [] else ["/"])
  let folders := (List.range place.length).map place.take
  let fs := folders.foldl (fun fs f => if (fs.get? f).isSome then fs else fs.put f .folder) fs
  fs.put place node

/-- The files of `new` that are not in `old` with the same content, by their place. -/
def changes (old new : Files) : List (Place × List UInt8) :=
  new.nodes.filterMap fun (place, node) =>
    match node with
    | .folder => none
    | .file content =>
        if old.get? place == some (.file content) then none else some (place, content)

end Files

end Pcode
