import Pcode.Text.Quoted

set_option autoImplicit false

/-! # Paths

A path is a root and a list of names. Empty names and `.` are dropped when a path is read;
`..` stays, since what it leads to depends on the files. -/

namespace Pcode

/-- A path; the root is empty for a relative path. -/
structure Path where
  root : String := ""
  names : List String := []
deriving Repr, DecidableEq

namespace Path

/-- The parts of a text between slashes. -/
def splitSlash : List Char → List (List Char)
  | [] => [[]]
  | c :: s =>
      match splitSlash s with
      | [] => [[c]]
      | part :: parts => if c = '/' then [] :: part :: parts else (c :: part) :: parts

/-- Read a path. Two slashes at the start are a root of their own. -/
def ofString (s : String) : Path :=
  let cs := s.toList
  { root :=
      match cs with
      | '/' :: '/' :: '/' :: _ => "/"
      | '/' :: '/' :: _ => "//"
      | '/' :: _ => "/"
      | _ => ""
    names := ((splitSlash cs).map String.ofList).filter fun n => n != "" && n != "." }

/-- The text of a path; `.` for the empty one. -/
def toString (p : Path) : String :=
  if p.root == "" && p.names.isEmpty then "." else p.root ++ "/".intercalate p.names

/-- The last name of a path, empty if there is none. -/
def name (p : Path) : String := p.names.getLast?.getD ""

/-- The path without its last name. -/
def parent (p : Path) : Path := { p with names := p.names.dropLast }

/-- The path with a further name. -/
def child (p : Path) (name : String) : Path := { p with names := p.names ++ [name] }

/-- A name before and from its last dot on. -/
def splitName (name : String) : String × String :=
  let rev := name.toList.reverse
  let ext := rev.takeWhile (· != '.')
  match rev.dropWhile (· != '.') with
  | _ :: stem =>
      if ext.isEmpty || stem.isEmpty then (name, "")
      else (String.ofList stem.reverse, String.ofList ('.' :: ext.reverse))
  | [] => (name, "")

/-- The suffix of the last name: from its last dot on, unless the dot is its first or last
character. -/
def suffix (p : Path) : String := (splitName p.name).2

/-- The path with another suffix; `none` if it has no name. -/
def withSuffix? (p : Path) (suffix : String) : Option Path :=
  if p.name == "" then none
  else some (p.parent.child ((splitName p.name).1 ++ suffix))

/-- The message for a path without a name. -/
def emptyNameMessage (p : Path) : String :=
  "PosixPath(" ++ Text.quoted p.toString ++ ") has an empty name"

end Path

end Pcode
