/-!
# Paths and disks

A path is shown without empty and `.` components. A disk is a list of files under the current
folder, and every component before a file's name is a folder.
-/

set_option autoImplicit false

namespace Reckoner

namespace Path

/-- The components of a path that name something. -/
def components (path : String) : List String :=
  (path.splitOn "/").filter fun part => part != "" && part != "."

/-- What a path begins with when it does not begin in the current folder. Exactly two slashes
stay two. -/
def root (path : String) : String :=
  match path.toList with
  | '/' :: '/' :: '/' :: _ => "/"
  | '/' :: '/' :: _ => "//"
  | '/' :: _ => "/"
  | _ => ""

/-- The path as it is shown. -/
def normal (path : String) : String :=
  let shown := root path ++ String.intercalate "/" (components path)
  if shown = "" then "." else shown

/-- The file beside a program that holds its trees. -/
def ofTrees (path : String) : String := path ++ ".ast.json"

/-- The file of the trace. -/
def ofTrace : String := "debug.txt"

end Path

/-- What is found at a path. -/
inductive Entry where
  | missing
  | folder
  | file (text : String)

def Entry.isFolder : Entry → Bool
  | .folder => true
  | _ => false

/-- Files by their paths from the current folder. -/
structure Disk where
  files : List (String × String) := []

namespace Disk

def joined (components : List String) : String := String.intercalate "/" components

def isFolder (d : Disk) (components : List String) : Bool :=
  components.isEmpty ||
    d.files.any fun (name, _) => (joined components ++ "/").isPrefixOf name

/-- The components from the current folder, with `..` resolved; none if the way leads through
something that is no folder, or out of the current folder. `done` holds the components taken so
far, last first. -/
def resolve? (d : Disk) : List String → List String → Option (List String)
  | done, [] => some done.reverse
  | done, part :: rest =>
    if !d.isFolder done.reverse then none
    else if part = ".." then
      match done with
      | [] => none
      | _ :: outer => d.resolve? outer rest
    else d.resolve? (part :: done) rest

/-- What a path leads to. Outside the current folder only the folders around it and the root are
known. -/
def find (d : Disk) (path : String) : Entry :=
  if Path.root path ≠ "" then (if Path.components path = [] then .folder else .missing)
  else if (Path.components path).all (· == "..") then .folder
  else match d.resolve? [] (Path.components path) with
    | none => .missing
    | some components =>
      match d.files.lookup (joined components) with
      | some text => .file text
      | none => if d.isFolder components then .folder else .missing

/-- The disk with a file written. -/
def write (d : Disk) (name text : String) : Disk :=
  ⟨(name, text) :: d.files.filter fun (n, _) => n != name⟩

end Disk

end Reckoner
