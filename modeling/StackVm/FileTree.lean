import StackVm.File

/-!
# File trees

Files held in memory, and what stands at a path among them (`FileTree.find`).
A path is a list of names with slashes between them, followed from the root
if it starts with a slash and from the working directory otherwise:

* an empty name and `.` stay where they are, and `..` goes up, at the root
  nowhere;
* any name, also the empty one after a last slash, needs a directory to stand
  in;
* a name has at most 255 bytes, and a path 4095.

`FileTree.ofFiles` puts files into a working directory of their own.
-/

namespace StackVm

/-- A place in a file tree: the names that lead to it from the root. -/
abbrev Place := List String

/-- Files held in memory. Directories are the places that files and the
working directory stand in, and the working directory itself. -/
structure FileTree where
  workingDirectory : Place
  files : List (Place × List UInt8)
  deriving DecidableEq, Repr

/-- What stands at a place. -/
inductive Node
  | absent
  | directory
  | file (bytes : List UInt8)
  deriving DecidableEq, Repr

/-- What a node is to a program that opens it. -/
def Node.toFile : Node → File
  | absent => .ofFault .missing
  | directory => .ofFault .isDirectory
  | file bytes => .regular bytes

namespace FileTree

/-- The most bytes a name may have. -/
def maxName : Nat := 255

/-- The most bytes a path may have. -/
def maxPath : Nat := 4095

/-- Whether a directory stands at a place where there is no file. -/
def isDirectory (t : FileTree) (place : Place) : Bool :=
  place.isPrefixOf t.workingDirectory || t.files.any fun (file, _) => place.isPrefixOf file

/-- What stands at a place. -/
def node (t : FileTree) (place : Place) : Node :=
  match t.files.lookup place with
  | some bytes => .file bytes
  | none => if t.isDirectory place then .directory else .absent

/-- What stands at the end of the names that lead on from a place. -/
def follow (t : FileTree) (place : Place) : List String → File
  | [] => (t.node place).toFile
  | name :: rest =>
    match t.node place with
    | .absent => .ofFault .missing
    | .file _ => .ofFault .notDirectory
    | .directory =>
      if name = "" ∨ name = "." then t.follow place rest
      else if name = ".." then t.follow place.dropLast rest
      else if name.utf8ByteSize > maxName then .ofFault .nameTooLong
      else t.follow (place ++ [name]) rest

/-- What stands at a path. There is nothing at the empty one. -/
def find (t : FileTree) (path : String) : File :=
  if path = "" then .ofFault .missing
  else if path.utf8ByteSize > maxPath then .ofFault .nameTooLong
  else t.follow (if path.startsWith "/" then [] else t.workingDirectory) (path.splitOn "/")

/-- Files in a working directory of their own. It stands under `/tmp`, with a
name that no path spells: the empty one. Every tree has an empty file
`/dev/null`. -/
def ofFiles (files : List (String × List UInt8)) : FileTree :=
  let workingDirectory := ["tmp", ""]
  { workingDirectory
    files := (["dev", "null"], []) ::
      files.map fun (name, bytes) => (workingDirectory ++ name.splitOn "/", bytes) }

end FileTree

end StackVm
