import StackScript.Bytes

/-!
# Named files

The files that a command can read, by their names. A name is a path of parts with
slashes between them; a single dot stays where it is, and two dots go one part
back.

## Main definitions

* `Files.read`: the content of the file with a name.
* `Files.walk`: the files of a directory in order.
-/

namespace StackScript

/-- The parts of the name of a file, outermost first. -/
abbrev Path := List Bytes

namespace Path

/-- Add a part at the end. -/
def step (path : Path) (part : Bytes) : Path :=
  if part = [] ∨ part = [46] then path
  else if part = [46, 46] then path.dropLast
  else path ++ [part]

/-- The path with a name. -/
def ofName (name : Bytes) : Path := (name.split 47).foldl step []

/-- The name of a path; the directory that all paths start from is a dot. -/
def name (path : Path) : Bytes := if path = [] then [46] else Bytes.join [47] path

/-- Part by part, with the parts in byte order. -/
def le : Path → Path → Bool
  | [], _ => true
  | _ :: _, [] => false
  | a :: p, b :: q => if a = b then le p q else Bytes.le a b

end Path

/-- The part of a name from the last point on, if it is in the last part of the path. -/
def extension (name : Bytes) : Bytes :=
  let last := (name.reverse.takeWhile (· ≠ 47)).reverse
  match Bytes.splitLast 46 last with
  | some (_, suffix) => 46 :: suffix
  | none => []

/-- Why a file cannot be read. -/
inductive FileError
  | missing
  | notDirectory
  | isDirectory
  deriving DecidableEq, Repr

namespace FileError

/-- The reason. -/
def reason : FileError → String
  | .missing => "no such file or directory"
  | .notDirectory => "not a directory"
  | .isDirectory => "is a directory"

/-- What is said when a file cannot be read. A directory can be opened, but not read. -/
def message (name : Bytes) (e : FileError) : Bytes :=
  (if e = .isDirectory then "read " else "open ") ++ name ++ ": " ++ e.reason

end FileError

/-- Files with their contents. -/
abbrev Files := List (Path × Bytes)

namespace Files

/-- What a name denotes. -/
inductive Status
  | file (content : Bytes)
  | directory
  | missing
  /-- A part of the name before the last denotes a file. -/
  | notDirectory

/-- What a name denotes. A name that ends with a slash denotes no file. -/
def status (files : Files) (name : Bytes) : Status :=
  let path := Path.ofName name
  if name = [] ∨ name.head? = some 47 then .missing
  else
    match files.lookup path with
    | some content => if name.getLast? = some 47 then .notDirectory else .file content
    | none =>
      if path = [] ∨ files.any fun f => path.isPrefixOf f.1 then .directory
      else if files.any fun f => f.1.isPrefixOf path then .notDirectory
      else .missing

/-- The content of the file with a name. -/
def read (files : Files) (name : Bytes) : Except FileError Bytes :=
  match files.status name with
  | .file content => .ok content
  | .directory => .error .isDirectory
  | .missing => .error .missing
  | .notDirectory => .error .notDirectory

/-- The files in a directory and in the directories inside it, by their paths from there on. In each
directory they are in the order of their names, and the files of a directory inside it stand where its
name does. -/
def walk (files : Files) (directory : Path) : List (Path × Bytes) :=
  ((files.filter fun f => directory.isPrefixOf f.1).map fun f => (f.1.drop directory.length, f.2)).mergeSort
    fun f g => f.1.le g.1

end Files

end StackScript
