import StackScript.Files
import StackScript.Suite

/-!
# Files of suites

A file with the ending `.yaml` holds a suite. All such files of a directory are
read in order; one that is not well-formed, or has a case without code and
without steps, is a fault of the whole. How a suite is read from a text is left to
the surroundings.

## Main definitions

* `Suite.loadWith`: the suites in a directory.
-/

namespace StackScript.Suite

/-- Why suites cannot be read. -/
inductive LoadError
  /-- The directory cannot be found. -/
  | directory (name : Bytes) (e : FileError)
  /-- The file is not well-formed, or a field is of the wrong kind. -/
  | malformed (name : Bytes)
  /-- A case has neither code nor steps. -/
  | emptyCase (file case : Bytes)

/-- What is said about the fault. -/
def LoadError.message : LoadError → Bytes
  | .directory name e => "lstat " ++ name ++ ": " ++ e.reason
  | .malformed name => name ++ ": malformed"
  | .emptyCase file case => file ++ ": test " ++ case.quoted ++ " has neither code nor steps"

/-- The suite in a file. -/
def readWith (decode : Bytes → Option Suite) (name content : Bytes) : Except LoadError Suite :=
  match decode content with
  | none => .error (.malformed name)
  | some s =>
    match s.cases.find? fun c => c.code.isEmpty && c.steps.isEmpty with
    | some c => .error (.emptyCase name c.name)
    | none => .ok s

/-- The files under a name with their full names, and the names that reports have for them. -/
def filesUnder (files : Files) (directory : Bytes) : Except LoadError (List (Bytes × Bytes × Bytes)) :=
  match files.status directory with
  | .missing => .error (.directory directory .missing)
  | .notDirectory => .error (.directory directory .notDirectory)
  | .file content => .ok [(directory, [46], content)]
  | .directory =>
    let path := Path.ofName directory
    .ok ((files.walk path).map fun (p, content) => (Path.name (path ++ p), p.name, content))

/-- The suites in a directory, each with the name of its file. -/
def loadWith (decode : Bytes → Option Suite) (files : Files) (directory : Bytes) :
    Except LoadError (List (Bytes × Suite)) := do
  let found ← filesUnder files directory
  (found.filter fun f => extension f.1 = Bytes.ofString ".yaml").mapM fun (name, file, content) => do
    let s ← readWith decode name content
    pure (file, s)

/-- The reports on all cases in a directory. -/
def runAll [Casing] (fuel : Nat) (config : Config) (suites : List (Bytes × Suite)) : List Report :=
  suites.flatMap fun (file, s) => s.run fuel config file

end StackScript.Suite
