import StackScript.Machine

/-!
# Settings

The sizes of the machine and the settings of the log. Settings may be out of
range until they are checked; a machine takes its default size for a size that
is not positive, and no limit for a negative one.
-/

namespace StackScript

/-- Settings. -/
structure Config where
  stack : Int
  globals : Int
  frames : Int
  /-- The most instructions a run may execute; zero is no limit. -/
  limit : Int
  verbosity : Int
  /-- The file that the log goes to. -/
  path : Bytes
  deriving DecidableEq, Repr

namespace Config

/-- The settings where none are given. -/
def default : Config := ⟨2048, 65536, 1024, 0, 0, []⟩

instance : Inhabited Config := ⟨default⟩

/-- The greatest size of the global store. -/
def maxGlobals : Nat := 65536

/-- A size, or the default for it if it is not positive. -/
def sizeOr (fallback : Nat) (n : Int) : Nat := if 0 < n then n.toNat else fallback

/-- The sizes of a machine with these settings. -/
def sizes (c : Config) : Sizes := ⟨sizeOr 2048 c.stack, sizeOr 1024 c.frames, c.limit.toNat⟩

/-- The size of the global store with these settings. -/
def globalsSize (c : Config) : Nat := sizeOr 65536 c.globals

/-- The file that the log goes to, if there is one. -/
def logPath (c : Config) : Option Bytes := if c.path = [] then none else some c.path

/-- What is wrong with settings. -/
inductive Invalid
  | stack (n : Int)
  | globals (n : Int)
  | globalsTooLarge (n : Int)
  | frames (n : Int)
  | limit
  | verbosity (n : Int)
  /-- The name of the file does not tell how to read it. -/
  | format (extension : Bytes)
  deriving DecidableEq, Repr

/-- What is said about the fault. -/
def Invalid.message (e : Invalid) : Bytes :=
  "invalid configuration: " ++
    match e with
    | .stack n => ("stack-size must be positive, got " ++ Bytes.ofInt n : Bytes)
    | .globals n => "globals-size must be positive, got " ++ Bytes.ofInt n
    | .globalsTooLarge n =>
      "globals-size " ++ Bytes.ofInt n ++ " exceeds " ++ Bytes.ofNat maxGlobals
    | .frames n => "max-frames must be positive, got " ++ Bytes.ofInt n
    | .limit => "instruction-limit must not be negative"
    | .verbosity n => "verbosity " ++ Bytes.ofInt n ++ " out of range"
    | .format extension => "unknown config format " ++ extension.quoted

/-- Settings are in range; of several faults the first is reported. -/
def check (c : Config) : Except Invalid Unit := do
  if c.stack ≤ 0 then throw (.stack c.stack)
  if c.globals ≤ 0 then throw (.globals c.globals)
  if (maxGlobals : Int) < c.globals then throw (.globalsTooLarge c.globals)
  if c.frames ≤ 0 then throw (.frames c.frames)
  if c.limit < 0 then throw .limit
  if c.verbosity < -4 ∨ 2 < c.verbosity then throw (.verbosity c.verbosity)

end Config

end StackScript
