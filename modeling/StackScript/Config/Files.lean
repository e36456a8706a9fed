import StackScript.Config
import StackScript.Files

/-!
# Files of settings

The ending of a file's name tells how its settings are written. How they are read
from its text is left to the surroundings; what was read is checked.

## Main definitions

* `Config.Format`: the ways of writing settings.
* `Config.loadWith`: settings from a file.
-/

namespace StackScript.Config

/-- A way of writing settings. -/
inductive Format
  | toml
  | yaml
  deriving DecidableEq, Repr

/-- The way of writing in files with an ending, if it is known. -/
def Format.ofExtension? (extension : Bytes) : Option Format :=
  let ending := extension.map Bytes.lowerByte
  if ending = Bytes.ofString ".toml" then some .toml
  else if ending = Bytes.ofString ".yaml" ∨ ending = Bytes.ofString ".yml" then some .yaml
  else none

/-- Why a file gives no settings. -/
inductive LoadError
  | unreadable (name : Bytes) (e : FileError)
  /-- The file is not well-formed, or a setting is of the wrong kind. -/
  | malformed (name : Bytes)
  | format (e : Invalid)
  | invalid (name : Bytes) (e : Invalid)

/-- What is said about the fault. -/
def LoadError.message : LoadError → Bytes
  | .unreadable name e => "cannot read " ++ name ++ ": " ++ e.message name
  | .malformed name => "parse error in " ++ name
  | .format e => e.message
  | .invalid name e => name ++ ": " ++ e.message

/-- The settings in the file with a name. What its text does not give keeps its default. -/
def loadWith (decode : Format → Config → Bytes → Option Config)
    (read : Bytes → Except FileError Bytes) (name : Bytes) : Except LoadError Config :=
  match read name with
  | .error e => .error (.unreadable name e)
  | .ok content =>
    match Format.ofExtension? (extension name) with
    | none => .error (.format (.format (extension name)))
    | some format =>
      match decode format .default content with
      | none => .error (.malformed name)
      | some c =>
        match c.check with
        | .ok () => .ok c
        | .error e => .error (.invalid name e)

end StackScript.Config
