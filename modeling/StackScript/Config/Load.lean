import StackScript.Config.Files
import StackScript.Toml.Document
import StackScript.Yaml.Meaning

/-!
# Settings from files

A file of settings has two sections, each with settings of its own. A setting that
the file does not give keeps its default, and names that are no settings are passed
over.

## Main definitions

* `Setting`: the settings that a file can give.
* `Config.decode`: settings from a text.
* `Config.load`: settings from a file.
-/

namespace StackScript

/-- A setting. -/
inductive Setting
  | stack
  | globals
  | frames
  | limit
  | verbosity
  | path
  deriving DecidableEq, Repr

namespace Setting

/-- The sections of a file and the settings in them. -/
def sections : List (String × List (String × Setting)) :=
  [("vm",
      [("stack-size", .stack), ("globals-size", .globals), ("max-frames", .frames),
        ("instruction-limit", .limit)]),
    ("log", [("verbosity", .verbosity), ("path", .path)])]

/-- What a file gives for a setting. -/
inductive Given
  | integer (n : Int)
  | text (s : Bytes)

/-- Change a setting, if what is given is of its kind. -/
def give? (c : Config) : Setting → Given → Option Config
  | .stack, .integer n => some { c with stack := n }
  | .globals, .integer n => some { c with globals := n }
  | .frames, .integer n => some { c with frames := n }
  | .limit, .integer n => some { c with limit := n }
  | .verbosity, .integer n => some { c with verbosity := n }
  | .path, .text s => some { c with path := s }
  | _, _ => none

end Setting

namespace Config

/-! ## Tables of settings -/

/-- The small Latin letter that a character is when case is disregarded; the long s and the sign of the
kelvin are letters too. -/
def foldCase (c : Char) : Char :=
  if c = '\u017f' then 's' else if c = '\u212a' then 'k' else c.toLower

/-- A name without regard to case. -/
def sameName (name : String) (key : Bytes) : Bool :=
  key.runes.map (fun
    | .char c => some (foldCase c)
    | .stray _ => none) == name.toList.map some

/-- What a table gives for a setting. -/
def given? : Toml.Node → Option Setting.Given
  | .leaf (.integer n) => some (.integer n)
  | .leaf (.text s) => some (.text s)
  | _ => none

/-- The settings with those in a section of a table. -/
def ofEntries? (settings : List (String × Setting)) (c : Config) : Toml.Table → Option Config
  | [] => some c
  | (key, node) :: rest =>
    match settings.find? fun s => sameName s.1 key with
    | none => ofEntries? settings c rest
    | some (_, setting) => do
      let g ← given? node
      let c ← setting.give? c g
      ofEntries? settings c rest

/-- The settings with those in a table. -/
def ofTable? (c : Config) : Toml.Table → Option Config
  | [] => some c
  | (key, node) :: rest =>
    match Setting.sections.find? fun s => sameName s.1 key with
    | none => ofTable? c rest
    | some (_, settings) =>
      match node with
      | .table entries => (ofEntries? settings c entries).bind fun c => ofTable? c rest
      | _ => none

/-! ## Indented documents -/

/-- What a node gives for a setting, unless it stands for nothing. -/
def givenNode? (setting : Setting) (node : Yaml.Node) : Option (Option Setting.Given) :=
  if setting = .path then node.text?.map fun s => s.map .text
  else node.integer?.map fun n => n.map .integer

/-- The settings with those in a section of a document. -/
def ofFields? (settings : List (String × Setting)) (c : Config) : List (Bytes × Yaml.Node) → Option Config
  | [] => some c
  | (key, node) :: rest =>
    match settings.find? fun s => Bytes.ofString s.1 = key with
    | none => ofFields? settings c rest
    | some (_, setting) =>
      match givenNode? setting node with
      | none => none
      | some none => ofFields? settings c rest
      | some (some g) => (setting.give? c g).bind fun c => ofFields? settings c rest

/-- The settings with those in the fields of a document. -/
def ofSections? (c : Config) : List (Bytes × Yaml.Node) → Option Config
  | [] => some c
  | (key, node) :: rest =>
    match Setting.sections.find? fun s => Bytes.ofString s.1 = key with
    | none => ofSections? c rest
    | some (_, settings) => do
      let fields ← node.fields?
      let c ← ofFields? settings c fields
      ofSections? c rest

/-! ## Files -/

/-- The settings with those in a text. -/
def decode (format : Format) (c : Config) (content : Bytes) : Option Config :=
  match format with
  | .toml => (Toml.parse? content).bind (ofTable? c)
  | .yaml => ((Yaml.parse? content).bind Yaml.Node.fields?).bind (ofSections? c)

/-- The settings in the file with a name. -/
def load (read : Bytes → Except FileError Bytes) (name : Bytes) : Except LoadError Config :=
  loadWith decode read name

end Config

end StackScript
