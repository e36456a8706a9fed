import StackScript.Bytes

/-!
# Tables of settings

A document of settings is a tree of tables. A statement opens a table, opens one
more table of a list, or gives a value to a key; a key may name a table inside a
table, part by part.

## Main definitions

* `Toml.Literal`, `Toml.Statement`: values and statements as they are written.
* `Toml.Node`: what a key holds.
* `Toml.Table.find?`, `Toml.Table.put?`: look up and store along a key.
-/

namespace StackScript.Toml

/-- The parts of a key, outermost first. -/
abbrev Key := List Bytes

/-- A value as it is written. -/
inductive Literal
  | text (s : Bytes)
  | integer (n : Int)
  | float
  | boolean (b : Bool)
  /-- A date, a time, or both. -/
  | moment
  | array (items : List Literal)
  /-- A table written as a value. -/
  | inline (pairs : List (Key × Literal))

/-- One line of a document. -/
inductive Statement
  /-- The pairs that follow belong to this table. -/
  | table (key : Key)
  /-- The pairs that follow belong to a new table at the end of this list of tables. -/
  | append (key : Key)
  | pair (key : Key) (value : Literal)

/-- What a key holds. -/
inductive Node
  | leaf (value : Literal)
  | table (entries : List (Bytes × Node))
  /-- A list of tables, the newest first. -/
  | tables (newest : List (Bytes × Node)) (older : List (List (Bytes × Node)))

/-- The keys of a table and what they hold. -/
abbrev Table := List (Bytes × Node)

namespace Node

/-- The table that a key leads on into: of a list of tables the newest. -/
def inner? : Node → Option Table
  | .leaf _ => none
  | .table entries => some entries
  | .tables newest _ => some newest

/-- The node with another table in place of that one. -/
def withInner (entries : Table) : Node → Node
  | .tables _ older => .tables entries older
  | _ => .table entries

end Node

namespace Table

/-- What a key of one part holds. -/
def get? (t : Table) (name : Bytes) : Option Node := t.lookup name

/-- Store under a key of one part. -/
def set (t : Table) (name : Bytes) (node : Node) : Table :=
  if (t.get? name).isSome then t.map fun entry => if entry.1 = name then (name, node) else entry
  else t ++ [(name, node)]

/-- What a key holds. -/
def find? (t : Table) : Key → Option Node
  | [] => none
  | [name] => t.get? name
  | name :: rest => ((t.get? name).bind Node.inner?).bind fun u => find? u rest

/-- Store under a key all of whose parts but the last lead on into tables. -/
def put? (t : Table) (node : Node) : Key → Option Table
  | [] => none
  | [name] => some (t.set name node)
  | name :: rest => do
    let outer ← t.get? name
    let u ← outer.inner?
    let u ← put? u node rest
    pure (t.set name (outer.withInner u))

end Table

end StackScript.Toml
