import StackScript.Toml.Statement

/-!
# Documents of settings

The statements of a document build up its root table. A table that exists only
because something inside it was named is *implied*: it may be given once more by
its own name. Anything else that is given twice is a fault. Naming a part of a
key implies that part anew, so that pairs may be added to a table part by part.

## Main definitions

* `Toml.Draft`: the table so far, and which keys are implied.
* `Toml.parse?`: the root table of a document.
-/

namespace StackScript.Toml

/-- A document under construction. -/
structure Draft where
  root : Table
  implied : List Key

/-- Steps that extend a document, or find a fault in it. -/
abbrev Build := StateT Draft Option

namespace Build

/-- The key is implied. -/
def imply (key : Key) : Build Unit := modify fun d => { d with implied := key :: d.implied }

/-- Store under a key. -/
def put (key : Key) (node : Node) : Build Unit := do
  let d ← get
  let root ← d.root.put? node key
  set { d with root := root }

/-- Give a key what it holds. What an implied key holds already is kept. -/
def declare (key : Key) (node : Node) : Build Unit := do
  let d ← get
  if (d.root.find? key).isSome then
    guard (key ∈ d.implied)
    set { d with implied := d.implied.filter (· ≠ key) }
  else put key node

/-- Every key on the way to a key leads on into a table; those that are missing are made and implied. -/
def enter (outer : Key) : Key → Build Unit
  | [] | [_] => pure ()
  | name :: rest => do
    let key := outer ++ [name]
    match (← get).root.find? key with
    | none => do imply key; put key (.table [])
    | some node => guard node.inner?.isSome
    enter key rest

/-- Open the table with a key. -/
def openTable (key : Key) : Build Unit := do
  enter [] key
  declare key (.table [])

/-- Open one more table at the end of the list of tables with a key. -/
def appendTable (key : Key) : Build Unit := do
  enter [] key
  match (← get).root.find? key with
  | none => put key (.tables [] [])
  | some (.tables newest older) => put key (.tables [] (newest :: older))
  | some _ => failure

/-- Open the tables that the parts of a key but the last name inside a table. The full key is
returned. -/
def descend (outer : Key) : Key → Build Key
  | [] => pure outer
  | [name] => pure (outer ++ [name])
  | name :: rest => do
    let key := outer ++ [name]
    imply key
    openTable key
    descend key rest

mutual

/-- Fill in the tables that are written inside the value of a key; `listed` tells whether the value is
an item of an array. -/
def fill (key : Key) (listed : Bool) : Literal → Build Unit
  | .inline pairs => do
    imply key
    if listed then appendTable key else openTable key
    fillPairs key pairs
  | .array items => fillItems key items
  | _ => pure ()

/-- Fill in the tables inside the items of an array. -/
def fillItems (key : Key) : List Literal → Build Unit
  | [] => pure ()
  | item :: rest => do
    fill key true item
    fillItems key rest

/-- Give values to keys of a table. -/
def fillPairs (outer : Key) : List (Key × Literal) → Build Unit
  | [] => pure ()
  | (key, value) :: rest => do
    let full ← descend outer key
    fill full false value
    declare full (.leaf value)
    fillPairs outer rest

end

/-- Carry out statements; the pairs before the next header belong to the table `outer`. -/
def execute (outer : Key) : List Statement → Build Unit
  | [] => pure ()
  | .table key :: rest => do
    openTable key
    execute key rest
  | .append key :: rest => do
    appendTable key
    execute key rest
  | .pair key value :: rest => do
    fillPairs outer [(key, value)]
    execute outer rest

end Build

/-- The root table of a document, if the document is well-formed. -/
def parse? (s : Bytes) : Option Table := do
  let statements ← read? s
  let (_, d) ← (Build.execute [] statements).run ⟨[], []⟩
  pure d.root

end StackScript.Toml
