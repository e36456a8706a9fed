import StackScript.Yaml.Token.Scan

/-!
# Nodes of indented documents

A document is a tree of texts, lists and mappings. A node may have a name, and
another place may stand for it by that name.

The readers that call each other take a number that falls with every call; a
document is read with fewer than four calls for each of its tokens.

## Main definitions

* `Yaml.Node`: a tree.
* `Yaml.parse?`: the first document of a text.
-/

namespace StackScript.Yaml

/-- A node. -/
inductive Node
  | scalar (tag : Option Tag) (plain : Bool) (text : Bytes)
  | sequence (items : List Node)
  | mapping (pairs : List (Node × Node))
  /-- A name that stands for a node. -/
  | alias (name : Bytes) (target : Node)
  /-- A name that stands for a node around it. -/
  | knot (name : Bytes)

/-- A place where nothing is written. -/
def Node.empty : Node := .scalar none true []

/-- The tokens that are left, and the nodes that have names. -/
structure Composer where
  tokens : List Token
  /-- The names in use, newest first, and the numbers of their nodes. -/
  names : List (Bytes × Nat)
  /-- The nodes that are complete, by number. -/
  complete : List (Nat × Node)
  /-- The number of the next node with a name. -/
  fresh : Nat

/-- Steps that read nodes, or find a fault. -/
abbrev Compose := StateT Composer Option

namespace Compose

/-- The next token. -/
def peek : Compose Token := do
  match (← get).tokens with
  | [] => failure
  | t :: _ => pure t

/-- Pass over a token. -/
def skip : Compose Unit := modify fun s => { s with tokens := s.tokens.drop 1 }

/-- The node that a name stands for. -/
def resolve (name : Bytes) : Compose Node := do
  let s ← get
  match s.names.lookup name with
  | none => failure
  | some n =>
    match s.complete.lookup n with
    | some node => pure (.alias name node)
    | none => pure (.knot name)

/-- Give a name to the node that begins here. -/
def begin (name : Bytes) : Compose Nat := do
  let n := (← get).fresh
  modify fun s => { s with names := (name, n) :: s.names, fresh := n + 1 }
  pure n

/-- The node with a number is complete. -/
def complete (n : Nat) (node : Node) : Compose Unit :=
  modify fun s => { s with complete := (n, node) :: s.complete }

/-- The name and the tag before a node, in either order. -/
def properties : Compose (Option Bytes × Option Tag) := do
  match ← peek with
  | .anchor name => do
    skip
    match ← peek with
    | .tag t => do skip; pure (some name, some t)
    | _ => pure (some name, none)
  | .tag t => do
    skip
    match ← peek with
    | .anchor name => do skip; pure (some name, some t)
    | _ => pure (none, some t)
  | _ => pure (none, none)

mutual

/-- A node. In a block it may be indented; an indented list may also begin at the column of its key. -/
def node (depth : Nat) (inBlock unindented : Bool) : Compose Node :=
  match depth with
  | 0 => failure
  | depth + 1 => do
    match ← peek with
    | .alias name => do skip; resolve name
    | _ => do
      let (name, tag) ← properties
      match name with
      | none => content depth inBlock unindented tag tag.isSome
      | some name => do
        let n ← begin name
        let x ← content depth inBlock unindented tag true
        complete n x
        pure x

/-- A node after its name and tag; with either of them nothing need follow. -/
def content (depth : Nat) (inBlock unindented : Bool) (tag : Option Tag) (optional : Bool) : Compose Node :=
  match depth with
  | 0 => failure
  | depth + 1 => do
    match ← peek, inBlock, unindented with
    | .blockEntry, _, true => entries depth true []
    | .scalar plain text, _, _ => do skip; pure (.scalar tag plain text)
    | .flowSequence, _, _ => do skip; items depth true []
    | .flowMapping, _, _ => do skip; flowPairs depth true []
    | .blockSequence, true, _ => do skip; entries depth false []
    | .blockMapping, true, _ => do skip; pairs depth []
    | _, _, _ => if optional then pure (.scalar tag true []) else failure

/-- The entries of an indented list. -/
def entries (depth : Nat) (unindented : Bool) (acc : List Node) : Compose Node :=
  match depth with
  | 0 => failure
  | depth + 1 => do
    match ← peek with
    | .blockEntry => do
      skip
      let t ← peek
      if t = .blockEntry ∨ t = .blockEnd ∨ (unindented ∧ (t = .key ∨ t = .value)) then
        entries depth unindented (.empty :: acc)
      else
        let x ← node depth true false
        entries depth unindented (x :: acc)
    | t =>
      if unindented then pure (.sequence acc.reverse)
      else if t = .blockEnd then do skip; pure (.sequence acc.reverse)
      else failure

/-- The pairs of an indented mapping. -/
def pairs (depth : Nat) (acc : List (Node × Node)) : Compose Node :=
  match depth with
  | 0 => failure
  | depth + 1 => do
    match ← peek with
    | .key => do
      skip
      let k ← blockPart depth
      let v ← blockValue depth
      pairs depth ((k, v) :: acc)
    | .value => failure
    | .blockEnd => do skip; pure (.mapping acc.reverse)
    | _ => failure

/-- A key or a value of an indented mapping, which may be missing. -/
def blockPart (depth : Nat) : Compose Node :=
  match depth with
  | 0 => failure
  | depth + 1 => do
    let t ← peek
    if t = .key ∨ t = .value ∨ t = .blockEnd then pure .empty else node depth true true

/-- The value of a pair of an indented mapping. -/
def blockValue (depth : Nat) : Compose Node :=
  match depth with
  | 0 => failure
  | depth + 1 => do
    match ← peek with
    | .value => do skip; blockPart depth
    | _ => pure .empty

/-- The items of a list in brackets. A key there begins a mapping of one pair. -/
def items (depth : Nat) (first : Bool) (acc : List Node) : Compose Node :=
  match depth with
  | 0 => failure
  | depth + 1 => do
    if (← peek) = .flowSequenceEnd then
      skip
      pure (.sequence acc.reverse)
    else
      if !first then
        if (← peek) ≠ .flowEntry then failure
        skip
      match ← peek with
      | .flowSequenceEnd => do skip; pure (.sequence acc.reverse)
      | .key => do
        skip
        let t ← peek
        let k ←
          if t = .value ∨ t = .flowEntry ∨ t = .flowSequenceEnd then do skip; pure Node.empty
          else node depth false false
        let v ← flowValue depth .flowSequenceEnd
        items depth false (.mapping [(k, v)] :: acc)
      | _ => do
        let x ← node depth false false
        items depth false (x :: acc)

/-- The value of a pair in brackets or braces, which may be missing. -/
def flowValue (depth : Nat) (close : Token) : Compose Node :=
  match depth with
  | 0 => failure
  | depth + 1 => do
    match ← peek with
    | .value => do
      skip
      let t ← peek
      if t = .flowEntry ∨ t = close then pure .empty else node depth false false
    | _ => pure .empty

/-- The pairs of a mapping in braces. -/
def flowPairs (depth : Nat) (first : Bool) (acc : List (Node × Node)) : Compose Node :=
  match depth with
  | 0 => failure
  | depth + 1 => do
    if (← peek) = .flowMappingEnd then
      skip
      pure (.mapping acc.reverse)
    else
      if !first then
        if (← peek) ≠ .flowEntry then failure
        skip
      match ← peek with
      | .flowMappingEnd => do skip; pure (.mapping acc.reverse)
      | .key => do
        skip
        let t ← peek
        let k ←
          if t = .value ∨ t = .flowEntry ∨ t = .flowMappingEnd then pure Node.empty
          else node depth false false
        let v ← flowValue depth .flowMappingEnd
        flowPairs depth false ((k, v) :: acc)
      | _ => do
        let k ← node depth false false
        flowPairs depth false ((k, .empty) :: acc)

end

/-- The directives before a document; a version may be given once. -/
def directives : Compose Unit := do
  if (← peek) = .directive then
    skip
    if (← peek) ≠ .documentStart then failure

/-- The first document. Nothing may be wrong with the two tokens after it. -/
def document (depth : Nat) : Compose Node := do
  directives
  let t ← peek
  if t = .streamEnd then pure .empty
  else
    let root ←
      if t = .documentStart then do
        skip
        let t ← peek
        if t = .directive ∨ t = .documentStart ∨ t = .documentEnd ∨ t = .streamEnd then pure Node.empty
        else node depth true false
      else node depth true false
    if ((← get).tokens.take 3).contains .broken then failure
    pure root

end Compose

/-- The text without a mark of its encoding at the front. -/
def unmarked : Bytes → Bytes
  | 239 :: 187 :: 191 :: rest => rest
  | s => s

/-- The first document of a text, if it is well-formed. A text without documents is an empty one. -/
def parse? (s : Bytes) : Option Node := do
  let cs ← (unmarked s).chars?
  guard (cs.all isLegal)
  let tokens := Token.scan cs
  let (root, _) ← (Compose.document (4 * tokens.length + 8)).run ⟨tokens, [], [], 0⟩
  pure root

end StackScript.Yaml
