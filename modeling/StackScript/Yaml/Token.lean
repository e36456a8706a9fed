import StackScript.Bytes

/-!
# Tokens of indented documents

The pieces of a document of nested lists and mappings. Structure that is written
by indentation has tokens of its own: one where a block begins and one where it
ends.
-/

namespace StackScript.Yaml

/-- What a node is said to be. -/
inductive Tag
  | text
  | integer
  | float
  | boolean
  | null
  | timestamp
  /-- No particular kind: the text decides. -/
  | unspecified
  | other
  deriving DecidableEq, Repr

/-- A token. -/
inductive Token
  | directive
  | documentStart
  | documentEnd
  | blockSequence
  | blockMapping
  | blockEnd
  | flowSequence
  | flowSequenceEnd
  | flowMapping
  | flowMappingEnd
  | blockEntry
  | flowEntry
  | key
  | value
  | alias (name : Bytes)
  | anchor (name : Bytes)
  | tag (t : Tag)
  /-- A text; a plain one may stand for something else than itself. -/
  | scalar (plain : Bool) (text : Bytes)
  | streamEnd
  /-- From here on the document has no tokens. -/
  | broken
  deriving DecidableEq, Repr

end StackScript.Yaml
