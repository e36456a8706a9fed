import StackScript.Bytes

/-!
# Source positions

A position names a byte of the source by its offset, its line, counted from
one, and its column, the number of bytes since the last line feed. Past the
last byte the line and the column stay those of that byte.
-/

namespace StackScript

/-- A place in the source. The zero position stands for no place, and so does every position
whose line is not positive. -/
structure Pos where
  offset : Int
  line : Int
  column : Int
  deriving DecidableEq, Repr, Inhabited

namespace Pos

/-- No place in any source. -/
def none : Pos := ⟨0, 0, 0⟩

/-- The byte that a line ends with. -/
def lineFeed : UInt8 := 10

/-- The position of the first byte of `rest`, given the line and the column before it. -/
def enter (offset line column : Int) : Bytes → Pos
  | [] => ⟨offset, line, column⟩
  | b :: _ => if b = lineFeed then ⟨offset, line + 1, 0⟩ else ⟨offset, line, column + 1⟩

/-- Where a source starts. -/
def start (source : Bytes) : Pos := enter 0 1 0 source

/-- One byte on, with `rest` as what follows the byte at this position. -/
def step (p : Pos) (rest : Bytes) : Pos := enter (p.offset + 1) p.line p.column rest

/-- The form `line:column` of error messages. -/
def text (p : Pos) : Bytes := .ofInt p.line ++ ":" ++ .ofInt p.column

end Pos

/-- The stretch of source from one token to another, each named by where it starts. -/
structure Span where
  start : Pos
  stop : Pos
  deriving DecidableEq, Repr, Inhabited

/-- Where a tree node stands: its own position and the stretch that it covers. -/
structure Loc where
  pos : Pos
  span : Span
  deriving DecidableEq, Repr, Inhabited

namespace Loc

/-- No place at all, for a tree that was not read from a source. -/
def none : Loc := ⟨.none, ⟨.none, .none⟩⟩

/-- A single token. -/
def token (p : Pos) : Loc := ⟨p, ⟨p, p⟩⟩

/-- A node without an extent. -/
def bare (p : Pos) : Loc := ⟨p, ⟨.none, .none⟩⟩

/-- A node at its first token. -/
def run (start stop : Pos) : Loc := ⟨start, ⟨start, stop⟩⟩

end Loc

end StackScript
