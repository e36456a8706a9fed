import StackScript.Text.Rune
import StackScript.Text.CasingTable

/-!
# Letter case

Characters in upper and lower case by the full mappings, independent of any
language, and texts in upper case. Bytes that belong to no character are kept.
-/

namespace StackScript.Text

/-- The character lies in one of the ranges. -/
def inRanges (ranges : List (Nat × Nat)) (c : Char) : Bool :=
  ranges.any fun r => r.1 ≤ c.toNat && c.toNat ≤ r.2

/-- The character has case. -/
def isCased (c : Char) : Bool := inRanges casedRanges c

/-- The character is passed over when the neighbours of a letter are looked at. -/
def isIgnorable (c : Char) : Bool := inRanges ignorableRanges c

/-- The mapping of a character by the two tables, and itself if it is in neither. -/
def mapChar (shifts : List Shift) (special : List (Nat × List Nat)) (c : Char) : List Char :=
  let n := c.toNat
  match shifts.find? fun s => s.first ≤ n && n ≤ s.last && (n - s.first) % s.step == 0 with
  | some s => [.ofNat (n + s.shift).toNat]
  | none =>
    match special.find? (·.1 == n) with
    | some m => m.2.map Char.ofNat
    | none => [c]

/-- A character in upper case. -/
def upperChar (c : Char) : List Char := mapChar upperShifts upperSpecial c

/-- A character in lower case, wherever it stands. -/
def lowerChar (c : Char) : List Char := mapChar lowerShifts lowerSpecial c

/-- The bytes of characters. -/
def encode (cs : List Char) : Bytes := cs.flatMap String.utf8EncodeChar

end StackScript.Text

namespace StackScript.Bytes

/-- The text in upper case. -/
def upper (s : Bytes) : Bytes :=
  s.runes.flatMap fun
    | .char c => Text.encode (Text.upperChar c)
    | .stray b => [b]

end StackScript.Bytes
