import StackScript.Text.Rune

/-!
# White space around text

The characters that Unicode counts as white space are removed at both ends of a
text.
-/

namespace StackScript

/-- The character is white space. -/
def Text.isBlank (c : Char) : Bool :=
  let n := c.toNat
  (9 ≤ n && n ≤ 13) || n == 32 || n == 133 || n == 160 || n == 5760 || (8192 ≤ n && n ≤ 8202)
    || n == 8232 || n == 8233 || n == 8239 || n == 8287 || n == 12288

/-- The character is white space; a byte that belongs to no character is not. -/
def Rune.isBlank : Rune → Bool
  | .char c => Text.isBlank c
  | .stray _ => false

/-- The text without the white space at its ends. -/
def Bytes.trim (s : Bytes) : Bytes :=
  let inner := ((s.runes.dropWhile Rune.isBlank).reverse.dropWhile Rune.isBlank).reverse
  inner.flatMap Rune.encode

end StackScript
