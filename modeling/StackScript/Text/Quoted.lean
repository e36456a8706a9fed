import StackScript.Text.Rune
import StackScript.Text.Printable

/-!
# Quoted text

Text between double quotes on one line of printable characters. Quotes,
backslashes and everything unprintable are escaped.
-/

namespace StackScript

/-- The escape of a character that is not printable. -/
def escapeChar (c : Char) : Bytes :=
  match c.toNat with
  | 7 => "\\a"
  | 8 => "\\b"
  | 12 => "\\f"
  | 10 => "\\n"
  | 13 => "\\r"
  | 9 => "\\t"
  | 11 => "\\v"
  | n =>
    if n < 32 ∨ n = 127 then "\\x" ++ Bytes.hex 2 n
    else if n < 65536 then "\\u" ++ Bytes.hex 4 n
    else "\\U" ++ Bytes.hex 8 n

/-- A character inside quotes. -/
def Rune.quoted : Rune → Bytes
  | .stray b => "\\x" ++ Bytes.hex 2 b.toNat
  | .char c =>
    if c = '"' then "\\\"" else if c = '\\' then "\\\\"
    else if Text.isPrintable c then (Rune.char c).encode
    else escapeChar c

/-- A text in quotes. -/
def Bytes.quoted (s : Bytes) : Bytes := "\"" ++ s.runes.flatMap Rune.quoted ++ "\""

end StackScript
