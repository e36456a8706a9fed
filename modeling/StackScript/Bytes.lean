/-!
# Byte strings

Source text, names, string values and everything the program writes are
sequences of bytes in no particular encoding. This module fixes that type and
the few ways in which numbers and fixed texts become bytes.
-/

namespace StackScript

/-- A text: its bytes in order. -/
abbrev Bytes := List UInt8

namespace Bytes

/-- The bytes of a fixed text. -/
def ofString (s : String) : Bytes := s.toUTF8.toList

instance : Coe String Bytes := ⟨ofString⟩

/-- The byte of a decimal or hexadecimal digit, in lower case. -/
def digit (d : Nat) : UInt8 := if d < 10 then (48 + d).toUInt8 else (87 + d).toUInt8

/-- The digits of `n` in the given base, most significant first. -/
def digits (base n : Nat) : Bytes :=
  if _h : base < 2 ∨ n < base then [digit n] else digits base (n / base) ++ [digit (n % base)]
termination_by n
decreasing_by exact Nat.div_lt_self (by omega) (by omega)

/-- A natural number in decimal. -/
def ofNat (n : Nat) : Bytes := digits 10 n

/-- A natural number in decimal with commas between groups of three digits. -/
def grouped (n : Nat) : Bytes :=
  if n < 1000 then ofNat n
  else grouped (n / 1000) ++ 44 :: (List.replicate (3 - (ofNat (n % 1000)).length) 48 ++ ofNat (n % 1000))

/-- An integer in decimal, with a minus sign when it is negative. -/
def ofInt : Int → Bytes
  | .ofNat n => ofNat n
  | .negSucc n => 45 :: ofNat (n + 1)

/-- The number that decimal digits denote. -/
def decimal (digits : Bytes) : Nat := digits.foldl (fun n b => 10 * n + (b.toNat - 48)) 0

/-- The byte is a decimal digit. -/
def isDigit (b : UInt8) : Bool := 48 ≤ b && b ≤ 57

/-- `true` or `false`. -/
def ofBool (b : Bool) : Bytes := if b then "true" else "false"

/-- Fill up on the left to `width` bytes. -/
def padLeft (fill : UInt8) (width : Nat) (s : Bytes) : Bytes :=
  List.replicate (width - s.length) fill ++ s

/-- Fill up on the right to `width` bytes. -/
def padRight (fill : UInt8) (width : Nat) (s : Bytes) : Bytes :=
  s ++ List.replicate (width - s.length) fill

/-- A code offset: at least four decimal digits. -/
def ofOffset (n : Nat) : Bytes := padLeft 48 4 (ofNat n)

/-- A number in lower-case hexadecimal, at least `width` digits wide. -/
def hex (width n : Nat) : Bytes := padLeft 48 width (digits 16 n)

/-- A letter of the Latin alphabet in upper case, any other byte unchanged. -/
def upperByte (b : UInt8) : UInt8 := if 97 ≤ b && b ≤ 122 then b - 32 else b

/-- A letter of the Latin alphabet in lower case, any other byte unchanged. -/
def lowerByte (b : UInt8) : UInt8 := if 65 ≤ b && b ≤ 90 then b + 32 else b

/-- A byte in two upper-case hexadecimal digits. -/
def hexUpper (b : UInt8) : Bytes := (hex 2 b.toNat).map upperByte

/-- Byte order: the first differing byte decides, and a text precedes its extensions. -/
def le : Bytes → Bytes → Bool
  | [], _ => true
  | _ :: _, [] => false
  | a :: s, b :: t => a < b || (a == b && le s t)

/-- The texts one after another with `sep` between neighbours. -/
def join (sep : Bytes) (parts : List Bytes) : Bytes := List.intercalate sep parts

/-- The pieces of a text between the occurrences of `b`, put after `acc` reversed; `piece` is what comes
before the text, reversed. -/
def splitFrom (b : UInt8) (acc : List Bytes) (piece : Bytes) : Bytes → List Bytes
  | [] => (piece.reverse :: acc).reverse
  | c :: s => if c = b then splitFrom b (piece.reverse :: acc) [] s else splitFrom b acc (c :: piece) s

/-- The pieces of a text between the occurrences of `b`. -/
def split (b : UInt8) (s : Bytes) : List Bytes := splitFrom b [] [] s

/-- The text before the last occurrence of `b`, and the text after it, if there is one. -/
def splitLast (b : UInt8) (s : Bytes) : Option (Bytes × Bytes) :=
  let tail := (s.reverse.takeWhile (· != b)).reverse
  if tail.length < s.length then some (s.take (s.length - tail.length - 1), tail) else none

end Bytes

end StackScript
