import StackScript.Bytes

/-!
# Integer numerals

An integer is written in decimal, or in base 2, 8 or 16 after one of the marks
`0b`, `0o` and `0x`; after a bare leading zero the base is 8. A sign may come
first, and single underscores may stand between digits or after the mark.

## Main definitions

* `Numeral.integer`: the integer of 64 bits that a numeral denotes.
* `Numeral.char?`: the character with a number in hexadecimal.
-/

namespace StackScript.Numeral

/-- Why a text denotes no integer. -/
inductive Fault
  | malformed
  /-- The number takes more than 64 bits. -/
  | range
  deriving DecidableEq, Repr

/-- The value of a digit; letters count on from ten. -/
def digit? (b : UInt8) : Option Nat :=
  if 48 ≤ b && b ≤ 57 then some (b.toNat - 48)
  else if 97 ≤ Bytes.lowerByte b && Bytes.lowerByte b ≤ 122 then some ((Bytes.lowerByte b).toNat - 87)
  else none

/-- The number that digits denote after `n`, if it stays below `2 ^ 64`. Underscores are skipped. The
first fault from the left is reported. -/
def magnitude (base n : Nat) : Bytes → Except Fault Nat
  | [] => .ok n
  | b :: rest =>
    if b = 95 then magnitude base n rest
    else
      match digit? b with
      | some d =>
        if d < base then
          if n * base + d < 18446744073709551616 then magnitude base (n * base + d) rest
          else .error .range
        else .error .malformed
      | none => .error .malformed

/-- The base of an unsigned numeral, and its digits. -/
def split (s : Bytes) : Nat × Bytes :=
  match s with
  | 48 :: mark :: b :: rest =>
    match Bytes.lowerByte mark with
    | 98 => (2, b :: rest)
    | 111 => (8, b :: rest)
    | 120 => (16, b :: rest)
    | _ => (8, mark :: b :: rest)
  | 48 :: rest => (8, rest)
  | _ => (10, s)

/-- Each underscore has a digit or the mark of the base before it and a digit after it. -/
def separated (afterDigit : Bool) : Bytes → Bool
  | [] => true
  | [95] => false
  | b :: rest => (b != 95 || afterDigit) && separated (b != 95) rest

/-- A numeral without a sign. -/
def natural (s : Bytes) : Except Fault Nat :=
  if s = [] then .error .malformed
  else
    let (base, digits) := split s
    match magnitude base 0 digits with
    | .ok n => if separated (digits.length < s.length) digits then .ok n else .error .malformed
    | .error e => .error e

/-- The sign of a numeral, and what follows it. -/
def signed : Bytes → Bool × Bytes
  | 45 :: rest => (true, rest)
  | 43 :: rest => (false, rest)
  | s => (false, s)

/-- The integer that a numeral denotes. -/
def integer (s : Bytes) : Except Fault Int :=
  let (negative, digits) := signed s
  match natural digits with
  | .error e => .error e
  | .ok n =>
    let value : Int := if negative then -(n : Int) else n
    if -9223372036854775808 ≤ value ∧ value < 9223372036854775808 then .ok value else .error .range

/-- The value of a hexadecimal digit. -/
def hexDigit? (c : Char) : Option Nat :=
  if c.toNat < 128 then (digit? c.toNat.toUInt8).filter (· < 16) else none

/-- The character whose number is given in `width` hexadecimal digits at the front. -/
def char? (width : Nat) (cs : List Char) : Option Char := do
  let digits ← (cs.take width).mapM hexDigit?
  guard (digits.length = width)
  let n := digits.foldl (fun n d => 16 * n + d) 0
  if n.isValidChar then some (.ofNat n) else none

end StackScript.Numeral
