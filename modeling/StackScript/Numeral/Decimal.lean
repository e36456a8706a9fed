import StackScript.Numeral

/-!
# Decimal fractions

A decimal fraction with an optional exponent, and the binary number of 53
significant bits that is nearest to it. All arithmetic is on integers.

## Main definitions

* `Decimal.parse?`: read a decimal fraction.
* `Decimal.truncate?`: the integer part of the nearest binary number.
-/

namespace StackScript

/-- The number `digits * 10 ^ exponent`, with a sign. -/
structure Decimal where
  negative : Bool
  digits : Nat
  exponent : Int
  deriving DecidableEq, Repr

namespace Decimal

/-- The exponent after the digits, if that is all there is. -/
def exponent? : Bytes → Option Int
  | [] => some 0
  | mark :: rest =>
    if Bytes.lowerByte mark = 101 then
      let (negative, digits) := Numeral.signed rest
      if digits ≠ [] ∧ digits.all Bytes.isDigit then
        some (if negative then -(digits.decimal : Int) else digits.decimal)
      else none
    else none

/-- Read a decimal fraction: a sign, digits with or without a point among them, and an exponent; only
the digits are needed. -/
def parse? (s : Bytes) : Option Decimal := do
  let (negative, body) := Numeral.signed s
  let whole := body.takeWhile Bytes.isDigit
  let rest := body.dropWhile Bytes.isDigit
  let (fraction, rest) :=
    match rest with
    | 46 :: after => (after.takeWhile Bytes.isDigit, after.dropWhile Bytes.isDigit)
    | _ => ([], rest)
  guard (whole ≠ [] ∨ fraction ≠ [])
  let e ← exponent? rest
  pure ⟨negative, Bytes.decimal (whole ++ fraction), e - fraction.length⟩

/-- The quotient rounded to the nearest integer, a half to the even one. -/
def roundDiv (a b : Nat) : Nat :=
  let q := a / b
  let r := a % b
  if 2 * r < b then q else if b < 2 * r then q + 1 else q + q % 2

/-- The significand and the exponent of two of the number with 53 significant bits that is nearest to
`a / b`. -/
def nearest (a b : Nat) : Nat × Int :=
  let e : Int := a.log2 - b.log2 - 52
  let a' := a <<< (-e).toNat
  let b' := b <<< e.toNat
  if a' < 4503599627370496 * b' then (roundDiv (2 * a') b', e - 1) else (roundDiv a' b', e)

/-- The integer part of the binary number nearest to `a / b`, unless it is too large to be one. -/
def wholePart? (a b : Nat) : Option Nat :=
  let (q, e) := nearest a b
  let n := q <<< e.toNat >>> (-e).toNat
  if n < 1 <<< 1024 then some n else none

/-- The integer part of the nearest binary number, unless the number is too large. -/
def truncate? (d : Decimal) : Option Int := do
  let size : Int := (Bytes.ofNat d.digits).length + d.exponent
  guard (d.digits = 0 ∨ size < 400)
  let n ←
    if d.digits = 0 ∨ size < -400 then some 0
    else wholePart? (d.digits * Nat.pow 10 d.exponent.toNat) (Nat.pow 10 (-d.exponent).toNat)
  pure (if d.negative then -(n : Int) else n)

end Decimal

end StackScript
