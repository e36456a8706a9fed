import StackScript.Bytes

/-!
# Dates and times in text

Readers of calendar dates, times of day and offsets from universal time. Each
takes what it reads from the front of a text and returns the rest. A month, a
day, an hour, a minute or a second has two digits, or one where the caller
allows it.
-/

namespace StackScript.Calendar

/-- A number of at most two digits and at least `least`. -/
def field? (least : Nat) (s : Bytes) : Option (Nat × Bytes) :=
  let digits := (s.take 2).takeWhile Bytes.isDigit
  if digits ≠ [] ∧ least ≤ digits.length then some (Bytes.decimal digits, s.drop digits.length) else none

/-- The given byte. -/
def mark? (b : UInt8) : Bytes → Option Bytes
  | [] => none
  | c :: rest => if c = b then some rest else none

/-- The year has a 29th of February. -/
def isLeap (year : Nat) : Bool := year % 4 == 0 && (year % 100 != 0 || year % 400 == 0)

/-- The number of days of a month. -/
def daysIn (year month : Nat) : Nat :=
  if month = 2 then if isLeap year then 29 else 28
  else if month = 4 ∨ month = 6 ∨ month = 9 ∨ month = 11 then 30
  else 31

/-- A date: the year in four digits, the month and the day, with hyphens between them. -/
def date? (least : Nat) (s : Bytes) : Option Bytes := do
  let year := (s.take 4).takeWhile Bytes.isDigit
  guard (year.length = 4)
  let rest ← mark? 45 (s.drop 4)
  let (month, rest) ← field? least rest
  let rest ← mark? 45 rest
  let (day, rest) ← field? least rest
  guard (1 ≤ month ∧ month ≤ 12 ∧ 1 ≤ day ∧ day ≤ daysIn (Bytes.decimal year) month)
  pure rest

/-- A time of day in hours and minutes. -/
def minutes? (least : Nat) (s : Bytes) : Option Bytes := do
  let (hour, rest) ← field? least s
  let rest ← mark? 58 rest
  let (minute, rest) ← field? least rest
  guard (hour < 24 ∧ minute < 60)
  pure rest

/-- Digits after a point, if they are there. -/
def fraction (s : Bytes) : Bytes :=
  match s with
  | 46 :: d :: rest => if Bytes.isDigit d then rest.dropWhile Bytes.isDigit else s
  | _ => s

/-- The seconds of a time of day, with a colon before them and perhaps a fraction after them. -/
def seconds? (least : Nat) (s : Bytes) : Option Bytes := do
  let rest ← mark? 58 s
  let (second, rest) ← field? least rest
  guard (second < 60)
  pure (fraction rest)

/-- An offset from universal time: `Z`, or hours and minutes after a sign. -/
def offset? (s : Bytes) : Option Bytes :=
  match s with
  | [] => none
  | b :: rest =>
    if b = 90 then some rest
    else if b = 43 ∨ b = 45 then do
      let (hours, rest) ← field? 2 rest
      let rest ← mark? 58 rest
      let (minutes, rest) ← field? 2 rest
      guard (hours ≤ 24 ∧ minutes ≤ 60)
      pure rest
    else none

end StackScript.Calendar
