import StackScript.Calendar
import StackScript.Numeral.Decimal
import StackScript.Text.Rune
import StackScript.Toml

/-!
# Strings, numbers and dates in settings

The values that have no parts. A string between double quotes has escapes, one
between single quotes has none; three quotes on either side let it run over
several lines. Everything else is a word: a truth value, a number or a date.
-/

namespace StackScript.Toml

/-- The character ends a line. -/
def isBreak (c : Char) : Bool := c == '\n' || c == '\r'

/-- The character is a blank inside a line. -/
def isSpace (c : Char) : Bool := c == ' ' || c == '\t'

/-! ## Strings -/

/-- What stands for a character after a backslash: the character, and how many characters that takes. -/
def escape? : List Char → Option (Char × Nat)
  | 'b' :: _ => some ('\x08', 1)
  | 't' :: _ => some ('\t', 1)
  | 'n' :: _ => some ('\n', 1)
  | 'f' :: _ => some ('\x0c', 1)
  | 'r' :: _ => some ('\r', 1)
  | 'e' :: _ => some ('\x1b', 1)
  | '"' :: _ => some ('"', 1)
  | '\\' :: _ => some ('\\', 1)
  | 'x' :: cs => (Numeral.char? 2 cs).map (·, 3)
  | 'u' :: cs => (Numeral.char? 4 cs).map (·, 5)
  | 'U' :: cs => (Numeral.char? 8 cs).map (·, 9)
  | _ => none

/-- The rest of a string on one line, up to its closing quote. -/
def line? (quote : Char) (acc : List Char) (cs : List Char) : Option (List Char × List Char) :=
  match cs with
  | [] => none
  | c :: rest =>
    if c = quote then some (acc.reverse, rest)
    else if isBreak c then none
    else if c = '\\' ∧ quote = '"' then
      match escape? rest with
      | some (e, n) => line? quote (e :: acc) (rest.drop n)
      | none => none
    else line? quote (c :: acc) rest
termination_by cs.length
decreasing_by all_goals simp only [List.length_drop, List.length_cons]; omega

/-- The rest of a string on several lines, up to its closing quotes. Up to two more quotes may stand
before these. A backslash at the end of a line joins it to the next text. -/
def lines? (quote : Char) (acc : List Char) (cs : List Char) : Option (List Char × List Char) :=
  match cs with
  | [] => none
  | c :: rest =>
    if c = quote then
      let more := rest.takeWhile (· == quote)
      if 5 ≤ more.length then none
      else if 2 ≤ more.length then
        some ((more.drop 2 ++ acc).reverse, rest.drop more.length)
      else lines? quote (more ++ c :: acc) (rest.drop more.length)
    else if c = '\\' ∧ quote = '"' then
      let gap := rest.takeWhile fun d => isSpace d || isBreak d
      if gap.contains '\n' then lines? quote acc (rest.drop gap.length)
      else
        match escape? rest with
        | some (e, n) => lines? quote (e :: acc) (rest.drop n)
        | none => none
    else lines? quote (c :: acc) rest
termination_by cs.length
decreasing_by all_goals simp only [List.length_drop, List.length_cons]; omega

/-- The text after a line break at its very front. -/
def afterBreak : List Char → List Char
  | '\n' :: cs => cs
  | '\r' :: '\n' :: cs => cs
  | cs => cs

/-- A string that starts with the given quote, of which the first has been read. -/
def string? (quote : Char) (cs : List Char) : Option (Bytes × List Char) :=
  (if (cs.take 2).all (· == quote) ∧ 2 ≤ cs.length then lines? quote [] (afterBreak (cs.drop 2))
    else line? quote [] cs).map fun (text, rest) => (Bytes.ofChars text, rest)

/-! ## Words -/

/-- Each underscore stands between two digits. -/
def separated (afterDigit : Bool) : Bytes → Bool
  | [] => true
  | [95] => false
  | b :: rest =>
    (b != 95 || afterDigit && (rest.head?.bind Numeral.digit?).any (· < 16))
      && separated ((Numeral.digit? b).any (· < 16)) rest

/-- The number has digits after a zero at its front. -/
def paddedZero (s : Bytes) : Bool :=
  match (Numeral.signed s).2 with
  | 48 :: d :: _ => Bytes.isDigit d || d == 95
  | _ => false

/-- The number starts with a mark of its base, in lower case and with no sign before it. -/
def isMarked : Bytes → Bool
  | 48 :: mark :: _ => mark == 98 || mark == 111 || mark == 120
  | _ => false

/-- An integer: in decimal without needless zeros, or after a mark of its base. -/
def integer? (s : Bytes) : Option Int := do
  let digits := if isMarked s then s.drop 2 else (Numeral.signed s).2
  guard (digits ≠ [] ∧ separated false digits)
  guard (isMarked s ∨ (digits.all fun b => Bytes.isDigit b || b == 95) ∧ ¬paddedZero s)
  (Numeral.integer s).toOption

/-- The points in a number have digits after them. -/
def pointed : Bytes → Bool
  | [] => true
  | 46 :: rest => rest.head?.any Bytes.isDigit && pointed rest
  | _ :: rest => pointed rest

/-- A fraction: a decimal fraction in range, or one of the names of what is no number. -/
def isFloat (s : Bytes) : Bool :=
  (Numeral.signed s).2 = Bytes.ofString "inf" || (Numeral.signed s).2 = Bytes.ofString "nan"
    || ((s.any fun b => b == 46 || Bytes.lowerByte b == 101)
      && separated false (s.map fun b => if Bytes.lowerByte b = 101 then 46 else b)
      && pointed s && !paddedZero s && s.head? != some 46
      && ((Decimal.parse? (s.filter (· != 95))).bind Decimal.truncate?).isSome)

/-- A date, a time of day, or both with a letter or a space between them and perhaps an offset. -/
def isMoment (s : Bytes) : Bool :=
  let s := s.map fun b => if b = 122 then 90 else if b = 116 ∨ b = 32 then 84 else b
  let clock (s : Bytes) : Option Bytes :=
    (Calendar.minutes? 2 s).map fun rest => (Calendar.seconds? 2 rest).getD rest
  match Calendar.date? 2 s with
  | some [] => true
  | some (84 :: rest) =>
    match clock rest with
    | some [] => true
    | some rest => Calendar.offset? rest = some []
    | none => false
  | some _ => false
  | none => clock s = some []

/-- The character cannot be part of a word. -/
def endsWord (c : Char) : Bool :=
  isSpace c || isBreak c || c == ',' || c == ']' || c == '\x7d' || c == '#'

/-- The character can be part of a date with a time. -/
def inMoment (c : Char) : Bool :=
  c.isDigit || c == '-' || c == ':' || c == 'T' || c == 't' || c == ' ' || c == '.' || c == 'Z'
    || c == 'z' || c == '+'

/-- The text starts like a date or a time of day. -/
def startsMoment (cs : List Char) : Bool :=
  (cs.head?.any Char.isDigit) && ((cs.dropWhile Char.isDigit).head?.any fun c => c == '-' || c == ':')

/-- What a word denotes. -/
def ofWord? (s : Bytes) : Option Literal :=
  if s = Bytes.ofString "true" then some (.boolean true)
  else if s = Bytes.ofString "false" then some (.boolean false)
  else
    match integer? s with
    | some n => some (.integer n)
    | none => if isFloat s then some .float else none

/-- A value without quotes or brackets. -/
def word? (cs : List Char) : Option (Literal × List Char) :=
  if startsMoment cs then
    let text := ((cs.takeWhile inMoment).reverse.dropWhile (· == ' ')).reverse
    if isMoment (Bytes.ofChars text) then some (.moment, cs.dropWhile inMoment) else none
  else (ofWord? (Bytes.ofChars (cs.takeWhile (!endsWord ·)))).map (·, cs.dropWhile (!endsWord ·))

end StackScript.Toml
