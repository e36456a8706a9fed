import StackScript.Toml.Scalar

/-!
# Statements of settings

Reading of a document into its statements. A key is a sequence of parts with
points between them; a statement ends with its line. Inside brackets and braces
blanks, line breaks and comments may stand anywhere between the parts.

The readers that call each other take a number that falls with every call. No
text is read with more calls than it has characters.
-/

namespace StackScript.Toml

/-- Drop blanks, line breaks and comments; `comment` tells whether the text starts inside one. -/
def skipBlank (comment : Bool) : List Char → List Char
  | [] => []
  | c :: cs =>
    if comment then skipBlank (c != '\n') cs
    else if c = '#' then skipBlank true cs
    else if isSpace c || isBreak c then skipBlank false cs
    else c :: cs

/-- The character can be part of a key without quotes. -/
def inName (c : Char) : Bool := c.isAlphanum || c == '_' || c == '-'

/-- A part of a key, with the blanks around it. -/
def part? (cs : List Char) : Option (Bytes × List Char) := do
  let (name, rest) ←
    match cs.dropWhile isSpace with
    | '"' :: rest => line? '"' [] rest
    | '\'' :: rest => line? '\'' [] rest
    | cs => if cs.head?.any inName then some (cs.takeWhile inName, cs.dropWhile inName) else none
  pure (Bytes.ofChars name, rest.dropWhile isSpace)

/-- A key. -/
def key? (depth : Nat) (acc : Key) (cs : List Char) : Option (Key × List Char) :=
  match depth with
  | 0 => none
  | depth + 1 =>
    match part? cs with
    | none => none
    | some (name, '.' :: rest) => key? depth (name :: acc) rest
    | some (name, rest) => some ((name :: acc).reverse, rest)

mutual

/-- A value, with the blanks before it. -/
def value? (depth : Nat) (cs : List Char) : Option (Literal × List Char) :=
  match depth with
  | 0 => none
  | depth + 1 =>
    match cs.dropWhile isSpace with
    | '"' :: rest => (string? '"' rest).map fun (s, rest) => (.text s, rest)
    | '\'' :: rest => (string? '\'' rest).map fun (s, rest) => (.text s, rest)
    | '[' :: rest => items? depth [] rest
    | '\x7b' :: rest => pairs? depth [] rest
    | cs => word? cs

/-- The rest of an array. -/
def items? (depth : Nat) (acc : List Literal) (cs : List Char) : Option (Literal × List Char) :=
  match depth with
  | 0 => none
  | depth + 1 =>
    match skipBlank false cs with
    | ']' :: rest => some (.array acc.reverse, rest)
    | cs =>
      match value? depth cs with
      | none => none
      | some (item, rest) =>
        match skipBlank false rest with
        | ',' :: rest => items? depth (item :: acc) rest
        | ']' :: rest => some (.array (item :: acc).reverse, rest)
        | _ => none

/-- The rest of a table written as a value. -/
def pairs? (depth : Nat) (acc : List (Key × Literal)) (cs : List Char) : Option (Literal × List Char) :=
  match depth with
  | 0 => none
  | depth + 1 =>
    match skipBlank false cs with
    | '\x7d' :: rest => some (.inline acc.reverse, rest)
    | cs =>
      match pair? depth cs with
      | none => none
      | some (pair, rest) =>
        match skipBlank false rest with
        | ',' :: rest => pairs? depth (pair :: acc) rest
        | '\x7d' :: rest => some (.inline (pair :: acc).reverse, rest)
        | _ => none

/-- A key and its value. -/
def pair? (depth : Nat) (cs : List Char) : Option ((Key × Literal) × List Char) :=
  match depth with
  | 0 => none
  | depth + 1 =>
    match key? depth [] cs with
    | some (key, '=' :: rest) => (value? depth rest).map fun (value, rest) => ((key, value), rest)
    | _ => none

end

/-- The name of a table or of a list of tables, in its brackets, of which the first has been read. -/
def header? (depth : Nat) (cs : List Char) : Option (Statement × List Char) :=
  match cs with
  | '[' :: cs =>
    match key? depth [] cs with
    | some (key, ']' :: ']' :: rest) => some (.append key, rest)
    | _ => none
  | cs =>
    match key? depth [] cs with
    | some (key, ']' :: rest) => some (.table key, rest)
    | _ => none

/-- A statement. -/
def statement? (depth : Nat) (cs : List Char) : Option (Statement × List Char) :=
  match cs with
  | '[' :: rest => header? depth rest
  | cs => (pair? depth cs).map fun ((key, value), rest) => (.pair key value, rest)

/-- The statements of a text. -/
def statements? (depth : Nat) (acc : List Statement) (cs : List Char) : Option (List Statement) :=
  match depth with
  | 0 => none
  | depth + 1 =>
    match skipBlank false cs with
    | [] => some acc.reverse
    | cs =>
      match statement? depth cs with
      | none => none
      | some (s, rest) =>
        let rest := rest.dropWhile isSpace
        if rest.head?.all fun c => isBreak c || c == '#' then statements? depth (s :: acc) rest
        else none

/-- The characters may stand in a document: no control characters but tabs and line breaks, and a
carriage return only before a line feed. -/
def isLegal : List Char → Bool
  | [] => true
  | c :: cs =>
    (if c = '\r' then cs.head? == some '\n' else c == '\t' || c == '\n' || (32 ≤ c.toNat && c != '\x7f'))
      && isLegal cs

/-- The text without a mark of its encoding at the front. -/
def unmarked : Bytes → Bytes
  | 255 :: 254 :: rest | 254 :: 255 :: rest | 239 :: 187 :: 191 :: rest => rest
  | s => s

/-- The statements of a document, if it is well-formed. -/
def read? (s : Bytes) : Option (List Statement) := do
  let cs ← (unmarked s).chars?
  guard (isLegal cs)
  statements? (cs.length + 4) [] cs

end StackScript.Toml
