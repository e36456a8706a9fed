import StackScript.Calendar
import StackScript.Numeral.Decimal
import StackScript.Yaml.Node

/-!
# What nodes mean

A plain text may stand for nothing, a truth value, a number or a moment in time;
in quotes or in a block it is the text that it is. Settings and suites ask a node
for a text, an integer, a list or named fields. A node that stands for nothing
answers none of these and is no fault; a node of another kind is one.

## Main definitions

* `Yaml.Meaning`: what a text stands for.
* `Yaml.Node.text?`, `Yaml.Node.integer?`, `Yaml.Node.list?`, `Yaml.Node.fields?`: read a node as what
  is asked for.
* `Yaml.Node.any?`: read a node as whatever it is.
-/

namespace StackScript.Yaml

/-- What a text stands for. -/
inductive Meaning
  | null
  | boolean (b : Bool)
  /-- An integer; its size is not limited. -/
  | integer (n : Int)
  /-- A fraction, of which only the integer part is kept. -/
  | float (whole : Int)
  /-- What lies beyond all numbers above or below, or is no number. -/
  | infinite
  | negativeInfinite
  | notNumber
  | timestamp
  | text
  /-- The key whose value lends its pairs to the mapping. -/
  | merge
  deriving DecidableEq, Repr

namespace Meaning

/-- The texts that stand for something by their spelling alone. -/
def spelled? (s : Bytes) : Option Meaning :=
  let isOne (spellings : List String) : Bool := spellings.any fun t => s = Bytes.ofString t
  if isOne ["", "~", "null", "Null", "NULL"] then some .null
  else if isOne ["true", "True", "TRUE"] then some (.boolean true)
  else if isOne ["false", "False", "FALSE"] then some (.boolean false)
  else if isOne [".nan", ".NaN", ".NAN"] then some .notNumber
  else if isOne [".inf", ".Inf", ".INF", "+.inf", "+.Inf", "+.INF"] then some .infinite
  else if isOne ["-.inf", "-.Inf", "-.INF"] then some .negativeInfinite
  else none

/-- A date, alone or with a time of day: after a letter with an offset, after a space without. -/
def isTimestamp (s : Bytes) : Bool :=
  let clock (s : Bytes) : Option Bytes := (Calendar.minutes? 1 s).bind (Calendar.seconds? 1)
  match Calendar.date? 1 s with
  | some [] => true
  | some (b :: rest) =>
    if b = 84 ∨ b = 116 then ((clock rest).bind Calendar.offset?) = some []
    else b = 32 && clock rest = some []
  | none => false

/-- A fraction in range. -/
def fraction? (s : Bytes) : Option Meaning :=
  ((Decimal.parse? s).bind Decimal.truncate?).map .float

/-- A number without the underscores in it: an integer of 64 bits in one of the usual bases, without a
sign one below `2 ^ 64`, or a fraction. -/
def number? (s : Bytes) : Option Meaning :=
  match Numeral.integer s, Numeral.natural s with
  | .ok n, _ => some (.integer n)
  | .error _, .ok n => some (.integer n)
  | .error _, .error _ => fraction? s

/-- What a plain text stands for; `dated` tells whether it may be a moment in time. -/
def ofPlain (dated : Bool) (s : Bytes) : Meaning :=
  match spelled? s with
  | some m => m
  | none =>
    match s with
    | [] => .null
    | b :: _ =>
      if b = 46 then (fraction? s).getD .text
      else if Bytes.isDigit b ∨ b = 43 ∨ b = 45 then
        if dated ∧ isTimestamp s then .timestamp else (number? (s.filter (· ≠ 95))).getD .text
      else .text

/-- The kind of what a text stands for. -/
def tag : Meaning → Tag
  | .null => .null
  | .boolean _ => .boolean
  | .integer _ => .integer
  | .float _ | .infinite | .negativeInfinite | .notNumber => .float
  | .timestamp => .timestamp
  | .text => .text
  | .merge => .other

/-- What a text stands for that is said to be of some kind, if it can be. An integer can be a
fraction. -/
def ofTagged? (t : Tag) (s : Bytes) : Option Meaning :=
  if t = .text then some .text
  else
    match ofPlain (t = .timestamp) s, t with
    | .integer n, .float => some (.float n)
    | m, t => if m.tag = t then some m else none

/-- What a text in a document stands for. -/
def of? (tag : Option Tag) (plain : Bool) (s : Bytes) : Option Meaning :=
  match tag with
  | none | some .unspecified =>
    if !plain then some .text
    else if s = Bytes.ofString "<<" then some .merge
    else some (ofPlain true s)
  | some t => ofTagged? t s

/-- The integer of 64 bits that a number stands for: a fraction loses what is after the point, and
below the least integer every number stands for that one. -/
def toInteger? : Meaning → Option Int
  | .integer n => if n < 9223372036854775808 then some n else none
  | .float n =>
    if 9223372036854775808 < n then none
    else if n < -9223372036854775808 ∨ n = 9223372036854775808 then some (-9223372036854775808)
    else some n
  | .negativeInfinite => some (-9223372036854775808)
  | _ => none

end Meaning

namespace Node

/-- The text of a node; none if the node stands for nothing. -/
def text? : Node → Option (Option Bytes)
  | .scalar tag plain s =>
    match Meaning.of? tag plain s with
    | none | some .merge => none
    | some .null => some none
    | some _ => some (some s)
  | .alias _ target => target.text?
  | _ => none

/-- The integer of a node; none if the node stands for nothing. -/
def integer? : Node → Option (Option Int)
  | .scalar tag plain s =>
    match Meaning.of? tag plain s with
    | none => none
    | some .null => some none
    | some m => m.toInteger?.map some
  | .alias _ target => target.integer?
  | _ => none

/-- The node stands for nothing. -/
def isNull : Node → Bool
  | .scalar tag plain s => Meaning.of? tag plain s = some .null
  | _ => false

/-- The items of a list; nothing has none. -/
def list? : Node → Option (List Node)
  | .sequence items => some items
  | .alias _ target => target.list?
  | node => if node.isNull then some [] else none

/-- The texts in a list; items that stand for nothing are left out. -/
def texts? (node : Node) : Option (List Bytes) := do
  let items ← node.list?
  let texts ← items.mapM text?
  pure (texts.filterMap id)

/-- What keys of a mapping are compared by: their form, and their text or name. -/
def mark : Node → Nat × Bytes
  | .scalar _ _ s => (0, s)
  | .sequence _ => (1, [])
  | .mapping _ => (2, [])
  | .alias name _ => (3, name)
  | .knot name => (3, name)

/-- No two keys are the same. -/
def distinct (pairs : List (Node × Node)) : Bool := decide ((pairs.map (·.1.mark)).Nodup)

/-- The key of the pairs that a mapping is lent. -/
def isMerge : Node → Bool
  | .scalar tag plain s => Meaning.of? tag plain s = some .merge
  | _ => false

/-- Pairs with those of another list whose names are not among them. -/
def lend (own lent : List (Bytes × Node)) : List (Bytes × Node) :=
  own ++ lent.filter fun p => (own.lookup p.1).isNone

mutual

/-- The named fields of a mapping; nothing has none. A key that stands for nothing names no field. -/
def fields? : Node → Option (List (Bytes × Node))
  | .mapping pairs => if distinct pairs then (ownFields? pairs).bind fun own => lentFields? own pairs else none
  | .alias _ target => fields? target
  | .scalar tag plain s => if (Node.scalar tag plain s).isNull then some [] else none
  | _ => none

/-- The fields that the pairs of a mapping name. -/
def ownFields? : List (Node × Node) → Option (List (Bytes × Node))
  | [] => some []
  | (k, v) :: rest =>
    if k.isMerge then ownFields? rest
    else
      match k.text?, ownFields? rest with
      | some (some name), some fields => some ((name, v) :: fields)
      | some none, some fields => some fields
      | _, _ => none

/-- The fields of a mapping with those that it is lent. -/
def lentFields? (own : List (Bytes × Node)) : List (Node × Node) → Option (List (Bytes × Node))
  | [] => some own
  | (k, v) :: rest => if k.isMerge then lentBy? own v else lentFields? own rest

/-- The fields with those that a node lends: a mapping, or a list of mappings. -/
def lentBy? (own : List (Bytes × Node)) : Node → Option (List (Bytes × Node))
  | .sequence items => lentByAll? own items
  | .mapping pairs => (fields? (.mapping pairs)).map (lend own)
  | .alias _ (.mapping pairs) => (fields? (.mapping pairs)).map (lend own)
  | _ => none

/-- The fields with those that each of the nodes lends. -/
def lentByAll? (own : List (Bytes × Node)) : List Node → Option (List (Bytes × Node))
  | [] => some own
  | .mapping pairs :: rest =>
    (fields? (.mapping pairs)).bind fun lent => lentByAll? (lend own lent) rest
  | .alias _ (.mapping pairs) :: rest =>
    (fields? (.mapping pairs)).bind fun lent => lentByAll? (lend own lent) rest
  | _ :: _ => none

end

mutual

/-- The node can be read, whatever it is. -/
def isReadable : Node → Bool
  | .scalar tag plain s =>
    match Meaning.of? tag plain s with
    | none | some .merge => false
    | some _ => true
  | .sequence items => allReadable items
  | .mapping pairs => distinct pairs && pairsReadable pairs
  | .alias _ target => isReadable target
  | .knot _ => false

/-- All nodes of a list can be read. -/
def allReadable : List Node → Bool
  | [] => true
  | x :: rest => isReadable x && allReadable rest

/-- All nodes in pairs can be read, and no key is a collection. -/
def pairsReadable : List (Node × Node) → Bool
  | [] => true
  | (.scalar tag plain s, v) :: rest =>
    (isReadable (.scalar tag plain s) || (Node.scalar tag plain s).isMerge) && isReadable v && pairsReadable rest
  | (.alias _ (.scalar tag plain s), v) :: rest =>
    isReadable (.scalar tag plain s) && isReadable v && pairsReadable rest
  | _ :: _ => false

end

/-- What a node stands for, and its text; a collection has neither. -/
def any? : Node → Option (Option (Meaning × Bytes))
  | .scalar tag plain s =>
    match Meaning.of? tag plain s with
    | none | some .merge => none
    | some m => some (some (m, s))
  | .alias _ target => target.any?
  | node => if node.isReadable then some none else none

end Node

end StackScript.Yaml
