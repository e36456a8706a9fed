import StackScript.Code.Instr
import StackScript.Builtin
import StackScript.Text.Quoted

/-!
# Values

The values of a running program. Integers have 64 bits and wrap around. A hash
is filed by digests of its keys, so two keys with one digest are one entry.
Functions and closures have an identity, which is all that comparing them looks
at.

## Main definitions

* `Value`, `Function`: values, and compiled functions.
* `HashKey`, `Value.hashKey?`: the digest under which a key is filed.
* `Entry.file`: a hash from pairs, later ones replacing earlier ones.
* `Value.same`: the comparison of the language.
* `Value.inspect`, `Value.describe`: values as text.
-/

namespace StackScript

/-- A compiled function. -/
structure Function where
  /-- The identity: two functions are the same if it is. -/
  id : Nat
  name : Bytes
  code : Code
  locals : Nat
  params : Nat
  deriving DecidableEq, Repr, Inhabited

/-- The kinds of value that can be keys. -/
inductive KeyKind
  | int | bool | string
  deriving DecidableEq, Repr, Inhabited

/-- What a key is filed under: its kind and a digest. -/
structure HashKey where
  kind : KeyKind
  digest : UInt64
  deriving DecidableEq, Repr, Inhabited

/-- What a builtin value refers to. -/
inductive Native
  /-- A builtin function. -/
  | known (b : Builtin)
  /-- A name with no function behind it. -/
  | hollow (id : Nat) (name : Bytes)
  /-- Nothing. -/
  | absent
  deriving DecidableEq, Repr, Inhabited

/-- A value. -/
inductive Value
  | null
  | int (n : Int64)
  | bool (b : Bool)
  | string (s : Bytes)
  | array (items : List Value)
  /-- Entries, each with the key and the value filed under it. -/
  | hash (entries : List (HashKey × Value × Value))
  | error (message : Bytes)
  | builtin (fn : Native)
  | function (fn : Option Function)
  /-- A function with its captured values. -/
  | closure (id : Nat) (fn : Option Function) (free : List Value)
  /-- A closure that refers to nothing. -/
  | noClosure
  /-- A value of a kind with a number beyond those of the language. -/
  | other (kind : Int)
  deriving Inhabited

/-- An entry of a hash. -/
abbrev Entry := HashKey × Value × Value

namespace KeyKind

/-- The name in messages. -/
def name : KeyKind → String
  | .int => "INTEGER"
  | .bool => "BOOLEAN"
  | .string => "STRING"

end KeyKind

namespace HashKey

/-- The order in which the entries of a hash are kept. -/
def le (a b : HashKey) : Bool :=
  a.kind.ctorIdx < b.kind.ctorIdx || (a.kind == b.kind && a.digest ≤ b.digest)

end HashKey

/-- The 64-bit digest of a text: the bytes are mixed in one after another by exclusive or and a
multiplication. -/
def Bytes.digest (s : Bytes) : UInt64 :=
  s.foldl (fun h b => (h ^^^ b.toUInt64) * 0x100000001b3) 0xcbf29ce484222325

namespace Entry

/-- Keep the last of neighbouring entries with one key. -/
def keepLast (sorted : List Entry) : List Entry :=
  sorted.foldr (fun e kept =>
    match kept with
    | [] => [e]
    | f :: _ => if f.1 = e.1 then kept else e :: kept) []

/-- The entries that remain when pairs are filed in order, in the order of their keys. -/
def file (pairs : List Entry) : List Entry :=
  keepLast (pairs.mergeSort fun a b => a.1.le b.1)

/-- The key and the value filed under a digest. -/
def find? (entries : List Entry) (k : HashKey) : Option (Value × Value) :=
  (entries.find? (·.1 == k)).map (·.2)

end Entry

namespace Function

/-- How a function is called in texts. -/
def label (name : Bytes) : Bytes := if name = [] then "<anon>" else name

/-- The name of a function that may be absent. -/
def labelOf : Option Function → Bytes
  | none => "<nil>"
  | some f => label f.name

end Function

namespace Native

/-- The function in a builtin value as text. -/
def inspect : Native → Bytes
  | .known b => "builtin function " ++ b.name
  | .hollow _ name => "builtin function " ++ name
  | .absent => "builtin function"

end Native

namespace Value

/-- The name of a value's kind in messages. -/
def typeName : Value → String
  | .null => "NULL"
  | .int _ => "INTEGER"
  | .bool _ => "BOOLEAN"
  | .string _ => "STRING"
  | .array _ => "ARRAY"
  | .hash _ => "HASH"
  | .error _ => "ERROR"
  | .builtin _ => "BUILTIN"
  | .function _ => "COMPILED_FUNCTION_OBJ"
  | .closure .. | .noClosure => "CLOSURE"
  | .other _ => "UNKNOWN"

/-- Null and `false` do not hold; everything else does. -/
def truthy : Value → Bool
  | .null => false
  | .bool b => b
  | _ => true

/-- The value reports a misuse of a builtin function. -/
def isError : Value → Bool
  | .error _ => true
  | _ => false

/-- What a value is filed under as a key. Only integers, booleans and strings are keys. -/
def hashKey? : Value → Option HashKey
  | .int n => some ⟨.int, n.toUInt64⟩
  | .bool b => some ⟨.bool, if b then 1 else 0⟩
  | .string s => some ⟨.string, s.digest⟩
  | _ => none

/-- The comparison of the language: by content for plain values, by identity for functions and
closures; arrays and hashes are never the same. -/
def same : Value → Value → Bool
  | .null, .null => true
  | .int a, .int b => a == b
  | .bool a, .bool b => a == b
  | .string a, .string b => a == b
  | .error a, .error b => a == b
  | .builtin a, .builtin b => a == b
  | .function a, .function b => a.map (·.id) == b.map (·.id)
  | .closure a _ _, .closure b _ _ => a == b
  | .noClosure, .noClosure => true
  | _, _ => false

mutual

/-- The value as the program shows it. -/
def inspect : Value → Bytes
  | .null => "null"
  | .int n => .ofInt n.toInt
  | .bool b => .ofBool b
  | .string s => s
  | .array items => "[" ++ Bytes.join ", " (inspectItems [] items) ++ "]"
  | .hash entries =>
    "\x7b" ++ Bytes.join ", " ((inspectEntries [] entries).mergeSort Bytes.le) ++ "\x7d"
  | .error message => "ERROR: " ++ message
  | .builtin fn => fn.inspect
  | .function fn => "CompiledFunction[" ++ Function.labelOf fn ++ "]"
  | .closure _ fn _ => "Closure[" ++ Function.labelOf fn ++ "]"
  | .noClosure => "Closure[<nil>]"
  | .other _ => "<unknown>"

/-- The elements of an array as text, put after `acc` reversed. -/
def inspectItems (acc : List Bytes) : List Value → List Bytes
  | [] => acc.reverse
  | v :: rest => inspectItems (v.inspect :: acc) rest

/-- The entries of a hash as text, put after `acc` reversed. -/
def inspectEntries (acc : List Bytes) : List (HashKey × Value × Value) → List Bytes
  | [] => acc.reverse
  | (_, key, value) :: rest => inspectEntries ((key.inspect ++ ": " ++ value.inspect) :: acc) rest

end

/-- The value as a listing shows it: strings are quoted, and functions are named. -/
def describe : Value → Bytes
  | .string s => s.quoted
  | .function fn => "fn " ++ Function.labelOf fn
  | v => v.inspect

end Value

end StackScript
