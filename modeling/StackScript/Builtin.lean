import StackScript.Bytes

/-!
# The builtin functions by name

Each builtin function has a name and a fixed slot, which is what an instruction
encodes. What they do is in `StackScript.Builtin.Apply`.
-/

namespace StackScript

/-- A builtin function. -/
inductive Builtin
  | len | log | first | last | rest | push | pop | toUpper | toLower
  deriving DecidableEq, Repr, Inhabited

namespace Builtin

/-- The builtin functions in the order of their slots. -/
def all : List Builtin := [.len, .log, .first, .last, .rest, .push, .pop, .toUpper, .toLower]

/-- The name in programs. -/
def name : Builtin → String
  | .len => "len"
  | .log => "log"
  | .first => "first"
  | .last => "last"
  | .rest => "rest"
  | .push => "push"
  | .pop => "pop"
  | .toUpper => "toUpper"
  | .toLower => "toLower"

/-- The slot. -/
def slot (b : Builtin) : Nat := b.ctorIdx

/-- The builtin function in a slot. -/
def ofSlot? (slot : Nat) : Option Builtin := all[slot]?

/-- The builtin function with a name. -/
def ofName? (name : Bytes) : Option Builtin := all.find? fun b => Bytes.ofString b.name == name

/-- The slot of a builtin function leads back to it. -/
theorem ofSlot?_slot (b : Builtin) : ofSlot? b.slot = some b := by
  cases b <;> rfl

/-- Why a builtin function cannot be added to the table. -/
inductive Refusal
  /-- There is nothing to call. -/
  | hollow (name : Bytes)
  /-- The slot does not fit in its operand. -/
  | slotRange (name : Bytes) (slot : Int)
  /-- The name is taken. -/
  | nameTaken (name : Bytes)
  /-- The slot is taken. -/
  | slotTaken (slot : Int)
  deriving DecidableEq, Repr

/-- What is said about a refusal. -/
def Refusal.message : Refusal → Bytes
  | .hollow name => "builtin " ++ name ++ " has nil function"
  | .slotRange name slot => "builtin " ++ name ++ " slot " ++ Bytes.ofInt slot ++ " out of range"
  | .nameTaken name => "builtin " ++ name ++ " already registered"
  | .slotTaken slot => "builtin slot " ++ Bytes.ofInt slot ++ " already registered"

/-- The slot is taken. -/
def taken (slot : Int) : Bool := all.any fun b => (b.slot : Int) == slot

/-- Whether a function could be added under a name and in a slot. -/
def admission (name : Bytes) (slot : Int) (callable : Bool) : Except Refusal Unit := do
  unless callable do throw (.hollow name)
  if slot < 0 ∨ 255 < slot then throw (.slotRange name slot)
  if (ofName? name).isSome then throw (.nameTaken name)
  if taken slot then throw (.slotTaken slot)

/-- Whether a name could be noted for a slot. -/
def nameAdmission (slot : Int) : Except Refusal Unit := do
  if taken slot then throw (.slotTaken slot)

end Builtin

end StackScript
