import StackScript.Value

/-!
# Annotated listings

A listing shows main code and every function of the constants in a section of
its own, with constants and builtin functions named beside the operands. A
function is shown once, whatever the number of its mentions. Code that ends
inside an instruction ends the listing.

## Main definitions

* `Listing`: what has been written, and the functions already shown.
* `Listing.program`, `Listing.function`: add sections to a listing.
-/

namespace StackScript

/-- Why a listing cannot be completed. -/
inductive ListingError
  /-- The code ends inside the instruction at an offset. -/
  | truncated (offset : Nat)
  /-- There is no function to be shown. -/
  | absent
  deriving DecidableEq, Repr

/-- What is said about the fault. -/
def ListingError.message : ListingError → Bytes
  | .truncated offset => "unexpected end of bytecode at " ++ Bytes.ofOffset offset
  | .absent => "nil prototype"

/-- The state of a listing. -/
structure Listing where
  /-- What has been written, latest first. -/
  parts : List Bytes
  /-- The identities of the functions already shown. -/
  shown : List Nat
  deriving Inhabited

namespace Listing

/-- Nothing yet. -/
def empty : Listing := ⟨[], []⟩

/-- What has been written. -/
def text (l : Listing) : Bytes := l.parts.reverse.flatten

/-- A constant as a listing shows it. -/
def constantText (pool : Option (Array Value)) (number : Nat) : Bytes :=
  match pool.bind (·[number]?) with
  | some v => v.describe
  | none => "<invalid>"

/-- What the operands refer to, if that is worth a comment. -/
def comment (pool : Option (Array Value)) (i : Instr) : Option Bytes :=
  match i.op, i.operands with
  | .const, [number] => some ("const=" ++ constantText pool number)
  | .closure, [number, free] =>
    some ("fn=" ++ constantText pool number ++ " free=" ++ Bytes.ofNat free)
  | .getBuiltin, [slot] =>
    match Builtin.ofSlot? slot with
    | some b => some ("builtin=" ++ Bytes.ofString b.name)
    | none => some "builtin=<unknown>"
  | _, _ => none

/-- The start of a line: the offset and the mnemonic in columns. -/
def lead (offset : Nat) (name : Bytes) : Bytes :=
  Bytes.ofOffset offset ++ " " ++ Bytes.padRight 32 18 name

/-- The line of an instruction. -/
def line (pool : Option (Array Value)) (offset : Nat) (i : Instr) : Bytes :=
  let words := i.operands.map Bytes.ofNat
  let note := (comment pool i).map fun c => ("; " ++ c : Bytes)
  let detail := words ++ note.toList
  lead offset i.op.name ++ detail.flatMap (fun w => (" " ++ w : Bytes)) ++ "\n"

/-- A step of a listing, which may end in a fault and keeps what was written. -/
abbrev Write := EStateM ListingError Listing

/-- Write a text. -/
def write (s : Bytes) : Write Unit := modify fun l => { l with parts := s :: l.parts }

/-- Write the header of a section, after a blank line unless it is the first one. -/
def header (s : Bytes) : Write Unit := do
  unless (← get).parts.isEmpty do write "\n"
  write ("func " ++ s ++ "\n")

/-- Write the lines of what was found in a code. -/
def lines (pool : Option (Array Value)) : List (Nat × Code.Fetched) → Write Unit
  | [] => pure ()
  | (offset, .instr i) :: rest => do
    write (line pool offset i)
    lines pool rest
  | (offset, .undefined b) :: rest => do
    write (lead offset (Opcode.nameOfByte b) ++ "\n")
    lines pool rest
  | (offset, .truncated _) :: _ => throw (.truncated offset)

/-- Write the section of a function, unless it is shown already. The label wins over its name. -/
def function (pool : Option (Array Value)) (label : Bytes) : Option Function → Write Unit
  | none => throw .absent
  | some f => do
    unless (← get).shown.contains f.id do
      modify fun l => { l with shown := f.id :: l.shown }
      let name := if label = [] then Function.label f.name else label
      header (name ++ " (params=" ++ Bytes.ofNat f.params ++ ", locals=" ++ Bytes.ofNat f.locals ++ ")")
      lines pool f.code.walk

/-- Write the sections of the functions among constants, the first of which has the given number. -/
def functions (pool : Option (Array Value)) : Nat → List Value → Write Unit
  | _, [] => pure ()
  | number, .function (some f) :: rest => do
    let unnamed : Bytes := "<closure@const:" ++ Bytes.ofNat number ++ ">"
    function pool (if f.name = [] then unnamed else f.name) (some f)
    functions pool (number + 1) rest
  | number, _ :: rest => functions pool (number + 1) rest

/-- Write the sections of main code and of the functions of the constants, if there are any. -/
def program (pool : Option (Array Value)) (code : Code) : Write Unit := do
  let constants := pool.getD #[]
  header ("<main> (constants=" ++ Bytes.ofNat constants.size ++ ")")
  lines pool code.walk
  functions pool 0 constants.toList

end Listing

/-- The listing of main code with its constants. -/
def Listing.ofCode (code : Code) (constants : Array Value) : Except ListingError Bytes :=
  match Listing.program (some constants) code .empty with
  | .ok _ l => .ok l.text
  | .error e _ => .error e

end StackScript
