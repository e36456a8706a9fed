import StackScript.Builtin.Apply
import StackScript.Machine.Operators

/-!
# The stack machine

The machine executes code on a stack of fixed size. A call puts a frame on top
of its caller's: its locals start where its arguments were pushed. Popping moves
the top of the stack only, so that what was popped stays readable.

A run ends when the current function has no instruction left, in a fault, or in
a crash: an access outside the stack, the constants, the captured values or the
code. Code from the compiler never crashes.

## Main definitions

* `Machine`: the state.
* `Machine.step`: the execution of one instruction.
* `Machine.run`: execution for at most a number of instructions.
-/

namespace StackScript

/-- A call in progress. -/
structure Frame where
  fn : Function
  /-- The identity of the closure that was called. -/
  id : Nat
  free : List Value
  /-- The offset of what is executed next. While an instruction is executed it is the offset after
  that instruction. -/
  next : Nat
  /-- Where the locals start on the stack. -/
  base : Nat
  deriving Inhabited

namespace Frame

/-- The name of the function. -/
def name (f : Frame) : Bytes := Function.label f.fn.name

/-- Where the function is: the last byte that was read. -/
def point (f : Frame) : FramePoint where
  function := f.name
  offset := f.next - 1
  op := f.fn.code[f.next - 1]?.map Opcode.nameOfByte

end Frame

/-- The counters of a run. -/
structure Stats where
  instructions : Nat
  /-- The greatest height that a push has reached. -/
  maxStack : Nat
  /-- The greatest number of frames, or zero if there was no call. -/
  maxFrames : Nat
  deriving DecidableEq, Repr, Inhabited

/-- An instruction that is about to be executed. -/
structure TraceEvent where
  function : Bytes
  offset : Nat
  op : UInt8
  sp : Nat
  depth : Nat
  deriving Repr

namespace TraceEvent

/-- A line of a trace, indented by the depth of the call. -/
def line (e : TraceEvent) : Bytes :=
  Bytes.padLeft 32 (2 * (e.depth - 1)) [] ++ e.function ++ " " ++ Bytes.ofOffset e.offset ++ " "
    ++ Bytes.padRight 32 18 (Opcode.nameOfByte e.op) ++ " sp=" ++ Bytes.ofNat e.sp ++ "\n"

end TraceEvent

/-- The sizes of a machine. -/
structure Sizes where
  stack : Nat
  frames : Nat
  /-- The most instructions a run may execute; zero is no limit. -/
  limit : Nat
  deriving DecidableEq, Repr, Inhabited

/-- The state of the machine. -/
structure Machine where
  constants : Array Value
  globals : Array Value
  stack : Array Value
  /-- The number of values on the stack. -/
  sp : Nat
  frame : Frame
  /-- The frames below the current one, the innermost last. -/
  callers : Array Frame
  maxFrames : Nat
  limit : Nat
  /-- The identity of the next closure. -/
  fresh : Nat
  /-- What was written, latest first. -/
  output : List Bytes
  tracing : Bool
  /-- What was executed, latest first, if the machine is tracing. -/
  trace : List TraceEvent
  stats : Stats
  deriving Inhabited

/-- Why a run ends before its code does. -/
inductive Stop
  | fault (e : RuntimeError)
  /-- An access out of range. -/
  | crash
  deriving DecidableEq, Repr

/-- A part of the execution of an instruction. -/
abbrev Exec := EStateM Stop Machine

namespace Exec

/-- End in a crash. -/
def crash {α : Type} : Exec α := throw .crash

/-- End in a fault, reported where the machine is. -/
def raise {α : Type} (fault : Fault) : Exec α := do
  let m ← get
  let point := m.frame.point
  throw (.fault ⟨fault, point, point :: (m.callers.toList.reverse.map Frame.point)⟩)

/-- Push a value. -/
def push (v : Value) : Exec Unit := do
  if (← get).sp < (← get).stack.size then
    modify fun m =>
      { m with
        stack := m.stack.setIfInBounds m.sp v
        sp := m.sp + 1
        stats := { m.stats with maxStack := max m.stats.maxStack (m.sp + 1) } }
  else raise .stackOverflow

/-- Pop a value. -/
def pop : Exec Value := do
  let m ← get
  if m.sp = 0 then crash
  else
    match m.stack[m.sp - 1]? with
    | some v => do
      modify fun m => { m with sp := m.sp - 1 }
      return v
    | none => crash

/-- The top `n` values, in the order they were pushed. They stay on the stack. -/
def top (n : Nat) : Exec (List Value) := do
  let m ← get
  if n ≤ m.sp ∧ m.sp ≤ m.stack.size then return (m.stack.extract (m.sp - n) m.sp).toList else crash

/-- Take `n` values from the stack. -/
def drop (n : Nat) : Exec Unit := modify fun m => { m with sp := m.sp - n }

/-- Continue at an offset. -/
def jumpTo (offset : Nat) : Exec Unit :=
  modify fun m => { m with frame := { m.frame with next := offset } }

/-- Go on with what was computed, or end in the fault. -/
def attempt {α : Type} : Except Fault α → Exec α
  | .ok a => return a
  | .error fault => raise fault

/-- Set `n` slots of the stack to null from `i` on. -/
def clear (stack : Array Value) (i : Nat) : Nat → Array Value
  | 0 => stack
  | n + 1 => clear (stack.setIfInBounds i .null) (i + 1) n

/-- Enter a closure with the top `n` values as arguments. -/
def enter (id : Nat) (fn : Function) (free : List Value) (n : Nat) : Exec Unit := do
  if n ≠ fn.params then raise (.wrongArguments fn.params n)
  let m ← get
  if m.maxFrames ≤ m.callers.size + 1 then raise (.frameOverflow m.maxFrames)
  let base := m.sp - n
  let newTop := base + fn.locals
  if m.stack.size < newTop then raise .stackOverflow
  modify fun m =>
    let callers := m.callers.push m.frame
    { m with
      callers := callers
      frame := ⟨fn, id, free, 0, base⟩
      stack := clear m.stack (base + n) (fn.locals - n)
      sp := newTop
      stats := { m.stats with maxFrames := max m.stats.maxFrames (callers.size + 1) } }

variable [Casing]

/-- Call the value below the top `n` values with these as arguments. -/
def call (n : Nat) : Exec Unit := do
  let m ← get
  if m.sp < n + 1 then crash
  else
    match m.stack[m.sp - 1 - n]? with
    | none => crash
    | some (.closure id (some fn) free) => enter id fn free n
    | some (.closure _ none _) | some .noClosure => crash
    | some (.builtin (.known b)) => do
      let args ← top n
      modify fun m =>
        { m with sp := m.sp - n - 1, output := (b.output args) :: m.output }
      push (b.value args)
    | some (.builtin _) => raise .emptyBuiltin
    | some v => raise (.notCallable v.typeName)

/-- Return a value from the current function. A return from the main code ends the run with that
value as the one popped last. -/
def leave (v : Value) : Exec Unit := do
  let m ← get
  match m.callers.back? with
  | none =>
    push v
    drop 1
    jumpTo m.frame.fn.code.size
  | some caller =>
    modify fun m =>
      { m with callers := m.callers.pop, frame := caller, sp := m.frame.base - 1 }
    push v

/-- Make a closure of a function constant and the top `n` values. -/
def close (number n : Nat) : Exec Unit := do
  match (← get).constants[number]? with
  | none => crash
  | some (.function fn) => do
    let free ← top n
    drop n
    let id ← modifyGet fun m => (m.fresh, { m with fresh := m.fresh + 1 })
    push (.closure id fn free)
  | some v => raise (.notFunction v.typeName)

/-- Execute an instruction. Its frame stands after it. -/
def exec (i : Instr) : Exec Unit := do
  match i.op, i.operands with
  | .const, [number] =>
    match (← get).constants[number]? with
    | some v => push v
    | none => crash
  | .null, _ => push .null
  | .true, _ => push (.bool true)
  | .false, _ => push (.bool false)
  | .pop, _ => discard pop
  | .add, _ | .sub, _ | .mul, _ | .div, _ => do
    let right ← pop
    let left ← pop
    push (← attempt (left.arithmetic i.op right))
  | .equal, _ => do
    let right ← pop
    let left ← pop
    push (.bool (left.same right))
  | .notEqual, _ => do
    let right ← pop
    let left ← pop
    push (.bool (!left.same right))
  | .greater, _ => do
    let right ← pop
    let left ← pop
    push (← attempt (left.greater right))
  | .not, _ => do
    let v ← pop
    push (.bool (!v.truthy))
  | .neg, _ => do
    let v ← pop
    push (← attempt v.negate)
  | .jump, [target] => jumpTo target
  | .jumpIfFalse, [target] => do
    let v ← pop
    unless v.truthy do jumpTo target
  | .setGlobal, [slot] => do
    let size := (← get).globals.size
    if slot < size then
      let v ← pop
      modify fun m => { m with globals := m.globals.setIfInBounds slot v }
    else raise (.globalRange slot size)
  | .getGlobal, [slot] => do
    let m ← get
    match m.globals[slot]? with
    | some v => push v
    | none => raise (.globalRange slot m.globals.size)
  | .setLocal, [slot] => do
    let v ← pop
    let m ← get
    if m.frame.base + slot < m.stack.size then
      modify fun m => { m with stack := m.stack.setIfInBounds (m.frame.base + slot) v }
    else crash
  | .getLocal, [slot] => do
    let m ← get
    match m.stack[m.frame.base + slot]? with
    | some v => push v
    | none => crash
  | .getBuiltin, [slot] => do
    match Builtin.ofSlot? slot with
    | some b => push (.builtin (.known b))
    | none => raise (.unknownBuiltin slot)
  | .getFree, [number] => do
    match (← get).frame.free[number]? with
    | some v => push v
    | none => crash
  | .currentClosure, _ => do
    let f := (← get).frame
    push (.closure f.id (some f.fn) f.free)
  | .array, [n] => do
    let items ← top n
    drop n
    push (.array items)
  | .hash, [n] => do
    let entries ← attempt (Entry.pairUp [] (← top (2 * n)))
    drop (2 * n)
    push (.hash (Entry.file entries))
  | .index, _ => do
    let i ← pop
    let left ← pop
    push (← attempt (left.index i))
  | .call, [n] => call n
  | .returnValue, _ => do
    leave (← pop)
  | .ret, _ => leave .null
  | .closure, [number, n] => close number n
  | _, _ => crash

/-- Count the instruction at `offset`, which may be one too many, and note it in the trace. -/
def count (offset : Nat) (op : UInt8) : Exec Unit := do
  modify fun m =>
    { m with
      frame := { m.frame with next := offset + 1 }
      stats := { m.stats with instructions := m.stats.instructions + 1 } }
  let m ← get
  if 0 < m.limit ∧ m.limit < m.stats.instructions then raise (.instructionLimit m.limit)
  if m.tracing then
    modify fun m =>
      { m with trace := ⟨m.frame.name, offset, op, m.sp, m.callers.size + 1⟩ :: m.trace }

end Exec

namespace Machine

/-- A machine with the given sizes that is about to execute main code. -/
def load (sizes : Sizes) (globals : Array Value) (code : Code) (constants : Array Value)
    (fresh : Nat) (tracing : Bool) : Machine where
  constants := constants
  globals := globals
  stack := Array.replicate sizes.stack .null
  sp := 0
  frame := ⟨⟨0, "<main>", code, 0, 0⟩, 0, [], 0, 0⟩
  callers := #[]
  maxFrames := sizes.frames
  limit := sizes.limit
  fresh := fresh
  output := []
  tracing := tracing
  trace := []
  stats := ⟨0, 0, 0⟩

variable [Casing]

/-- The current function has an instruction left. -/
def running (m : Machine) : Bool := m.frame.next < m.frame.fn.code.size

/-- Execute the next instruction. -/
def step : Exec Unit := do
  let m ← get
  let offset := m.frame.next
  let code := m.frame.fn.code
  match code[offset]? with
  | none => Exec.crash
  | some b => do
    Exec.count offset b
    match code.fetch offset with
    | some (.instr i) => do
      Exec.jumpTo (offset + i.op.size)
      Exec.exec i
    | some (.undefined b) => Exec.raise (.unknownOpcode b)
    | some (.truncated _) | none => Exec.crash

/-- How a run ends. -/
inductive Ending
  /-- No instruction is left. -/
  | finished
  | stopped (s : Stop)
  /-- The number of instructions that was allowed for was not enough. -/
  | unfinished
  deriving DecidableEq, Repr

/-- Execute at most `fuel` instructions. -/
def runFor : Nat → Machine → Ending × Machine
  | 0, m => (if m.running then .unfinished else .finished, m)
  | fuel + 1, m =>
    if m.running then
      match step m with
      | .ok _ m => runFor fuel m
      | .error s m => (.stopped s, m)
    else (.finished, m)

/-- Start counting instructions anew and execute at most `fuel` of them. -/
def run (fuel : Nat) (m : Machine) : Ending × Machine :=
  runFor fuel { m with stats := { m.stats with instructions := 0 } }

/-- The value that was popped last, or null if the stack is full. -/
def lastPopped (m : Machine) : Value := m.stack[m.sp]?.getD .null

/-- The value on top of the stack, or null if there is none. -/
def stackTop (m : Machine) : Value := if m.sp = 0 then .null else m.stack[m.sp - 1]?.getD .null

/-- Everything that was written. -/
def written (m : Machine) : Bytes := m.output.reverse.flatten

/-- The whole trace as text. -/
def traceText (m : Machine) : Bytes := m.trace.reverse.flatMap TraceEvent.line

end Machine

end StackScript
