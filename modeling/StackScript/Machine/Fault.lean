import StackScript.Value

/-!
# Faults of a running program

A fault ends a run. It is reported with the place of the current instruction and
of the pending call in every function around it.
-/

namespace StackScript

/-- Why a run cannot go on. -/
inductive Fault
  | stackOverflow
  | frameOverflow (limit : Nat)
  /-- The operands of an arithmetic operation do not fit together. -/
  | binaryTypes (left right : String)
  /-- Strings can only be added. -/
  | stringOperator (op : Opcode)
  | negationType (type : String)
  /-- Only integers have an order. -/
  | orderTypes (left right : String)
  | divisionByZero
  | hashKey (type : String)
  | notIndexable (left index : String)
  | notCallable (type : String)
  /-- A builtin value with no function behind it was called. -/
  | emptyBuiltin
  /-- A closure was to be made of a constant that is no function. -/
  | notFunction (type : String)
  | wrongArguments (want got : Nat)
  | instructionLimit (limit : Nat)
  | unknownOpcode (b : UInt8)
  | globalRange (slot size : Nat)
  | unknownBuiltin (slot : Nat)
  deriving DecidableEq, Repr

namespace Fault

/-- The name of the cause. -/
def cause : Fault → String
  | .stackOverflow => "stack overflow"
  | .frameOverflow _ => "frame overflow"
  | .binaryTypes .. | .stringOperator _ | .negationType _ | .orderTypes .. => "unsupported operands"
  | .divisionByZero => "division by zero"
  | .hashKey _ => "unusable as hash key"
  | .notIndexable .. => "index operator not supported"
  | .notCallable _ | .emptyBuiltin | .notFunction _ => "not callable"
  | .wrongArguments .. => "wrong number of arguments"
  | .instructionLimit _ => "instruction limit exceeded"
  | .unknownOpcode _ => "unknown opcode"
  | .globalRange .. => "global index out of range"
  | .unknownBuiltin _ => "unknown builtin"

/-- What is said about the fault. -/
def detail : Fault → Bytes
  | .stackOverflow => "stack overflow"
  | .frameOverflow limit => "frame overflow: more than " ++ Bytes.ofNat limit ++ " nested calls"
  | .binaryTypes left right => "unsupported types for binary operation: " ++ left ++ " " ++ right
  | .stringOperator op => "unknown string operator: " ++ op.name
  | .negationType type => "unsupported type for negation: " ++ type
  | .orderTypes left right =>
    "unknown operator: " ++ Opcode.greater.name ++ " (" ++ left ++ " " ++ right ++ ")"
  | .divisionByZero => "division by zero"
  | .hashKey type => "unusable as hash key: " ++ type
  | .notIndexable left index => "index operator not supported: " ++ left ++ "[" ++ index ++ "]"
  | .notCallable type => "calling non-function and non-built-in: " ++ type
  | .emptyBuiltin => "calling empty builtin"
  | .notFunction type => "not a function: " ++ type
  | .wrongArguments want got =>
    "wrong number of arguments: want=" ++ Bytes.ofNat want ++ ", got=" ++ Bytes.ofNat got
  | .instructionLimit limit => "instruction limit of " ++ Bytes.ofNat limit ++ " exceeded"
  | .unknownOpcode b => "opcode 0x" ++ Bytes.hexUpper b ++ " undefined"
  | .globalRange slot size =>
    "global " ++ Bytes.ofNat slot ++ " outside store of " ++ Bytes.ofNat size
  | .unknownBuiltin slot => "no builtin in slot " ++ Bytes.ofNat slot

end Fault

/-- Where a function was when a fault was raised: its name, the offset reached in its code, and the
mnemonic of the byte there, if there is one. -/
structure FramePoint where
  function : Bytes
  offset : Nat
  op : Option Bytes
  deriving DecidableEq, Repr

/-- A fault with the points of all functions, the innermost first. -/
structure RuntimeError where
  fault : Fault
  point : FramePoint
  trace : List FramePoint
  deriving DecidableEq, Repr

namespace RuntimeError

/-- The message, led by where the fault was raised. -/
def message (e : RuntimeError) : Bytes :=
  let place : Bytes :=
    match e.point.op with
    | some op => " at " ++ Bytes.ofOffset e.point.offset ++ " " ++ op
    | none => []
  "in " ++ e.point.function ++ place ++ ": " ++ e.fault.detail

end RuntimeError

end StackScript
