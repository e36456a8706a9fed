import StackScript.Bytes

/-!
# Operation codes

An operation is one byte, followed by operands of fixed widths. The bytes from
0 to 29 are operations, in the order of the table; the others are undefined.
-/

namespace StackScript

/-- What an instruction does. -/
inductive Opcode
  | const | null | true | false | pop
  | add | sub | mul | div | neg | not
  | equal | notEqual | greater
  | getGlobal | setGlobal | getLocal | setLocal | getBuiltin | getFree | currentClosure
  | array | hash | index
  | jump | jumpIfFalse
  | call | returnValue | ret | closure
  deriving DecidableEq, Repr, Inhabited

namespace Opcode

/-- The operations in the order of their bytes. -/
def table : Array Opcode :=
  #[.const, .null, .true, .false, .pop, .add, .sub, .mul, .div, .neg, .not, .equal, .notEqual,
    .greater, .getGlobal, .setGlobal, .getLocal, .setLocal, .getBuiltin, .getFree,
    .currentClosure, .array, .hash, .index, .jump, .jumpIfFalse, .call, .returnValue, .ret,
    .closure]

/-- The operation with this byte, if it is defined. -/
def ofByte? (b : UInt8) : Option Opcode := table[b.toNat]?

/-- The byte of an operation. -/
def toByte (op : Opcode) : UInt8 := op.ctorIdx.toUInt8

/-- The mnemonic. -/
def name : Opcode → String
  | .const => "OP_CONST"
  | .null => "OP_NULL"
  | .true => "OP_TRUE"
  | .false => "OP_FALSE"
  | .pop => "OP_POP"
  | .add => "OP_ADD"
  | .sub => "OP_SUB"
  | .mul => "OP_MUL"
  | .div => "OP_DIV"
  | .neg => "OP_NEG"
  | .not => "OP_NOT"
  | .equal => "OP_EQ"
  | .notEqual => "OP_NEQ"
  | .greater => "OP_GT"
  | .getGlobal => "OP_GET_GLOBAL"
  | .setGlobal => "OP_SET_GLOBAL"
  | .getLocal => "OP_GET_LOCAL"
  | .setLocal => "OP_SET_LOCAL"
  | .getBuiltin => "OP_GET_BUILTIN"
  | .getFree => "OP_GET_FREE"
  | .currentClosure => "OP_CURRENT_CLOSURE"
  | .array => "OP_ARRAY"
  | .hash => "OP_HASH"
  | .index => "OP_INDEX"
  | .jump => "OP_JUMP"
  | .jumpIfFalse => "OP_JUMP_IF_FALSE"
  | .call => "OP_CALL"
  | .returnValue => "OP_RETURN_VALUE"
  | .ret => "OP_RETURN"
  | .closure => "OP_CLOSURE"

/-- The widths of the operands, in bytes. -/
def widths : Opcode → List Nat
  | .const | .getGlobal | .setGlobal | .array | .hash | .jump | .jumpIfFalse => [2]
  | .getLocal | .setLocal | .getBuiltin | .getFree | .call => [1]
  | .closure => [2, 1]
  | _ => []

/-- The number of bytes of an instruction with this operation. -/
def size (op : Opcode) : Nat := 1 + op.widths.foldr (· + ·) 0

/-- The mnemonic of a byte, also if it is undefined. -/
def nameOfByte (b : UInt8) : Bytes :=
  match ofByte? b with
  | some op => op.name
  | none => "OP_0x" ++ Bytes.hexUpper b

/-- The byte of an operation leads back to it. -/
theorem ofByte?_toByte (op : Opcode) : ofByte? op.toByte = some op := by
  cases op <;> rfl

end Opcode

/-- The largest operand that fits in `width` bytes. -/
def maxOperand (width : Nat) : Nat := Nat.pow 256 width - 1

end StackScript
