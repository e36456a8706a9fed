import StackScript.Code.Opcode

/-!
# Instructions

An instruction is an operation with its operands, written as the byte of the
operation and the operands with their most significant byte first. An operand
that does not fit its width loses its high bytes.

## Main definitions

* `Opcode.encode`, `Instr.encode`: an instruction as bytes.
* `Code.fetch`: the instruction at an offset of a code.
* `Code.listing`: a code as text, one instruction a line.
-/

namespace StackScript

/-- An operation with its operands. -/
structure Instr where
  op : Opcode
  operands : List Nat
  deriving DecidableEq, Repr, Inhabited

/-- Encoded instructions, one after another. -/
abbrev Code := Array UInt8

/-- The low `width` bytes of an integer, most significant first. -/
def encodeOperand : Nat → Int → Bytes
  | 0, _ => []
  | width + 1, n => (n / Int.pow 256 width % 256).toNat.toUInt8 :: encodeOperand width n

/-- Operands of the given widths. Missing ones are zero, and surplus ones are left out. -/
def encodeOperands : List Nat → List Int → Bytes
  | [], _ => []
  | width :: widths, [] => encodeOperand width 0 ++ encodeOperands widths []
  | width :: widths, n :: ns => encodeOperand width n ++ encodeOperands widths ns

/-- The instruction with this operation and these operands. -/
def Opcode.encode (op : Opcode) (operands : List Int) : Bytes :=
  op.toByte :: encodeOperands op.widths operands

namespace Instr

/-- The bytes of an instruction. -/
def encode (i : Instr) : Bytes := i.op.encode (i.operands.map Int.ofNat)

/-- The mnemonic and the operands, in decimal. -/
def text (i : Instr) : Bytes :=
  Bytes.join " " (Bytes.ofString i.op.name :: i.operands.map Bytes.ofNat)

end Instr

namespace Code

/-- The code made of the given instructions. -/
def ofInstrs (instrs : List Instr) : Code := (instrs.flatMap Instr.encode).toArray

/-- The number in `width` bytes at an offset, unless the code ends before. -/
def readOperand (code : Code) (offset : Nat) : Nat → Option Nat
  | 0 => some 0
  | width + 1 => do
    let high ← readOperand code offset width
    let low ← code[offset + width]?
    return 256 * high + low.toNat

/-- The operands of the given widths at an offset, unless the code ends before. -/
def readOperands (code : Code) (offset : Nat) : List Nat → Option (List Nat)
  | [] => some []
  | width :: widths => do
    let n ← readOperand code offset width
    let ns ← readOperands code (offset + width) widths
    return n :: ns

/-- What stands at an offset. -/
inductive Fetched
  /-- A whole instruction. -/
  | instr (i : Instr)
  /-- A byte that is no operation. -/
  | undefined (b : UInt8)
  /-- An operation whose operands reach past the end. -/
  | truncated (op : Opcode)
  deriving Repr

/-- What stands at an offset inside the code, and nothing outside it. -/
def fetch (code : Code) (offset : Nat) : Option Fetched :=
  match code[offset]? with
  | none => none
  | some b =>
    match Opcode.ofByte? b with
    | none => some (.undefined b)
    | some op =>
      match readOperands code (offset + 1) op.widths with
      | none => some (.truncated op)
      | some operands => some (.instr ⟨op, operands⟩)

/-- What is found when walking through a code from an offset on, put after `acc` reversed: each
item with its offset. The walk ends at the end of the code or at a truncated instruction. -/
def walkFrom (code : Code) (acc : List (Nat × Fetched)) (offset : Nat) : List (Nat × Fetched) :=
  if _h : offset < code.size then
    match code.fetch offset with
    | none => acc.reverse
    | some (.undefined b) => walkFrom code ((offset, .undefined b) :: acc) (offset + 1)
    | some (.truncated op) => ((offset, .truncated op) :: acc).reverse
    | some (.instr i) => walkFrom code ((offset, .instr i) :: acc) (offset + i.op.size)
  else acc.reverse
termination_by code.size - offset
decreasing_by
  · omega
  · simp only [Opcode.size]
    omega

/-- What is found when walking through a code from its start. -/
def walk (code : Code) : List (Nat × Fetched) := code.walkFrom [] 0

/-- The lines of a code from an offset on, put after `acc` reversed, unless it ends inside an
instruction. Only the line of an instruction has its offset. -/
def listingFrom (code : Code) (acc : List Bytes) (offset : Nat) : Option Bytes :=
  if h : offset < code.size then
    let b := code[offset]
    match Opcode.ofByte? b with
    | none =>
      listingFrom code (("ERROR: opcode 0x" ++ Bytes.hexUpper b ++ " undefined\n") :: acc)
        (offset + 1)
    | some op =>
      match code.readOperands (offset + 1) op.widths with
      | none => none
      | some operands =>
        listingFrom code ((.ofOffset offset ++ " " ++ Instr.text ⟨op, operands⟩ ++ "\n") :: acc)
          (offset + op.size)
  else some acc.reverse.flatten
termination_by code.size - offset
decreasing_by
  · omega
  · simp only [Opcode.size]
    omega

/-- A code as text, one instruction a line, unless it ends inside an instruction. -/
def listing (code : Code) : Option Bytes := code.listingFrom [] 0

end Code

end StackScript
