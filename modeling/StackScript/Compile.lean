import StackScript.Compiler
import StackScript.Tree.Render

/-!
# From trees to code

The code of a function is encoded when the function is complete. Jumps are
written with a provisional target, which is replaced once the length of what is
jumped over is known. A fault ends the compilation where it is found and leaves
everything drafted so far, with the names and constants that have been added.

## Main definitions

* `CompileError`: the faults, each with its place.
* `Compile`: a step of a compilation.
* `Expr.compile`, `Stmt.compile`, `Program.compile`: the code of a node.
-/

namespace StackScript

/-- A number that has to fit in an operand. -/
inductive Quantity
  | binding (name : Bytes)
  | array (n : Nat)
  | hash (n : Nat)
  | call (n : Nat)
  | params (n : Nat)
  | locals (n : Nat)
  | free (n : Nat)
  | constant (n : Nat)
  | jump (n : Nat)
  deriving DecidableEq, Repr

/-- What the quantity is called in messages. -/
def Quantity.text : Quantity → Bytes
  | .binding name => "binding " ++ name
  | .array n => "array of " ++ Bytes.ofNat n ++ " elements"
  | .hash n => "hash of " ++ Bytes.ofNat n ++ " pairs"
  | .call n => "call with " ++ Bytes.ofNat n ++ " arguments"
  | .params n => "function with " ++ Bytes.ofNat n ++ " parameters"
  | .locals n => "function with " ++ Bytes.ofNat n ++ " locals"
  | .free n => "closure over " ++ Bytes.ofNat n ++ " free variables"
  | .constant n => "constant " ++ Bytes.ofNat n
  | .jump n => "jump target " ++ Bytes.ofNat n

namespace CompileError

/-- What is wrong with a tree. -/
inductive Cause
  | undefinedVariable (name : Bytes)
  | unknownOperator (text : Bytes)
  /-- There is no function around the place that could be finished. -/
  | outermostScope
  /-- The tree has a hole. -/
  | unsupportedNode
  | operandOverflow (what : Quantity)
  /-- A key of a hash literal has a hole, so the pairs cannot be put in order. -/
  | unorderedKey
  deriving DecidableEq, Repr

/-- The name of the cause. -/
def Cause.name : Cause → String
  | .undefinedVariable _ => "undefined variable"
  | .unknownOperator _ => "unknown operator"
  | .outermostScope => "cannot leave outermost scope"
  | .unsupportedNode => "unsupported node"
  | .operandOverflow _ => "operand overflow"
  | .unorderedKey => "unordered key"

/-- What is said about the cause. -/
def Cause.detail : Cause → Bytes
  | .undefinedVariable name => "undefined variable " ++ name
  | .unknownOperator text => "unknown operator " ++ text
  | .outermostScope => "cannot leave outermost scope"
  | .unsupportedNode => "unsupported node type <nil>"
  | .operandOverflow what => what.text ++ " exceeds operand range"
  | .unorderedKey => "unordered key"

end CompileError

/-- A fault with its place. -/
structure CompileError where
  cause : CompileError.Cause
  pos : Pos
  deriving DecidableEq, Repr

/-- The message, led by its place if there is one. -/
def CompileError.message (e : CompileError) : Bytes :=
  if 0 < e.pos.line then e.pos.text ++ ": " ++ e.cause.detail else e.cause.detail

/-- A step of a compilation, which may end in a fault and moves the state in any case. -/
abbrev Compile := EStateM CompileError Compiler

namespace Compile

/-- End with a fault. -/
def fail {α : Type} (pos : Pos) (cause : CompileError.Cause) : Compile α := throw ⟨cause, pos⟩

/-- The number must fit in an operand of the given width. -/
def check (pos : Pos) (n width : Nat) (what : Quantity) : Compile Unit :=
  if n ≤ maxOperand width then pure () else fail pos (.operandOverflow what)

/-- Change the draft. -/
@[inline] def modifyDraft (f : Draft → Draft) : Compile Unit := modify (·.modifyDraft f)

/-- The draft. -/
@[inline] def draft : Compile Draft := do return (← get).scope.draft

/-- Add an instruction. -/
def emit (op : Opcode) (operands : List Nat) : Compile Unit := modifyDraft (·.emit ⟨op, operands⟩)

/-- Add a jump whose target is not known yet, and yield its number. -/
def emitJump (op : Opcode) : Compile Nat := do
  let number := (← draft).instrs.size
  emit op [9999]
  return number

/-- Let a jump end at the end of the draft. -/
def land (number : Nat) : Compile Unit := modifyDraft fun d => d.patch number d.size

/-- Add a constant and yield its number, which must fit in an operand. -/
def constant (pos : Pos) (make : Nat → Value) : Compile Nat := do
  let number := (← get).constants.size
  modify (·.addConstant (make number))
  check pos number 2 (.constant number)
  return number

/-- Bind a name in the current table. -/
def define (name : Bytes) : Compile Place := modifyGet (·.update (·.define name))

/-- Bind the own name of the current function, if it has one. -/
def defineSelf (name : Bytes) : Compile Unit :=
  if name = [] then pure () else modify fun c => (c.update (·.defineSelf name)).2

/-- Bind names one after another in the current table. -/
def defineAll : List Ident → Compile Unit
  | [] => pure ()
  | p :: rest => do
    let _ ← define p.name
    defineAll rest

/-- The place of a name seen from the current table. -/
def lookup (name : Bytes) : Compile (Option Place) := modifyGet (·.resolve name)

/-- Push the value at a place. -/
def load : Place → Compile Unit
  | .global slot => emit .getGlobal [slot]
  | .local slot => emit .getLocal [slot]
  | .builtin slot => emit .getBuiltin [slot.toNat]
  | .free index => emit .getFree [index]
  | .self => emit .currentClosure []

/-- Start a function with the given own name, if any, and parameters. -/
def enter (name : Bytes) (params : List Ident) : Compile Unit := do
  modify Compiler.enclose
  defineSelf name
  defineAll params

/-- Finish a function: back to what lies around it. -/
def leave : Compile Unit := do
  match (← get).leave? with
  | none => fail .none .outermostScope
  | some c => set c

/-- Push the captured values one after another. -/
def loadAll : List Symbol → Compile Unit
  | [] => pure ()
  | s :: rest => do
    load s.place
    loadAll rest

/-- The steps of pairs, in the order of their keys. -/
def runAll : List (Bytes × Compile Unit) → Compile Unit
  | [] => pure ()
  | step :: rest => do
    step.2
    runAll rest

/-- Complete the function whose body has been drafted, and push it as a closure. -/
def closeFunction (pos : Pos) (name : Bytes) (params : Nat) : Compile Unit := do
  modifyDraft Draft.close
  let s := (← get).scope
  let locals := s.table.definitions
  let free := s.table.free.toList
  check pos locals 1 (.locals locals)
  check pos free.length 1 (.free free.length)
  let code := s.draft.code
  leave
  loadAll free
  let number ← constant pos fun id => .function (some ⟨id, name, code, locals, params⟩)
  emit .closure [number, free.length]

end Compile

/-- The instruction of an operator with one operand. -/
def UnaryOp.opcode? : UnaryOp → Option Opcode
  | .not => some .not
  | .neg => some .neg
  | .other _ => none

/-- The instruction of an operator with two operands. "Less than" is "greater than" with its
operands exchanged. -/
def BinaryOp.opcode? : BinaryOp → Option Opcode
  | .add => some .add
  | .sub => some .sub
  | .mul => some .mul
  | .div => some .div
  | .less | .greater => some .greater
  | .equal => some .equal
  | .notEqual => some .notEqual
  | .other _ => none

open Compile

mutual

/-- Code that pushes the value of an expression. -/
def Expr.compile : Expr → Compile Unit
  | .ident id => do
    match ← lookup id.name with
    | some place => load place
    | none => fail id.loc.pos (.undefinedVariable id.name)
  | .int loc _ value => do
    let number ← constant loc.pos fun _ => .int value
    emit .const [number]
  | .string loc value => do
    let number ← constant loc.pos fun _ => .string value
    emit .const [number]
  | .bool _ value => emit (if value then .true else .false) []
  | .unary loc op right => do
    right.compile
    match op.opcode? with
    | some code => emit code []
    | none => fail loc.pos (.unknownOperator op.text)
  | .binary loc op left right => do
    if op = .less then
      right.compile
      left.compile
    else
      left.compile
      right.compile
    match op.opcode? with
    | some code => emit code []
    | none => fail loc.pos (.unknownOperator op.text)
  | .cond loc test yes no => do
    test.compile
    let toElse ← emitJump .jumpIfFalse
    yes.compile
    modifyDraft Draft.keepValue
    let toEnd ← emitJump .jump
    land toElse
    compileElse no
    land toEnd
    let target := (← draft).size
    check loc.pos target 2 (.jump target)
  | .function loc name params body => do
    check loc.pos params.length 1 (.params params.length)
    enter name params
    body.compile
    closeFunction loc.pos name params.length
  | .call loc callee args => do
    check loc.pos args.length 1 (.call args.length)
    callee.compile
    compileItems args
    emit .call [args.length]
  | .array loc items => do
    check loc.pos items.length 2 (.array items.length)
    compileItems items
    emit .array [items.length]
  | .hash loc pairs => do
    check loc.pos pairs.length 2 (.hash pairs.length)
    if 2 ≤ pairs.length ∧ pairs.any (fun p => !p.1.renderable) then fail loc.pos .unorderedKey
    runAll ((compilePairs [] pairs).mergeSort fun a b => Bytes.le a.1 b.1)
    emit .hash [pairs.length]
  | .index _ left index => do
    left.compile
    index.compile
    emit .index []
  | .missing => fail .none .unsupportedNode

/-- Code for expressions one after another. -/
def compileItems : List Expr → Compile Unit
  | [] => pure ()
  | e :: rest => do
    e.compile
    compileItems rest

/-- The texts of the keys of pairs with the steps that push key and value, put after `acc`
reversed. -/
def compilePairs (acc : List (Bytes × Compile Unit)) :
    List (Expr × Expr) → List (Bytes × Compile Unit)
  | [] => acc.reverse
  | (key, value) :: rest =>
    compilePairs ((key.render, do key.compile; value.compile) :: acc) rest

/-- Code for an alternative; a missing one is null. -/
def compileElse : Option Block → Compile Unit
  | none => emit .null []
  | some b => do
    b.compile
    modifyDraft Draft.keepValue

/-- Code for the statements of a block. -/
def Block.compile : Block → Compile Unit
  | .mk _ body => compileBody body

/-- Code for statements one after another. -/
def compileBody : List Stmt → Compile Unit
  | [] => pure ()
  | s :: rest => do
    s.compile
    compileBody rest

/-- Code for a statement. -/
def Stmt.compile : Stmt → Compile Unit
  | .bind loc id value => do
    match ← define id.name with
    | .global slot => do
      check loc.pos slot 2 (.binding id.name)
      value.compile
      emit .setGlobal [slot]
    | place => do
      check loc.pos place.index.toNat 1 (.binding id.name)
      value.compile
      emit .setLocal [place.index.toNat]
  | .ret _ none => emit .ret []
  | .ret _ (some value) => do
    value.compile
    emit .returnValue []
  | .expr _ value => do
    value.compile
    emit .pop []
  | .block body => body.compile
  | .missing => fail .none .unsupportedNode

end

/-- Code for a program. -/
def Program.compile (p : Program) : Compile Unit := compileBody p.body

end StackScript
