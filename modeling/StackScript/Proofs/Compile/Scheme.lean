import StackScript.Compile
import StackScript.Proofs.Code.Layout

/-!
# The compilation scheme

Compiling a node adds a stretch of instructions to the draft of the current
function and leaves other names and constants behind. The scheme says which
stretch, as a relation between the offset where it starts, the names and
constants before, the instructions, and the names and constants after. It speaks
of finished instructions only: jumps have their targets, and branches and
function bodies end as they do in the code.

## Main definitions

* `Context`: names and constants.
* `Emission`: what a node may be compiled to.
* `Expr.Emits`, `Stmt.Emits`: the scheme.
-/

namespace StackScript

/-! ### Names and constants -/

/-- What a compilation has besides its drafts. -/
structure Context where
  constants : Array Value
  /-- The names of the innermost function, or of the program. -/
  table : Table
  /-- The tables around it, from the inside out. -/
  outer : List Table

namespace Context

/-- The tables from the inside out. -/
def tables (σ : Context) : List Table := σ.table :: σ.outer

/-- Add a constant. -/
def push (σ : Context) (v : Value) : Context := { σ with constants := σ.constants.push v }

/-- Start a function with the given own name, if any, and parameters. -/
def enter (σ : Context) (name : Bytes) (params : List Ident) : Context where
  constants := σ.constants
  table :=
    params.foldl (fun t p => (t.define p.name).2)
      (if name = [] then .empty true else ((Table.empty true).defineSelf name).2)
  outer := σ.tables

/-- Bind a name in the current table. -/
def define (σ : Context) (name : Bytes) : Context :=
  { σ with table := (σ.table.define name).2 }

end Context

/-! ### Single instructions and the ends of bodies -/

/-- The instruction that pushes the value at a place. -/
def Place.load : Place → Instr
  | .global slot => ⟨.getGlobal, [slot]⟩
  | .local slot => ⟨.getLocal, [slot]⟩
  | .builtin slot => ⟨.getBuiltin, [slot.toNat]⟩
  | .free index => ⟨.getFree, [index]⟩
  | .self => ⟨.currentClosure, []⟩

/-- The instruction that stores a value at a place that a name can be bound to. -/
def Place.store : Place → Instr
  | .global slot => ⟨.setGlobal, [slot]⟩
  | place => ⟨.setLocal, [place.index.toNat]⟩

/-- The place fits in the operand of the instruction that stores there. -/
def Place.Storable : Place → Prop
  | .global slot => slot ≤ maxOperand 2
  | place => place.index.toNat ≤ maxOperand 1

namespace Instr

/-- The instruction returns from its function. -/
def Returns (i : Instr) : Prop := i.op = .returnValue ∨ i.op = .ret

instance (i : Instr) : Decidable i.Returns := inferInstanceAs (Decidable (_ ∨ _))

/-- The instructions of a branch with one value at its end. -/
def keepValue (is : List Instr) : List Instr :=
  match is.getLast? with
  | none => [⟨.null, []⟩]
  | some i =>
    if i.op = .pop then is.dropLast else if i.Returns then is else is ++ [⟨.null, []⟩]

/-- The instructions of a function's body with the return at its end. -/
def close (is : List Instr) : List Instr :=
  match is.getLast? with
  | none => [⟨.ret, []⟩]
  | some i =>
    if i.op = .pop then is.dropLast ++ [⟨.returnValue, []⟩]
    else if i.Returns then is else is ++ [⟨.ret, []⟩]

end Instr

/-- The pairs of a hash literal in the order in which they are evaluated. -/
def Expr.inOrder (pairs : List (Expr × Expr)) : List (Expr × Expr) :=
  pairs.mergeSort fun a b => Bytes.le a.1.render b.1.render

/-- The order of pairs does not change when each carries something along with its text. -/
theorem Expr.mergeSort_keyed {α : Type} (f : Expr × Expr → α) (pairs : List (Expr × Expr)) :
    (pairs.map fun p => (p.1.render, f p)).mergeSort (fun a b => Bytes.le a.1 b.1) =
      (Expr.inOrder pairs).map fun p => (p.1.render, f p) := by
  rw [Expr.inOrder, List.map_mergeSort]
  intro a _ b _
  rfl

theorem Expr.mem_inOrder {pairs : List (Expr × Expr)} {p : Expr × Expr} :
    p ∈ Expr.inOrder pairs ↔ p ∈ pairs :=
  List.mem_mergeSort

@[simp] theorem Expr.length_inOrder (pairs : List (Expr × Expr)) :
    (Expr.inOrder pairs).length = pairs.length :=
  List.length_mergeSort pairs

/-! ### The scheme -/

/-- What may be emitted: the offset where it starts, names and constants before, the instructions,
names and constants after. -/
abbrev Emission := Nat → Context → List Instr → Context → Prop

namespace Emission

/-- Nothing. -/
def nothing : Emission := fun _ σ seg σ' => seg = [] ∧ σ' = σ

/-- One instruction. -/
def one (i : Instr) : Emission := fun _ σ seg σ' => seg = [i] ∧ σ' = σ

/-- The instruction of an operator, if it has one. -/
def operator (op : Option Opcode) : Emission := fun _ σ seg σ' =>
  ∃ code, op = some code ∧ seg = [⟨code, []⟩] ∧ σ' = σ

/-- One after another. -/
def seq (p q : Emission) : Emission := fun offset σ seg σ' =>
  ∃ s τ t, p offset σ s τ ∧ q (offset + Instr.bytes s) τ t σ' ∧ seg = s ++ t

/-- All of them, one after another. -/
def all (ps : List Emission) : Emission := ps.foldr seq nothing

/-- Only under a condition. -/
def given (P : Prop) (p : Emission) : Emission := fun offset σ seg σ' => P ∧ p offset σ seg σ'

/-- A constant, pushed by its number. -/
def const (v : Value) : Emission := fun _ σ seg σ' =>
  σ.constants.size ≤ maxOperand 2 ∧ seg = [⟨.const, [σ.constants.size]⟩] ∧ σ' = σ.push v

/-- The value of a name. -/
def ident (name : Bytes) : Emission := fun _ σ seg σ' =>
  ∃ place, resolve name σ.tables = some (place, σ'.tables) ∧ seg = [place.load] ∧
    σ'.constants = σ.constants

/-- A branch, with one value at its end. -/
def branch (p : Emission) : Emission := fun offset σ seg σ' =>
  ∃ s, p offset σ s σ' ∧ seg = Instr.keepValue s

/-- A test, which is followed by a jump to the second of two branches, and the two branches with a
jump over the second one in between. -/
def cond (test yes no : Emission) : Emission := fun offset σ seg σ' =>
  ∃ s σ₁ t σ₂ u yesAt elseAt endAt,
    test offset σ s σ₁ ∧ yes yesAt σ₁ t σ₂ ∧ no elseAt σ₂ u σ' ∧
    yesAt = offset + Instr.bytes s + Opcode.jumpIfFalse.size ∧
    elseAt = yesAt + Instr.bytes t + Opcode.jump.size ∧ endAt = elseAt + Instr.bytes u ∧
    endAt ≤ maxOperand 2 ∧
    seg = s ++ ⟨.jumpIfFalse, [elseAt]⟩ :: (t ++ ⟨.jump, [endAt]⟩ :: u)

/-- The value is bound to a name, which is bound already while it is computed. -/
def bind (name : Bytes) (value : Emission) : Emission := fun offset σ seg σ' =>
  (σ.table.define name).1.Storable ∧
    ∃ s, value offset (σ.define name) s σ' ∧ seg = s ++ [(σ.table.define name).1.store]

/-- The captured values, and a closure of a new function constant with the given body. -/
def function (name : Bytes) (params : List Ident) (body : Emission) : Emission :=
  fun _ σ seg σ' =>
    ∃ s τ table outer, body 0 (σ.enter name params) s τ ∧ τ.outer = table :: outer ∧
      τ.table.definitions ≤ maxOperand 1 ∧ τ.table.free.size ≤ maxOperand 1 ∧
      τ.constants.size ≤ maxOperand 2 ∧
      seg = τ.table.free.toList.map (·.place.load) ++
        [⟨.closure, [τ.constants.size, τ.table.free.size]⟩] ∧
      σ' = ⟨τ.constants.push (.function (some ⟨τ.constants.size, name, .ofInstrs (Instr.close s),
        τ.table.definitions, params.length⟩)), table, outer⟩

end Emission

open Emission

mutual

/-- What an expression is compiled to. -/
def Expr.Emits : Expr → Emission
  | .ident id => Emission.ident id.name
  | .int _ _ value => const (.int value)
  | .string _ value => const (.string value)
  | .bool _ value => one ⟨if value then .true else .false, []⟩
  | .unary _ op right => right.Emits.seq (operator op.opcode?)
  | .binary _ op left right =>
    if op = .less then right.Emits.seq (left.Emits.seq (operator op.opcode?))
    else left.Emits.seq (right.Emits.seq (operator op.opcode?))
  | .cond _ test yes no => Emission.cond test.Emits (branch yes.Emits) (emitsElse no)
  | .function _ name params body =>
    given (params.length ≤ maxOperand 1) (Emission.function name params body.Emits)
  | .call _ callee args =>
    given (args.length ≤ maxOperand 1)
      (callee.Emits.seq ((all (emitsItems args)).seq (one ⟨.call, [args.length]⟩)))
  | .array _ items =>
    given (items.length ≤ maxOperand 2)
      ((all (emitsItems items)).seq (one ⟨.array, [items.length]⟩))
  | .hash _ pairs =>
    given (pairs.length ≤ maxOperand 2)
      ((all (((emitsPairs pairs).mergeSort fun a b => Bytes.le a.1 b.1).map (·.2))).seq
        (one ⟨.hash, [pairs.length]⟩))
  | .index _ left index => left.Emits.seq (index.Emits.seq (one ⟨.index, []⟩))
  | .missing => fun _ _ _ _ => False

/-- What expressions are compiled to. -/
def emitsItems : List Expr → List Emission
  | [] => []
  | e :: rest => e.Emits :: emitsItems rest

/-- What the pairs of a hash literal are compiled to, with the texts of their keys. -/
def emitsPairs : List (Expr × Expr) → List (Bytes × Emission)
  | [] => []
  | (key, value) :: rest => (key.render, key.Emits.seq value.Emits) :: emitsPairs rest

/-- What an alternative is compiled to. -/
def emitsElse : Option Block → Emission
  | none => one ⟨.null, []⟩
  | some b => branch b.Emits

/-- What a block is compiled to. -/
def Block.Emits : Block → Emission
  | .mk _ body => all (emitsBody body)

/-- What statements are compiled to. -/
def emitsBody : List Stmt → List Emission
  | [] => []
  | s :: rest => s.Emits :: emitsBody rest

/-- What a statement is compiled to. -/
def Stmt.Emits : Stmt → Emission
  | .bind _ id value => Emission.bind id.name value.Emits
  | .ret _ none => one ⟨.ret, []⟩
  | .ret _ (some value) => value.Emits.seq (one ⟨.returnValue, []⟩)
  | .expr _ value => value.Emits.seq (one ⟨.pop, []⟩)
  | .block body => body.Emits
  | .missing => fun _ _ _ _ => False

end

theorem emitsItems_eq (items : List Expr) : emitsItems items = items.map Expr.Emits := by
  induction items with
  | nil => simp [emitsItems]
  | cons e rest ih => simp [emitsItems, ih]

theorem emitsBody_eq (body : List Stmt) : emitsBody body = body.map Stmt.Emits := by
  induction body with
  | nil => simp [emitsBody]
  | cons s rest ih => simp [emitsBody, ih]

theorem emitsPairs_eq (pairs : List (Expr × Expr)) :
    emitsPairs pairs = pairs.map fun p => (p.1.render, p.1.Emits.seq p.2.Emits) := by
  induction pairs with
  | nil => simp [emitsPairs]
  | cons p rest ih => simp [emitsPairs, ih]

/-- The pairs of a hash literal are compiled in the order of their keys' texts. -/
theorem emitsPairs_inOrder (pairs : List (Expr × Expr)) :
    ((emitsPairs pairs).mergeSort fun a b => Bytes.le a.1 b.1).map (·.2) =
      (Expr.inOrder pairs).map fun p => p.1.Emits.seq p.2.Emits := by
  rw [emitsPairs_eq, Expr.mergeSort_keyed, List.map_map]
  rfl

theorem Block.emits_eq (b : Block) : b.Emits = all (b.body.map Stmt.Emits) := by
  cases b
  rw [Block.Emits, emitsBody_eq]
  rfl

/-- What a program is compiled to. -/
def Program.Emits (p : Program) : Emission := all (emitsBody p.body)

end StackScript
