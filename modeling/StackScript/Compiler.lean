import StackScript.Symbol.Forest
import StackScript.Value

/-!
# The state of a compilation

Tables of names and lists of constants lie in a heap, each under a number, and a
compilation changes them where they lie. It works on one list of constants and on
a chain of tables: that of the innermost function, and those around it. Whatever
else the heap holds belongs to others.

Code is drafted as a list of instructions for each function.

## Main definitions

* `Draft`: the instructions of a function so far.
* `Heap`: tables and lists of constants by number.
* `Compiler`: what a compilation works on, and its drafts.
* `Compiler.scope`, `Compiler.outer`, `Compiler.constants`: what the heap holds
  for it.
-/

namespace StackScript

/-- The instructions of a function so far, and the number of their bytes. -/
structure Draft where
  instrs : Array Instr
  size : Nat
  deriving Inhabited

namespace Draft

/-- No instructions. -/
def empty : Draft := ⟨#[], 0⟩

/-- Add an instruction. -/
def emit (d : Draft) (i : Instr) : Draft := ⟨d.instrs.push i, d.size + i.op.size⟩

/-- The operation of the last instruction is the given one. -/
def lastIs (d : Draft) (op : Opcode) : Bool :=
  match d.instrs.back? with
  | some i => i.op == op
  | none => false

/-- The last instruction returns from the function. -/
def returns (d : Draft) : Bool := d.lastIs .returnValue || d.lastIs .ret

/-- Remove the last instruction, a single byte. -/
def dropLast (d : Draft) : Draft := ⟨d.instrs.pop, d.size - 1⟩

/-- Give the instruction with this number another operand. -/
def patch (d : Draft) (number operand : Nat) : Draft :=
  { d with instrs := d.instrs.modify number fun i => { i with operands := [operand] } }

/-- The draft of a function's body with the return at its end: the value of a final expression is
returned, and null if there is none. -/
def close (d : Draft) : Draft :=
  let d := if d.lastIs .pop then d.dropLast.emit ⟨.returnValue, []⟩ else d
  if d.returns then d else d.emit ⟨.ret, []⟩

/-- The draft of a branch with exactly one value at its end: that of a final expression, and null if
there is none. A branch that returns needs none. -/
def keepValue (d : Draft) : Draft :=
  if d.lastIs .pop then d.dropLast else if d.returns then d else d.emit ⟨.null, []⟩

/-- The encoded instructions. -/
def code (d : Draft) : Code := .ofInstrs d.instrs.toList

end Draft

/-- Tables and lists of constants, each kind under numbers. -/
structure Heap where
  tables : Forest
  pools : Array (Array Value)

namespace Heap

/-- The table with a number. -/
def table (h : Heap) (i : Nat) : Table := (h.tables.node i).table

/-- The list of constants with a number, and an empty one if there is none. -/
def pool (h : Heap) (i : Nat) : Array Value := h.pools[i]?.getD #[]

end Heap

/-- The names of a function and its draft. -/
structure Scope where
  table : Table
  draft : Draft
  deriving Inhabited

/-- A function that is being compiled: the number of its table, and its draft. -/
structure Compiler.Layer where
  table : Nat
  draft : Draft

/-- What a function has in a heap. -/
def Compiler.Layer.scope (h : Heap) (l : Layer) : Scope := ⟨h.table l.table, l.draft⟩

/-- The state of a compilation. -/
structure Compiler where
  heap : Heap
  /-- The number of its constants. -/
  pool : Nat
  /-- The innermost function, or the program itself. -/
  layer : Compiler.Layer
  /-- What lies around it, from the inside out. -/
  around : List Compiler.Layer
  pool_lt : pool < heap.pools.size
  /-- The tables lie one inside the other. -/
  linked : heap.tables.chain layer.table = layer.table :: around.map (·.table)

/-- Main code with the constants that it refers to. -/
structure Bytecode where
  code : Code
  constants : Array Value

namespace Compiler

/-- The innermost function, or the program itself. -/
def scope (c : Compiler) : Scope := c.layer.scope c.heap

/-- What lies around it, from the inside out. -/
def outer (c : Compiler) : List Scope := c.around.map (·.scope c.heap)

/-- The constants. -/
def constants (c : Compiler) : Array Value := c.heap.pool c.pool

/-- The code drafted so far for the current function, with the constants. -/
def bytecode (c : Compiler) : Bytecode := ⟨c.scope.draft.code, c.constants⟩

/-- A compilation that starts from names and constants, with nothing else in its heap. -/
def new (table : Table) (constants : Array Value) : Compiler where
  heap := ⟨#[⟨table, none⟩], #[constants]⟩
  pool := 0
  layer := ⟨0, .empty⟩
  around := []
  pool_lt := Nat.zero_lt_one
  linked := by simp [Forest.chain]

/-- A compilation that starts from copies of a table and of a list of constants. -/
def ofCopies (h : Heap) (table pool : Nat) (houter : (h.tables.node table).outer = none) :
    Compiler where
  heap := ⟨(h.tables.clone table).2, h.pools.push (h.pool pool)⟩
  pool := h.pools.size
  layer := ⟨(h.tables.clone table).1, .empty⟩
  around := []
  pool_lt := by simp
  linked := Forest.chain_clone houter

/-- Change the draft. -/
def modifyDraft (c : Compiler) (f : Draft → Draft) : Compiler :=
  { c with layer := { c.layer with draft := f c.layer.draft } }

/-- Add a constant. -/
def addConstant (c : Compiler) (v : Value) : Compiler :=
  { c with
    heap := { c.heap with pools := c.heap.pools.modify c.pool (·.push v) }
    pool_lt := by simpa using c.pool_lt }

/-- Put other tables in the place of those in the heap, which lie in each other as before. -/
def withTables (c : Compiler) (tables : Forest)
    (h : tables.chain c.layer.table = c.heap.tables.chain c.layer.table) : Compiler :=
  { c with heap := { c.heap with tables := tables }, linked := h.trans c.linked }

/-- Change the table of the innermost function by an operation that yields a place. -/
def update (c : Compiler) (op : Table → Place × Table) : Place × Compiler :=
  let changed := c.heap.tables.update c.layer.table op
  (changed.1, c.withTables changed.2 (Forest.chain_update _ _ _ _))

/-- The place of a name seen from the innermost function, and the captures that this needs. -/
def resolve (c : Compiler) (name : Bytes) : Option Place × Compiler :=
  match h : c.heap.tables.resolve c.layer.table name with
  | none => (none, c)
  | some (place, tables) => (some place, c.withTables tables (Forest.chain_resolve h _))

/-- Start a function inside the innermost one. -/
def enclose (c : Compiler) : Compiler where
  heap := { c.heap with tables := (c.heap.tables.enclose c.layer.table).2 }
  pool := c.pool
  layer := ⟨(c.heap.tables.enclose c.layer.table).1, .empty⟩
  around := c.layer :: c.around
  pool_lt := c.pool_lt
  linked := (Forest.chain_enclose (Forest.lt_size_of_chain c.linked)).trans (congrArg _ c.linked)

/-- Go back to what lies around the innermost function, if there is something. -/
def leave? (c : Compiler) : Option Compiler :=
  match h : c.around with
  | [] => none
  | l :: around =>
    some { c with
      layer := l
      around := around
      linked := Forest.chain_tail (c.linked.trans (by rw [h]; rfl)) }

end Compiler

end StackScript
