import StackScript.Builtin.Apply
import StackScript.Machine.Operators
import StackScript.Tree.Render

/-!
# What a program means

A program is evaluated directly on its tree. Operands are evaluated from left to
right, except that "less than" takes its right operand first and a hash literal
its pairs in the order of the texts of their keys. Which binding a name stands
for is decided by where it is written: it is that of the innermost function that
has bound the name by then, in the order of evaluation.

A call has one variable for each name that its function binds, anywhere in its
body. A closure keeps copies of the variables around it as they are when it is
made.

## Main definitions

* `Level`, `Names`: the names that are bound at a place of a program.
* `Expr.lets`, `Stmt.lets`: the names that a piece of a function binds.
* `Store`, `Lambda`: variables and closures.
* `Expr.eval`, `Stmt.eval`, `Program.eval`: evaluation.
* `Lambda.bySlot`, `Lambda.byPosition`: two rules for the arguments of a call.
-/

namespace StackScript

/-! ### Names -/

/-- Add a name at the end of the names, if it is new. -/
def addName (names : List Bytes) (x : Bytes) : List Bytes := if x ∈ names then names else names ++ [x]

/-- The names bound in a function up to some place in its text. -/
structure Level where
  /-- The function's own name, or nothing. -/
  name : Bytes
  /-- Parameters and variables in the order in which they were first bound. -/
  bound : List Bytes

/-- The names bound at a place of a program. -/
structure Names where
  globals : List Bytes
  /-- The functions around the place, from the inside out. -/
  levels : List Level

namespace Names

/-- Bind a name in the innermost function, or in the program. -/
def bind (names : Names) (x : Bytes) : Names :=
  match names.levels with
  | [] => { names with globals := addName names.globals x }
  | l :: outer => { names with levels := { l with bound := addName l.bound x } :: outer }

/-- Bind names one after another. -/
def bindAll (names : Names) (xs : List Bytes) : Names := xs.foldl bind names

/-- The names at the start of a function's body. -/
def enter (names : Names) (name : Bytes) (params : List Ident) : Names :=
  { names with levels := ⟨name, (params.map (·.name)).foldl addName []⟩ :: names.levels }

end Names

mutual

/-- The names that an expression binds in the function around it, in the order of evaluation. -/
def Expr.lets : Expr → List Bytes
  | .unary _ _ right => right.lets
  | .binary _ op left right => if op = .less then right.lets ++ left.lets else left.lets ++ right.lets
  | .cond _ test yes no => test.lets ++ (yes.lets ++ letsElse no)
  | .call _ callee args => callee.lets ++ letsItems args
  | .array _ items => letsItems items
  | .hash _ pairs => ((letsPairs pairs).mergeSort fun a b => Bytes.le a.1 b.1).flatMap (·.2)
  | .index _ left index => left.lets ++ index.lets
  | .function .. | .ident _ | .int .. | .string .. | .bool .. | .missing => []

/-- The names that expressions bind. -/
def letsItems : List Expr → List Bytes
  | [] => []
  | e :: rest => e.lets ++ letsItems rest

/-- The names that the pairs of a hash literal bind, with the texts of the keys. -/
def letsPairs : List (Expr × Expr) → List (Bytes × List Bytes)
  | [] => []
  | (key, value) :: rest => (key.render, key.lets ++ value.lets) :: letsPairs rest

/-- The names that an alternative binds. -/
def letsElse : Option Block → List Bytes
  | none => []
  | some b => b.lets

/-- The names that a block binds. -/
def Block.lets : Block → List Bytes
  | .mk _ body => letsBody body

/-- The names that statements bind. -/
def letsBody : List Stmt → List Bytes
  | [] => []
  | s :: rest => s.lets ++ letsBody rest

/-- The names that a statement binds. A name is bound before its value is evaluated. -/
def Stmt.lets : Stmt → List Bytes
  | .bind _ id value => id.name :: value.lets
  | .ret _ (some value) => value.lets
  | .expr _ value => value.lets
  | .block body => body.lets
  | .ret _ none | .missing => []

end

/-! ### Variables and closures -/

/-- The variables of a call at some time, and the closure that was called. -/
structure Activation where
  self : Value
  vars : Bytes → Value

/-- What a closure is made of. -/
structure Lambda where
  name : Bytes
  params : List Ident
  body : Block
  /-- The names bound where the function is written. -/
  names : Names
  /-- The calls around the function when the closure was made. -/
  around : List Activation

/-- What an evaluation changes. -/
structure Store where
  globals : Bytes → Value
  /-- The variables of the current call. -/
  vars : Bytes → Value
  /-- All closures. The first one has the identity 1. -/
  lambdas : List Lambda
  output : Bytes

/-- Why an evaluation goes no further. -/
inductive Break
  /-- The current call returns. -/
  | returned (v : Value)
  | fault (f : Fault)
  /-- There are more calls inside each other than allowed. -/
  | tooDeep
  /-- The program is none that compiles. -/
  | stuck

/-- An evaluation. -/
abbrev Eval := EStateM Break Store

/-- The call whose body is being evaluated. -/
structure Current where
  self : Value
  around : List Activation

/-- The activations that can be seen from a place; there are none in the main code. -/
def Current.activations : Option Current → (Bytes → Value) → List Activation
  | none, _ => []
  | some c, vars => ⟨c.self, vars⟩ :: c.around

/-- The variables after an assignment to one of them. -/
def assigned (vars : Bytes → Value) (x : Bytes) (v : Value) : Bytes → Value :=
  fun y => if y = x then v else vars y

/-- The closure with an identity. -/
def Lambda.find? (lambdas : List Lambda) : Nat → Option Lambda
  | 0 => none
  | n + 1 => lambdas[n]?

/-- The value of a name in the innermost function that binds it. -/
def lookupLevels (x : Bytes) : List Level → List Activation → Option Value
  | l :: levels, a :: around =>
    if x ∈ l.bound then some (a.vars x)
    else if l.name ≠ [] ∧ x = l.name then some a.self
    else lookupLevels x levels around
  | _, _ => none

/-- The value of a name: that of a function around, else the global one, else a builtin function. -/
def Names.lookup (names : Names) (x : Bytes) (activations : List Activation)
    (globals : Bytes → Value) : Option Value :=
  (lookupLevels x names.levels activations).or
    (if x ∈ names.globals then some (globals x)
      else (Builtin.ofName? x).map fun b => .builtin (.known b))

/-- The variables that have these names and start with the values of the same positions. All others
are null. -/
def startWith (names : List Bytes) (args : List Value) (x : Bytes) : Value :=
  ((names.idxOf? x).bind fun k => args[k]?).getD .null

namespace Lambda

/-- The names that a function binds, in the order in which they are first bound. -/
def slots (f : Lambda) : List Bytes := (f.params.map (·.name) ++ f.body.lets).foldl addName []

/-- The first variables of a call start with its arguments. -/
def bySlot (f : Lambda) (args : List Value) : Bytes → Value := startWith f.slots args

/-- The parameters start with the arguments of their positions. -/
def byPosition (f : Lambda) (args : List Value) : Bytes → Value :=
  startWith (f.params.map (·.name)) args

end Lambda

/-- What the statement evaluated last was. -/
inductive Last
  /-- There was none. -/
  | none
  /-- An expression with the value. -/
  | shown (v : Value)
  /-- The value was bound to a name. -/
  | bound (v : Value)

namespace Last

/-- The value of a branch or of a body: that of a final expression. -/
def value : Last → Value
  | .shown v => v
  | _ => .null

/-- The value of a program: that of the last statement. -/
def final : Last → Value
  | .none => .null
  | .shown v | .bound v => v

end Last

/-! ### Evaluation -/

namespace Eval

/-- Go on with what was computed, or end in the fault. -/
def lift : Except Fault Value → Eval Value
  | .ok v => return v
  | .error f => throw (.fault f)

/-- The value of a return is the value of the call. -/
def catchReturn (x : Eval Value) : Eval Value := fun st =>
  match x st with
  | .error (.returned v) st' => .ok v st'
  | r => r

/-- Assign to a variable of the current call, or to a global one in the main code. -/
def assign (current : Option Current) (x : Bytes) (v : Value) : Eval Unit :=
  modify fun st =>
    match current with
    | none => { st with globals := assigned st.globals x v }
    | some _ => { st with vars := assigned st.vars x v }

/-- Make a closure. -/
def makeClosure (f : Lambda) : Eval Value :=
  modifyGet fun st =>
    (.closure (st.lambdas.length + 1) (some ⟨0, f.name, #[], 0, 0⟩) [],
      { st with lambdas := st.lambdas ++ [f] })

end Eval

/-- The value of an operator with one operand. -/
def UnaryOp.eval (op : UnaryOp) (v : Value) : Eval Value :=
  match op with
  | .not => return .bool (!v.truthy)
  | .neg => .lift v.negate
  | .other _ => throw .stuck

/-- The value of an operator with two operands. -/
def BinaryOp.eval (op : BinaryOp) (a b : Value) : Eval Value :=
  match op with
  | .add => .lift (a.arithmetic .add b)
  | .sub => .lift (a.arithmetic .sub b)
  | .mul => .lift (a.arithmetic .mul b)
  | .div => .lift (a.arithmetic .div b)
  | .less => .lift (b.greater a)
  | .greater => .lift (a.greater b)
  | .equal => return .bool (a.same b)
  | .notEqual => return .bool (!a.same b)
  | .other _ => throw .stuck

/-- A pair of a hash literal: the text of its key, the names it binds, and the evaluation of key and
value. -/
structure PairEval where
  text : Bytes
  lets : List Bytes
  run : Names → Eval (List Value)

/-- Evaluate pairs one after another. -/
def PairEval.runAll (names : Names) : List PairEval → Eval (List Value)
  | [] => return []
  | p :: rest => do
    let pair ← p.run names
    let others ← runAll (names.bindAll p.lets) rest
    return pair ++ others

section

variable (call : Value → List Value → Eval Value) (current : Option Current)

mutual

/-- The value of an expression. -/
def Expr.eval (names : Names) : Expr → Eval Value
  | .ident id => do
    let st ← get
    match names.lookup id.name (Current.activations current st.vars) st.globals with
    | some v => return v
    | none => throw .stuck
  | .int _ _ value => return .int value
  | .string _ value => return .string value
  | .bool _ value => return .bool value
  | .unary _ op right => do
    op.eval (← right.eval names)
  | .binary _ op left right => do
    if op = .less then
      let b ← right.eval names
      let a ← left.eval (names.bindAll right.lets)
      op.eval a b
    else
      let a ← left.eval names
      let b ← right.eval (names.bindAll left.lets)
      op.eval a b
  | .cond _ test yes no => do
    let v ← test.eval names
    let names := names.bindAll test.lets
    if v.truthy then
      return (← yes.eval names .none).value
    else
      return (← evalElse (names.bindAll yes.lets) no).value
  | .function _ name params body => do
    let st ← get
    .makeClosure ⟨name, params, body, names, Current.activations current st.vars⟩
  | .call _ callee args => do
    let f ← callee.eval names
    let vs ← evalItems (names.bindAll callee.lets) args
    call f vs
  | .array _ items => return .array (← evalItems names items)
  | .hash _ pairs => do
    let vs ← PairEval.runAll names ((evalPairs pairs).mergeSort fun a b => Bytes.le a.text b.text)
    .lift ((Entry.pairUp [] vs).map fun entries => .hash (Entry.file entries))
  | .index _ left index => do
    let v ← left.eval names
    let i ← index.eval (names.bindAll left.lets)
    .lift (v.index i)
  | .missing => throw .stuck

/-- The values of expressions. -/
def evalItems (names : Names) : List Expr → Eval (List Value)
  | [] => return []
  | e :: rest => do
    let v ← e.eval names
    let vs ← evalItems (names.bindAll e.lets) rest
    return v :: vs

/-- The evaluations of the pairs of a hash literal. -/
def evalPairs : List (Expr × Expr) → List PairEval
  | [] => []
  | (key, value) :: rest =>
    ⟨key.render, key.lets ++ value.lets, fun names => do
      let k ← key.eval names
      let v ← value.eval (names.bindAll key.lets)
      return [k, v]⟩ :: evalPairs rest

/-- Evaluate an alternative. -/
def evalElse (names : Names) : Option Block → Eval Last
  | none => return .none
  | some b => b.eval names .none

/-- Evaluate a block after the statement given as the last one. -/
def Block.eval (names : Names) (last : Last) : Block → Eval Last
  | .mk _ body => evalBody names last body

/-- Evaluate statements one after another. -/
def evalBody (names : Names) (last : Last) : List Stmt → Eval Last
  | [] => return last
  | s :: rest => do
    let last ← s.eval names last
    evalBody (names.bindAll s.lets) last rest

/-- Evaluate a statement. -/
def Stmt.eval (names : Names) (last : Last) : Stmt → Eval Last
  | .bind _ id value => do
    let v ← value.eval (names.bind id.name)
    .assign current id.name v
    return .bound v
  | .ret _ none => throw (.returned .null)
  | .ret _ (some value) => do
    throw (.returned (← value.eval names))
  | .expr _ value => return .shown (← value.eval names)
  | .block body => body.eval names last
  | .missing => throw .stuck

end

end

/-- The rule by which the variables of a call start. -/
abbrev StartRule := Lambda → List Value → Bytes → Value

section

variable (start : StartRule)

/-- Call a closure. -/
def Lambda.run (call : Value → List Value → Eval Value) (self : Value) (f : Lambda)
    (args : List Value) : Eval Value := do
  let outside := (← get).vars
  modify fun st => { st with vars := start f args }
  let v ← Eval.catchReturn do
    return (← f.body.eval call (some ⟨self, f.around⟩) (f.names.enter f.name f.params) .none).value
  modify fun st => { st with vars := outside }
  return v

/-- Call a value. The body of a function makes its calls by `inside`, if it may be entered. -/
def applyInside [Casing] (inside : Option (Value → List Value → Eval Value)) (callee : Value)
    (args : List Value) : Eval Value := do
  match callee with
  | .closure id _ _ =>
    match Lambda.find? (← get).lambdas id with
    | none => throw .stuck
    | some f =>
      if args.length = f.params.length then
        match inside with
        | none => throw .tooDeep
        | some call => f.run start call callee args
      else throw (.fault (.wrongArguments f.params.length args.length))
  | .builtin (.known b) => do
    modify fun st => { st with output := st.output ++ b.output args }
    return b.value args
  | v => throw (.fault (.notCallable v.typeName))

/-- Call a value, with at most `depth` calls of closures inside each other. -/
def apply [Casing] : Nat → Value → List Value → Eval Value
  | 0 => applyInside start none
  | depth + 1 => applyInside start (some (apply depth))

/-- The value of a program that follows others with the given global names. -/
def Program.eval [Casing] (depth : Nat) (globals : List Bytes) (p : Program) : Eval Value :=
  .catchReturn do
    return (← evalBody (apply start depth) none ⟨globals, []⟩ .none p.body).final

end

end StackScript
