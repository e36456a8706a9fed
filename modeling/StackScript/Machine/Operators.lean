import StackScript.Machine.Fault

/-!
# Operators on values

What the operators of the language yield for given operands, or why they yield
nothing.

## Main definitions

* `Value.arithmetic`, `Value.greater`, `Value.negate`, `Value.index`: the operators.
* `Entry.pairUp`: the entries of a hash from keys and values.
-/

namespace StackScript

namespace Value

/-- Apply an operation to integers; they wrap around, and quotients go toward zero. -/
def integerOp (op : Opcode) (a b : Int64) : Except Fault Value :=
  match op with
  | .add => .ok (.int (a + b))
  | .sub => .ok (.int (a - b))
  | .mul => .ok (.int (a * b))
  | _ => if b = 0 then .error .divisionByZero else .ok (.int (a / b))

/-- Apply an arithmetic operation. -/
def arithmetic (left : Value) (op : Opcode) (right : Value) : Except Fault Value :=
  match left, right with
  | .int a, .int b => integerOp op a b
  | .string a, .string b =>
    if op = .add then .ok (.string (a ++ b)) else .error (.stringOperator op)
  | a, b => .error (.binaryTypes a.typeName b.typeName)

/-- Apply "greater than". -/
def greater (left right : Value) : Except Fault Value :=
  match left, right with
  | .int a, .int b => .ok (.bool (b < a))
  | a, b => .error (.orderTypes a.typeName b.typeName)

/-- Apply the minus sign. -/
def negate : Value → Except Fault Value
  | .int n => .ok (.int (-n))
  | v => .error (.negationType v.typeName)

/-- The element of an array, or what is filed in a hash under a key. What is not there is null. -/
def index (left i : Value) : Except Fault Value :=
  match left, i with
  | .array items, .int n =>
    .ok (if n < 0 then .null else (items[n.toInt.toNat]?).getD .null)
  | .hash entries, i =>
    match i.hashKey? with
    | none => .error (.hashKey i.typeName)
    | some k =>
      match Entry.find? entries k with
      | some (key, value) => .ok (if key.same i then value else .null)
      | none => .ok .null
  | left, i => .error (.notIndexable left.typeName i.typeName)

end Value

/-- Keys and values in turn as pairs with what they are filed under, put after `acc` reversed. -/
def Entry.pairUp (acc : List Entry) : List Value → Except Fault (List Entry)
  | key :: value :: rest =>
    match key.hashKey? with
    | some k => pairUp ((k, key, value) :: acc) rest
    | none => .error (.hashKey key.typeName)
  | _ => .ok acc.reverse

end StackScript
