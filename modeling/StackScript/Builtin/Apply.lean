import StackScript.Value

/-!
# What the builtin functions do

A builtin function takes values and yields one; only `log` writes. Misuse is
answered by an error value and does not stop the program. No argument is
changed: functions on arrays yield new ones. How texts are put in upper and lower
case is left to the surroundings.
-/

namespace StackScript

/-- How texts are put in upper and in lower case. -/
class Casing where
  upper : Bytes → Bytes
  lower : Bytes → Bytes

namespace Builtin

/-- The answer to a wrong number of arguments. -/
def wrongCount (got want : Nat) : Value :=
  .error ("wrong number of arguments. got=" ++ Bytes.ofNat got ++ ", want=" ++ Bytes.ofNat want)

/-- The answer to an argument of a kind that the function does not take. -/
def unsupported (b : Builtin) (v : Value) : Value :=
  .error ("argument to `" ++ b.name ++ "` not supported, got " ++ v.typeName)

/-- The answer to an argument that is no array. -/
def notArray (b : Builtin) (v : Value) : Value :=
  .error ("argument to `" ++ b.name ++ "` must be ARRAY, got " ++ v.typeName)

/-- Apply a function of one argument. -/
def one (f : Value → Value) : List Value → Value
  | [v] => f v
  | args => wrongCount args.length 1

/-- Apply a function of one array. -/
def onArray (b : Builtin) (f : List Value → Value) : List Value → Value :=
  one fun
    | .array items => f items
    | v => b.notArray v

/-- Apply a function of one text. -/
def onString (b : Builtin) (f : Bytes → Bytes) : List Value → Value :=
  one fun
    | .string s => .string (f s)
    | v => b.unsupported v

/-- The value of a call. -/
def value [Casing] (b : Builtin) (args : List Value) : Value :=
  match b with
  | .len =>
    one (fun
      | .string s => .int (.ofNat s.length)
      | .array items => .int (.ofNat items.length)
      | v => b.unsupported v) args
  | .log => .null
  | .first => b.onArray (fun items => items.headD .null) args
  | .last => b.onArray (fun items => items.getLastD .null) args
  | .rest =>
    b.onArray (fun
      | [] => .null
      | _ :: tail => .array tail) args
  | .push =>
    match args with
    | [.array items, v] => .array (items ++ [v])
    | [v, _] => b.notArray v
    | _ => wrongCount args.length 2
  | .pop => b.onArray (fun items => .array items.dropLast) args
  | .toUpper => b.onString Casing.upper args
  | .toLower => b.onString Casing.lower args

/-- What a call writes: `log` writes a line for each argument. -/
def output (b : Builtin) (args : List Value) : Bytes :=
  match b with
  | .log => args.flatMap fun v => v.inspect ++ "\n"
  | _ => []

end Builtin

end StackScript
