import StackScript.Session

/-!
# Suites of checks

A suite is a list of cases. A case evaluates inputs one after another in a
session of its own, after the setup of the suite, and states what the last input
is to yield: a value, its kind, what is written, or the name of an error.

## Main definitions

* `Case`, `Suite`: what is to be checked.
* `Case.run`: the outcome of a case.
* `Tally`: how many cases passed, failed and were skipped.
-/

namespace StackScript

/-- What the last input of a case is to yield. -/
structure Expectation where
  /-- The value as text. -/
  value : Option Bytes
  /-- The name of the value's kind; empty if it does not matter. -/
  type : Bytes
  /-- The name of an error; empty if there is to be none. -/
  error : Bytes
  /-- Everything that the inputs and the setup write. -/
  output : Option Bytes

/-- A case of a suite. -/
structure Case where
  name : Bytes
  /-- Why the case is skipped, if it is. -/
  skip : Option Bytes
  code : Bytes
  steps : List Bytes
  expect : Expectation

/-- Cases with a common setup. -/
structure Suite where
  name : Bytes
  setup : List Bytes
  cases : List Case

/-- The errors that a case can name. -/
inductive ErrorName
  | parse
  | undefinedVariable
  | unknownOperator
  | operandOverflow
  | stackOverflow
  | frameOverflow
  | unsupportedOperands
  | divisionByZero
  | unusableHashKey
  | notIndexable
  | notCallable
  | wrongArgumentCount
  | instructionLimit
  deriving DecidableEq, Repr

namespace ErrorName

/-- The names as they are written. -/
def all : List (String × ErrorName) :=
  [("parse", .parse), ("undefined_variable", .undefinedVariable), ("unknown_operator", .unknownOperator),
    ("operand_overflow", .operandOverflow), ("stack_overflow", .stackOverflow),
    ("frame_overflow", .frameOverflow), ("unsupported_operands", .unsupportedOperands),
    ("division_by_zero", .divisionByZero), ("unusable_hash_key", .unusableHashKey),
    ("not_indexable", .notIndexable), ("not_callable", .notCallable),
    ("wrong_argument_count", .wrongArgumentCount), ("instruction_limit", .instructionLimit)]

/-- The error with a name. -/
def ofBytes? (s : Bytes) : Option ErrorName := (all.find? fun e => Bytes.ofString e.1 = s).map (·.2)

/-- The name of a fault of a running program. -/
def ofFault? : Fault → Option ErrorName
  | .stackOverflow => some .stackOverflow
  | .frameOverflow _ => some .frameOverflow
  | .binaryTypes .. | .stringOperator _ | .negationType _ | .orderTypes .. => some .unsupportedOperands
  | .divisionByZero => some .divisionByZero
  | .hashKey _ => some .unusableHashKey
  | .notIndexable .. => some .notIndexable
  | .notCallable _ | .emptyBuiltin | .notFunction _ => some .notCallable
  | .wrongArguments .. => some .wrongArgumentCount
  | .instructionLimit _ => some .instructionLimit
  | .unknownOpcode _ | .globalRange .. | .unknownBuiltin _ => none

/-- The name of the reason why a source has no value. -/
def ofError? : EvalError → Option ErrorName
  | .parse _ => some .parse
  | .compile e =>
    match e.cause with
    | .undefinedVariable _ => some .undefinedVariable
    | .unknownOperator _ => some .unknownOperator
    | .operandOverflow _ => some .operandOverflow
    | .outermostScope | .unsupportedNode | .unorderedKey => none
  | .runtime e => ofFault? e.fault
  | .listing _ | .crash | .unfinished | .canceled => none

end ErrorName

/-- Why a case fails. -/
inductive Mismatch
  | setup (e : EvalError)
  | step (source : Bytes) (e : EvalError)
  | unknownName (name : Bytes)
  | noError (name shown : Bytes)
  | notParse (e : EvalError)
  | otherError (name : Bytes) (e : EvalError)
  | unexpected (e : EvalError)
  | type (want got shown : Bytes)
  | value (want got : Bytes)
  | output (want got : Bytes)

/-- What is said about the failure. -/
def Mismatch.message : Mismatch → Bytes
  | .setup e => "setup failed: " ++ e.message
  | .step source e => "step " ++ source.quoted ++ " failed: " ++ e.message
  | .unknownName name => "unknown error name: " ++ name
  | .noError name shown => "expected error " ++ name ++ ", got value: " ++ shown
  | .notParse e => "expected parse error, got " ++ e.message
  | .otherError name e => "expected error " ++ name ++ ", got " ++ e.message
  | .unexpected e => "unexpected error: " ++ e.message
  | .type want got shown => "expected type " ++ want ++ ", got " ++ got ++ " (" ++ shown ++ ")"
  | .value want got => "expected " ++ want ++ ", got " ++ got
  | .output want got => "expected output " ++ want.quoted ++ ", got " ++ got.quoted

namespace Expectation

/-- What was written is as expected. -/
def checkOutput (x : Expectation) (output : Bytes) : Except Mismatch Unit :=
  match x.output with
  | some want => if output = want then .ok () else .error (.output want output)
  | none => .ok ()

/-- The error with the given name is the one that ended the evaluation. -/
def checkError (x : Expectation) (result : Except EvalError Value) : Except Mismatch Unit :=
  match ErrorName.ofBytes? x.error, result with
  | none, _ => .error (.unknownName x.error)
  | some _, .ok v => .error (.noError x.error v.inspect)
  | some want, .error e =>
    if ErrorName.ofError? e = some want then .ok ()
    else if want = .parse then .error (.notParse e)
    else .error (.otherError x.error e)

/-- The value is as expected. -/
def checkValue (x : Expectation) : Except EvalError Value → Except Mismatch Unit
  | .error e => .error (.unexpected e)
  | .ok v =>
    if x.type ≠ [] ∧ x.type ≠ Bytes.ofString v.typeName then
      .error (.type x.type (Bytes.ofString v.typeName) v.inspect)
    else
      match x.value with
      | some want => if v.inspect = want then .ok () else .error (.value want v.inspect)
      | none => .ok ()

/-- The result of the last input and what was written are as expected. -/
def check (x : Expectation) (result : Except EvalError Value) (output : Bytes) : Except Mismatch Unit := do
  if x.error = [] then x.checkValue result else x.checkError result
  x.checkOutput output

end Expectation

/-- What became of a case. -/
inductive Outcome
  | passed
  | failed (why : Mismatch)
  | skipped (reason : Bytes)

namespace Case

/-- The sources that a case evaluates: its steps, or its code if it has no steps. -/
def inputs (c : Case) : List Bytes := if c.steps = [] then [c.code] else c.steps

variable [Casing]

/-- Evaluate inputs one after another as long as they have values. What they write is added to
`output`; the first failure is returned with its source. -/
def evalAll (fuel : Nat) (s : Session) (output : Bytes) :
    List Bytes → Except (Bytes × EvalError) (Session × Bytes)
  | [] => .ok (s, output)
  | source :: rest =>
    let (reply, s) := s.eval fuel source
    match reply.result with
    | .ok _ => evalAll fuel s (output ++ reply.output) rest
    | .error e => .error (source, e)

/-- The session and the output before the last input of a case. -/
def prepare (fuel : Nat) (config : Config) (setup : List Bytes) (c : Case) :
    Except Mismatch (Session × Bytes) :=
  match evalAll fuel (.new config false) [] setup with
  | .error (_, e) => .error (.setup e)
  | .ok (s, output) =>
    match evalAll fuel s output c.inputs.dropLast with
    | .error (source, e) => .error (.step source e)
    | .ok r => .ok r

/-- The outcome of a case; each input may execute at most `fuel` instructions. -/
def run (fuel : Nat) (config : Config) (setup : List Bytes) (c : Case) : Outcome :=
  match c.skip with
  | some reason => .skipped reason
  | none =>
    match prepare fuel config setup c with
    | .error why => .failed why
    | .ok (s, output) =>
      let (reply, _) := s.eval fuel (c.inputs.getLastD [])
      match c.expect.check reply.result (output ++ reply.output) with
      | .ok () => .passed
      | .error why => .failed why

end Case

/-- A case with its place and its outcome. -/
structure Report where
  /-- The file that the case is from. -/
  file : Bytes
  suite : Bytes
  case : Case
  outcome : Outcome

/-- The reports on all cases of a suite. -/
def Suite.run [Casing] (fuel : Nat) (config : Config) (file : Bytes) (s : Suite) : List Report :=
  s.cases.map fun c => ⟨file, s.name, c, c.run fuel config s.setup⟩

/-- The numbers of cases by outcome. -/
structure Tally where
  passed : Nat
  failed : Nat
  skipped : Nat
  deriving DecidableEq, Repr

namespace Tally

/-- Count one more outcome. -/
def count (t : Tally) : Outcome → Tally
  | .passed => { t with passed := t.passed + 1 }
  | .failed _ => { t with failed := t.failed + 1 }
  | .skipped _ => { t with skipped := t.skipped + 1 }

/-- The numbers of cases in reports. -/
def ofReports (reports : List Report) : Tally := reports.foldl (fun t r => t.count r.outcome) ⟨0, 0, 0⟩

/-- The numbers as one line. -/
def summary (t : Tally) : Bytes :=
  Bytes.ofNat t.passed ++ " passed, " ++ Bytes.ofNat t.failed ++ " failed, " ++ Bytes.ofNat t.skipped
    ++ " skipped (" ++ Bytes.ofNat (t.passed + t.failed + t.skipped) ++ " total)"

end Tally

end StackScript
