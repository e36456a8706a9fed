import StackScript.Compile
import StackScript.Config
import StackScript.Listing
import StackScript.Tree.Parse

/-!
# Sessions

A session evaluates one source after another. Global names, constants and the
global store last from one to the next. A source is compiled with copies of the
names and constants, which are changed as the compilation goes on, also if it then
fails. An evaluation whose source compiles takes over the copies, even if the run
fails; after any other compilation the session has what is left of its own.

## Main definitions

* `Session`: what lasts.
* `Session.attempt`: compile a source with copies of the names and constants.
* `Session.compile`, `Session.listing`: look at the code of a source.
* `Session.eval`: run a source.
-/

namespace StackScript

/-- Why a source has no value. -/
inductive EvalError
  | parse (errors : List ParseError)
  | compile (e : CompileError)
  | runtime (e : RuntimeError)
  | listing (e : ListingError)
  /-- The run ended in an access out of range. -/
  | crash
  /-- The number of instructions that was allowed for was not enough. -/
  | unfinished
  /-- The evaluation was called off before it began. -/
  | canceled

/-- What is said about the fault. -/
def EvalError.message : EvalError → Bytes
  | .parse errors => "parse errors: " ++ Bytes.join "; " (errors.map ParseError.message)
  | .compile e => "compile error: " ++ e.message
  | .runtime e => e.message
  | .listing e => e.message
  | .crash => "access out of range"
  | .unfinished => "evaluation not finished"
  | .canceled => "context canceled"

/-- What lasts from one source to the next. -/
structure Session where
  config : Config
  tracing : Bool
  table : Table
  constants : Array Value
  globals : Array Value
  /-- The counters of the latest run. -/
  stats : Stats
  /-- The identity of the next closure. -/
  fresh : Nat

/-- What an evaluation yields: its value or why there is none, and what was written. -/
structure Reply where
  result : Except EvalError Value
  output : Bytes
  trace : List TraceEvent

namespace Session

/-- A session in which nothing has been evaluated. -/
def new (config : Config) (tracing : Bool) : Session where
  config := config
  tracing := tracing
  table := .global
  constants := #[]
  globals := Array.replicate config.globalsSize .null
  stats := ⟨0, 0, 0⟩
  fresh := 1

/-- The heap in which a source is compiled. What the session has lies under the numbers 0. -/
def heap (s : Session) : Heap := ⟨#[⟨s.table, none⟩], #[s.constants]⟩

/-- The session with what a heap holds for it. -/
def reload (s : Session) (h : Heap) : Session :=
  { s with table := h.table 0, constants := h.pool 0 }

/-- A compilation that starts from copies of the names and constants. -/
def copies (s : Session) : Compiler := .ofCopies s.heap 0 0 rfl

/-- Compile a program with copies of the names and constants. Yields its code with the number of the
copied names, or the fault, and the heap that the compilation leaves. -/
def attemptProgram (s : Session) (p : Program) : Except EvalError (Bytecode × Nat) × Heap :=
  match p.compile s.copies with
  | .ok _ c => (.ok (c.bytecode, s.copies.layer.table), c.heap)
  | .error e c => (.error (.compile e), c.heap)

/-- Compile a source with copies of the names and constants. -/
def attempt (s : Session) (source : Bytes) : Except EvalError (Bytecode × Nat) × Heap :=
  let parsed := Program.parse source
  if parsed.errors.isEmpty then s.attemptProgram parsed.program
  else (.error (.parse parsed.errors), s.heap)

/-- The code of a source, and the names after it. -/
def compile (s : Session) (source : Bytes) : Except EvalError (Bytecode × Table) :=
  let (result, h) := s.attempt source
  result.map fun (bytecode, names) => (bytecode, h.table names)

/-- The annotated listing of code. -/
def listingOf (bytecode : Bytecode) : Except EvalError Bytes :=
  match Listing.ofCode bytecode.code bytecode.constants with
  | .ok text => .ok text
  | .error e => .error (.listing e)

/-- The annotated listing of a source. -/
def listing (s : Session) (source : Bytes) : Except EvalError Bytes := do
  let (bytecode, _) ← s.compile source
  listingOf bytecode

/-- What a run yields. -/
def resultOf (m : Machine) : Machine.Ending → Except EvalError Value
  | .finished => .ok m.lastPopped
  | .stopped (.fault e) => .error (.runtime e)
  | .stopped .crash => .error .crash
  | .unfinished => .error .unfinished

/-- Evaluate a source, executing at most `fuel` instructions. The value is that of the last
expression statement that was executed. -/
def eval [Casing] (fuel : Nat) (s : Session) (source : Bytes) : Reply × Session :=
  match s.attempt source with
  | (.error e, h) => (⟨.error e, [], []⟩, s.reload h)
  | (.ok (bytecode, names), h) =>
    let start := Machine.load s.config.sizes s.globals bytecode.code bytecode.constants s.fresh s.tracing
    let (ending, m) := start.run fuel
    (⟨resultOf m ending, m.written, m.trace.reverse⟩,
      { s with
        table := h.table names
        constants := bytecode.constants
        globals := m.globals
        stats := m.stats
        fresh := m.fresh })

end Session

end StackScript
