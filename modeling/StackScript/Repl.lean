import StackScript.Session
import StackScript.Text.Blank

/-!
# Conversations

A conversation reads one input a line and answers each before it reads the next.
Blanks around a line do not count. A line may ask to leave, or for the listing of
a source; any other line is a source to evaluate.

## Main definitions

* `Repl.lines`: the lines of an input.
* `Repl.Line.answer`: the answer to a line.
* `Repl.run`: everything that a conversation writes.
-/

namespace StackScript

/-- The counters of a run as one line. -/
def Stats.line (st : Stats) : Bytes :=
  "-- " ++ Bytes.grouped st.instructions ++ " instructions, max stack " ++ Bytes.grouped st.maxStack
    ++ ", max frames " ++ Bytes.grouped st.maxFrames ++ "\n"

/-- What is said of a fault. -/
def EvalError.line (e : EvalError) : Bytes := "Error: " ++ e.message ++ "\n"

namespace Repl

/-- The most bytes that a line may have. -/
def maxLine : Nat := 65535

/-- The line without a carriage return at its end. -/
def dropReturn (line : Bytes) : Bytes := if line.getLast? = some 13 then line.dropLast else line

/-- The lines of an input, without their ends. A line that is too long ends the input. -/
def lines (input : Bytes) : List Bytes :=
  let pieces := input.split 10
  let pieces := if pieces.getLast? = some [] then pieces.dropLast else pieces
  (pieces.takeWhile fun line => line.length ≤ maxLine).map dropReturn

/-- What a line asks for. -/
inductive Line
  | blank
  | leave
  | listing (source : Bytes)
  | evaluate (source : Bytes)
  deriving DecidableEq, Repr

/-- The mark of a line that asks for a listing. -/
def listingMark : Bytes := ":dis "

namespace Line

/-- What a line asks for. -/
def ofBytes (line : Bytes) : Line :=
  let text := line.trim
  if text = [] then .blank
  else if text = Bytes.ofString "exit" ∨ text = Bytes.ofString "quit" then .leave
  else if listingMark.isPrefixOf text then .listing (text.drop listingMark.length)
  else .evaluate text

end Line

/-- What is written about a line, and the trace of what was executed for it. -/
structure Answer where
  text : Bytes
  trace : Bytes
  deriving Inhabited

variable [Casing]

/-- The answer to a source: what it writes, then its value or what is wrong with it. The counters
follow a value if they are asked for. -/
def answerSource (fuel : Nat) (stats : Bool) (s : Session) (source : Bytes) : Answer × Session :=
  let (reply, s) := s.eval fuel source
  let trace := reply.trace.flatMap TraceEvent.line
  match reply.result with
  | .ok v =>
    (⟨reply.output ++ v.inspect ++ "\n" ++ (if stats then s.stats.line else []), trace⟩, s)
  | .error e => (⟨reply.output ++ e.line, trace⟩, s)

/-- The answer to a line. -/
def Line.answer (fuel : Nat) (stats : Bool) (s : Session) : Line → Answer × Session
  | .blank | .leave => (⟨[], []⟩, s)
  | .listing source =>
    match s.listing source with
    | .ok text => (⟨text, []⟩, s)
    | .error e => (⟨e.line, []⟩, s)
  | .evaluate source => answerSource fuel stats s source

/-- What is written before a conversation that shows a prompt. -/
def banner : Bytes := "Monkey REPL (type 'exit' to quit, ':dis <input>' to disassemble)\n"

/-- What is written before each line that is read. -/
def prompt : Bytes := ">> "

/-- The answers to lines up to one that asks to leave, put after `acc` reversed. -/
def answers (fuel : Nat) (stats : Bool) (s : Session) (acc : List Answer) : List Line → List Answer
  | [] => acc.reverse
  | .leave :: _ => acc.reverse
  | line :: rest =>
    let (a, s) := line.answer fuel stats s
    answers fuel stats s (a :: acc) rest

/-- Everything that a conversation writes. Each input may execute at most `fuel` instructions. -/
def run (fuel : Nat) (prompting stats : Bool) (s : Session) (input : Bytes) : Answer :=
  let found := answers fuel stats s [] ((lines input).map Line.ofBytes)
  let before := if prompting then prompt else []
  ⟨(if prompting then banner else []) ++ (found.flatMap fun a => before ++ a.text) ++ before,
    found.flatMap (·.trace)⟩

end Repl

end StackScript
