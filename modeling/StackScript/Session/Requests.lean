import StackScript.Session

/-!
# Requests

A session serves one request at a time: it evaluates, compiles or lists a source.
An evaluation in the background is a request where its turn comes. Whether it is
called off before that, or refused because another one is still in flight, is a
matter of time, so the request says which it is.

## Main definitions

* `Session.Request`, `Session.Answer`: what a session may be asked, and answers.
* `Session.perform`: serve a request.
* `Session.performAll`: serve requests one after another.
-/

namespace StackScript.Session

/-- What becomes of an evaluation in the background. -/
inductive Fate
  | served
  /-- It is called off before it begins. -/
  | canceled
  /-- Another one is in flight. -/
  | refused

/-- What a session may be asked. -/
inductive Request
  | eval (source : Bytes)
  | evalAsync (source : Bytes) (fate : Fate)
  | compile (source : Bytes)
  | disassemble (source : Bytes)

/-- What a session answers. -/
inductive Answer
  | reply (r : Reply)
  | bytecode (r : Except EvalError Bytecode)
  | listing (r : Except EvalError Bytes)
  /-- Another evaluation is in flight. -/
  | busy

variable [Casing]

/-- Answer a request, executing at most `fuel` instructions. -/
def perform (fuel : Nat) (s : Session) : Request → Answer × Session
  | .eval source | .evalAsync source .served =>
    let (reply, s') := s.eval fuel source
    (.reply reply, s')
  | .evalAsync _ .canceled => (.reply ⟨.error .canceled, [], []⟩, s)
  | .evalAsync _ .refused => (.busy, s)
  | .compile source =>
    let (result, h) := s.attempt source
    (.bytecode (result.map (·.1)), s.reload h)
  | .disassemble source =>
    let (result, h) := s.attempt source
    (.listing (result.bind fun (bytecode, _) => listingOf bytecode), s.reload h)

/-- The answers to requests, one after another, each with the session after it. -/
def performAll (fuel : Nat) (s : Session) : List Request → List (Request × Answer × Session)
  | [] => []
  | r :: rest =>
    let (answer, after) := s.perform fuel r
    (r, answer, after) :: after.performAll fuel rest

end StackScript.Session
