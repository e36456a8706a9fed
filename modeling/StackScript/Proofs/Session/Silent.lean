import StackScript.Proofs.Session.Safety
import StackScript.Text.Lower

/-!
# Requests that leave no trace

A source that is compiled only to look at its code does not change a session, and
neither does one that cannot be read or compiled. By the time that a compilation
ends in a fault, names may be bound, constants added and functions begun, but all
that is in the copies. Leave such requests out, and every other request is answered
as before and leaves the session that it left before.

## Main definitions

* `Session.Request.silent`: the request is such a one, as its answer shows.

## Main results

* `Session.perform_silent`: a silent request leaves the session as it was.
* `Session.performAll_loud`: silent requests can be left out.
-/

namespace StackScript

/-- The source was not run: it could not be read or compiled. -/
def EvalError.beforeRun : EvalError → Bool
  | .parse _ | .compile _ => true
  | _ => false

namespace Session

/-- The request looked at code, or asked for the evaluation of a source that could not be read or
compiled. -/
def Request.silent : Request → Answer → Bool
  | .compile _, _ | .disassemble _, _ => true
  | .eval _, .reply r | .evalAsync _ _, .reply r =>
    match r.result with
    | .error e => e.beforeRun
    | .ok _ => false
  | _, _ => false

/-- Of answered requests, those that are not silent. -/
def loud (steps : List (Request × Answer × Session)) : List (Request × Answer × Session) :=
  steps.filter fun step => !step.1.silent step.2.1

theorem loud_cons (r : Request) (answer : Answer) (after : Session)
    (rest : List (Request × Answer × Session)) :
    loud ((r, answer, after) :: rest) =
      if r.silent answer then loud rest else (r, answer, after) :: loud rest := by
  rw [loud, List.filter_cons]
  cases r.silent answer <;> rfl

theorem performAll_cons [Casing] (fuel : Nat) (s : Session) (r : Request) (rest : List Request) :
    s.performAll fuel (r :: rest) =
      (r, (s.perform fuel r).1, (s.perform fuel r).2) ::
        (s.perform fuel r).2.performAll fuel rest := rfl

/-- A run does not end as if the source had not been run. -/
theorem beforeRun_resultOf {m : Machine} {ending : Machine.Ending} {e : EvalError}
    (h : resultOf m ending = .error e) : e.beforeRun = false := by
  cases ending with
  | finished => cases h
  | unfinished => cases h; rfl
  | stopped stop => cases stop <;> cases h <;> rfl

/-- A source that is not run leaves the session as it was. -/
theorem eval_beforeRun [Casing] {fuel : Nat} {s : Session} {source : Bytes} {e : EvalError}
    (hresult : (s.eval fuel source).1.result = .error e) (he : e.beforeRun = true) :
    (s.eval fuel source).2 = s := by
  cases hcompile : s.compile source with
  | error e' => rw [eval_of_error hcompile]
  | ok code =>
    obtain ⟨bytecode, table⟩ := code
    rw [eval_of_compile hcompile] at hresult
    have hran := beforeRun_resultOf hresult
    rw [he] at hran
    cases hran

/-- A silent request leaves the session as it was. -/
theorem perform_silent [Casing] {fuel : Nat} {s : Session} {r : Request}
    (h : r.silent (s.perform fuel r).1 = true) : (s.perform fuel r).2 = s := by
  have heval (source : Bytes)
      (h : (Request.eval source).silent (s.perform fuel (.eval source)).1 = true) :
      (s.eval fuel source).2 = s := by
    change (match (s.eval fuel source).1.result with
      | .error e => e.beforeRun
      | .ok _ => false) = true at h
    split at h
    · next e hresult => exact eval_beforeRun hresult h
    · cases h
  cases r with
  | eval source => exact heval source h
  | evalAsync source fate =>
    cases fate with
    | served => exact heval source h
    | canceled | refused => rfl
  | compile source => rw [perform_compile]
  | disassemble source => rw [perform_disassemble]

theorem performAll_silent [Casing] (s : Session) (fuel : Nat) (requests : List Request) :
    s.performAll fuel ((loud (s.performAll fuel requests)).map (·.1)) =
      loud (s.performAll fuel requests) := by
  induction requests generalizing s with
  | nil => rfl
  | cons r rest ih =>
    rw [performAll_cons, loud_cons]
    by_cases hsilent : r.silent (s.perform fuel r).1 = true
    · rw [if_pos hsilent, perform_silent hsilent]
      exact ih s
    · rw [if_neg hsilent, List.map_cons, performAll_cons, ih]

/-- Silent requests leave no trace. However a compilation ends, the heap holds what the session had
under the session's numbers. So ask a session only what was not silent: the answers are the same,
with the same values, faults and output, and so are the sessions after them, with their counters. -/
theorem performAll_loud [Casing] (config : Config) (tracing : Bool) (fuel : Nat)
    (requests : List Request) :
    (∀ (s : Session) (source : Bytes),
      (s.attempt source).2.table 0 = s.table ∧ (s.attempt source).2.pool 0 = s.constants) ∧
    (new config tracing).performAll fuel
        ((loud ((new config tracing).performAll fuel requests)).map (·.1)) =
      loud ((new config tracing).performAll fuel requests) :=
  ⟨attempt_own, performAll_silent _ fuel requests⟩

/-- The fault comes after a name and a constant, which are in the copies only. -/
theorem performAll_loud_half_done : ∃ h : Heap,
    (new ⟨64, 4, 3, 0, 0, []⟩ false).attempt "let a = 1; b" =
        (.error (.compile ⟨.undefinedVariable "b", ⟨11, 1, 12⟩⟩), h) ∧
      ((h.table 1).find? "a" = some (.global 0) ∧ h.pool 1 = #[.int 1]) ∧
      h.table 0 = .global ∧ h.pool 0 = #[] := by
  have hname : Builtin.ofName? "a" = none := by decide +kernel
  have hscan : Token.scan "let a = 1; b" =
      ([⟨.letKw, "let", ⟨0, 1, 1⟩⟩, ⟨.ident, "a", ⟨4, 1, 5⟩⟩, ⟨.assign, "=", ⟨6, 1, 7⟩⟩,
        ⟨.int, [49], ⟨8, 1, 9⟩⟩, ⟨.semicolon, ";", ⟨9, 1, 10⟩⟩, ⟨.ident, "b", ⟨11, 1, 12⟩⟩],
        ⟨.eof, "", ⟨12, 1, 12⟩⟩) := by
    decide +kernel
  obtain ⟨span, loc, idLoc, intLoc, stmtLoc, hparse⟩ : ∃ span loc idLoc intLoc stmtLoc,
      Program.parse "let a = 1; b" = ⟨⟨span, [.bind loc ⟨idLoc, "a"⟩ (.int intLoc [49] 1),
        .expr stmtLoc (.ident ⟨.token ⟨11, 1, 12⟩, "b"⟩)]⟩, []⟩ := by
    rw [Program.parse, hscan]
    exact ⟨_, _, _, _, _, rfl⟩
  have hown := (performAll_loud ⟨64, 4, 3, 0, 0, []⟩ false 0 []).1
    (new ⟨64, 4, 3, 0, 0, []⟩ false) "let a = 1; b"
  obtain ⟨h, hattempt, hcopies⟩ : ∃ h : Heap,
      (new ⟨64, 4, 3, 0, 0, []⟩ false).attempt "let a = 1; b" =
        (.error (.compile ⟨.undefinedVariable "b", ⟨11, 1, 12⟩⟩), h) ∧
      (h.table 1).find? "a" = some (.global 0) ∧ h.pool 1 = #[.int 1] := by
    have hfind := (Table.define_global hname).2
    obtain ⟨c, hlet, hcontext, -, htable, hpool⟩ :=
      exists_bind_int ⟨64, 4, 3, 0, 0, []⟩ false hname 1
    have hlookup : Compile.lookup "b" c = .ok none c := by
      have hunknown : (Table.global.define "a").2.find? "b" = none := by
        rw [Table.define_find?, if_neg (by decide +kernel), Table.global_find?]
        decide +kernel
      have hresolve : c.resolve "b" = (none, c) := by
        apply Compiler.resolve_eq_none
        simp only [hcontext, Context.tables, resolve, hunknown]
      exact congrArg (fun r => EStateM.Result.ok r.1 r.2) hresolve
    rw [attempt, hparse]
    simp only [List.isEmpty_nil, if_true, attemptProgram, Program.compile, compileBody]
    rw [Compile.bind_of_ok (hlet _ _ _ _)]
    simp only [Stmt.compile, Expr.compile, bind, EStateM.bind, hlookup]
    refine ⟨c.heap, rfl, ?_, ?_⟩
    · rw [← htable]
      exact (congrArg (Table.find? · _) (congrArg Context.table hcontext)).trans hfind
    · rw [← hpool]
      exact congrArg Context.constants hcontext
  rw [hattempt] at hown
  exact ⟨h, hattempt, hcopies, hown⟩

end Session

end StackScript
