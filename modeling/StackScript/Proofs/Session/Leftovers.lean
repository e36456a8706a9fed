import StackScript.Proofs.Machine.Leftovers
import StackScript.Proofs.Session.Composition
import StackScript.Text.Lower

/-!
# What a machine held before a run

A source may be run on a machine whose stack holds values already, say from runs
before. Whatever they are, the run is the same.

## Main results

* `Session.leftovers_unobserved`: runs on machines that differ in such values.
-/

namespace StackScript

namespace Session

variable {s : Session} {source : Bytes} {bytecode : Bytecode} {table : Table}

/-- The code of a source with a statement has an instruction. -/
theorem start_running [Casing] (hs : s.Reachable) (h : s.compile source = .ok (bytecode, table))
    (hbody : (Program.parse source).program.body ≠ []) : (s.start bytecode).running = true := by
  obtain ⟨is, hlaid, hemits⟩ := laid_main hs.context_ok h
  obtain ⟨i, rest, rfl⟩ := List.exists_cons_of_ne_nil (emits_ne_nil hbody hemits)
  have hpos : 0 < bytecode.code.size := by
    rw [hlaid.eq, Code.size_ofInstrs, Instr.bytes_cons]
    exact Nat.add_pos_left i.op.size_pos _
  exact decide_eq_true hpos

/-- The source of a program with at least one statement is compiled and run on two machines that
differ in what their stacks hold before. The runs end in the same way, with the same value or the
same fault. They have written the same, executed the same instructions, and left the same global
variables and counters. -/
theorem leftovers_unobserved [Casing] (hs : s.Reachable)
    (h : s.compile source = .ok (bytecode, table))
    (hbody : (Program.parse source).program.body ≠ []) {before before' : Array Value}
    (hsize : before'.size = before.size) (fuel : Nat) :
    ∃ ending m m', ((s.start bytecode).restack before).run fuel = (ending, m) ∧
      ((s.start bytecode).restack before').run fuel = (ending, m') ∧
      resultOf m' ending = resultOf m ending ∧ m'.written = m.written ∧
      m'.globals = m.globals ∧ m'.stats = m.stats ∧ m'.trace = m.trace := by
  obtain ⟨is, hlaid, -⟩ := laid_main hs.context_ok h
  have hlaunched := (start_launched hs.ok h hlaid).restack before
  have hrunning : ((s.start bytecode).restack before).running = true := start_running hs h hbody
  have hsame : SameBelow 0 ((s.start bytecode).restack before).stack before' := ⟨hsize, nofun⟩
  rcases hrun : ((s.start bytecode).restack before).run fuel with ⟨ending, m⟩
  obtain ⟨stack, hrun', hcovers⟩ :=
    hlaunched.ok.repeats_runFor hlaunched.pool (Nat.le_refl 0) hsame hrun
  refine ⟨ending, m, m.restack stack, rfl, hrun', ?_, rfl, rfl, rfl, rfl⟩
  cases ending with
  | finished =>
    obtain ⟨n, -, hcovers⟩ := hcovers rfl
    exact congrArg Except.ok (hlaunched.lastPopped_restack hrunning hrun hcovers)
  | stopped stop =>
    cases stop with
    | fault e => rfl
    | crash => rfl
  | unfinished => rfl

/-- Calls on a stack that is full of numbers, and a condition without a value at their end. -/
theorem leftovers_unobserved_calls :
    let s := new ⟨8, 4, 4, 0, 0, []⟩ false
    let source : Bytes := "[1, fn() { 2 }()][1]; fn() { if (false) { 3 } }()"
    let before := Array.replicate 8 (Value.int 7)
    ∃ bytecode table m m', s.compile source = .ok (bytecode, table) ∧
      ((s.start bytecode).restack before).run 20 = (.finished, m) ∧
      (s.start bytecode).run 20 = (.finished, m') ∧ m.lastPopped.inspect = "null" ∧
      resultOf m' .finished = resultOf m .finished ∧ m'.stats = m.stats := by
  intro s source before
  have hbody : (Program.parse source).program.body ≠ [] := by
    have hlength : (Program.parse source).program.body.length = 2 := by decide +kernel
    intro hnil
    rw [hnil] at hlength
    cases hlength
  have hruns : ((s.compile source).toOption.bind fun result =>
      let run := ((s.start result.1).restack before).run 20
      (resultOf run.2 run.1).toOption.map Value.inspect) = some ("null" : Bytes) := by
    decide +kernel
  cases hcompile : s.compile source with
  | error e =>
    rw [hcompile] at hruns
    cases hruns
  | ok result =>
    obtain ⟨bytecode, table⟩ := result
    have hsize : (Array.replicate 8 Value.null).size = before.size := rfl
    obtain ⟨ending, m, m', hrun, hrun', hresult, -, -, hstats, -⟩ :=
      leftovers_unobserved (.new ⟨8, 4, 4, 0, 0, []⟩ false) hcompile hbody hsize 20
    have hvalue : (resultOf m ending).toOption.map Value.inspect = some ("null" : Bytes) := by
      rw [hcompile] at hruns
      change (resultOf (((s.start bytecode).restack before).run 20).2
        (((s.start bytecode).restack before).run 20).1).toOption.map Value.inspect = _ at hruns
      rwa [hrun] at hruns
    cases ending with
    | finished =>
      exact ⟨bytecode, table, m, m', rfl, hrun, hrun', Option.some.inj hvalue, hresult, hstats⟩
    | stopped stop => cases stop <;> cases hvalue
    | unfinished => cases hvalue

end Session

end StackScript
