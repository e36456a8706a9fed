import StackScript.Proofs.Machine.Report
import StackScript.Proofs.Session.Evaluation
import StackScript.Text.Lower

/-!
# What a failed run reports

A run that ends in a fault reports the place of every function in progress. For
the innermost one this is the last byte of the instruction that failed, and for
the others the operand of the call that they wait for. The offset and the
mnemonic of the instruction itself are reported if it has no operands, and if it
was not executed because it was one too many.

## Main results

* `Session.fault_at_last_byte`: where a run that failed is reported to have failed.
-/

namespace StackScript

namespace Session

variable {s : Session} {source : Bytes} {bytecode : Bytecode} {table : Table}

/-- A run that ends in a fault reports all functions in progress, from the inside out. The innermost
one is reported at the last byte of the instruction that failed, read as a mnemonic, which is the
place of the instruction only if it has no operands or was one too many. Every other one is reported
at the operand of the call that it waits for. -/
theorem fault_at_last_byte [Casing] (hs : s.Reachable)
    (h : s.compile source = .ok (bytecode, table)) {fuel : Nat} {e : RuntimeError}
    (hrun : ((s.start bytecode).run fuel).1 = .stopped (.fault e)) :
    ∃ n m i, (s.start bytecode).dispatch n = some m ∧ (s.start bytecode).dispatch (n + 1) = none ∧
      m.frame.fn.code.fetch m.frame.next = some (.instr i) ∧
      e.point = (if m.Exhausted then i.place else i.lastByte) m.frame.name m.frame.next ∧
      (e.point = i.place m.frame.name m.frame.next ↔ m.Exhausted ∨ i.op.widths = []) ∧
      e.trace.head? = some e.point ∧ e.trace.length = m.frames.length ∧
      ∀ inner f below, m.frames = inner ++ f :: below → inner ≠ [] →
        ∃ offset args, (s.start bytecode).Awaits n f below offset args ∧
          e.trace[inner.length]? =
            some ⟨f.name, offset + 1, some (Opcode.nameOfByte args.toUInt8)⟩ := by
  obtain ⟨_, _, _, hcontext, _⟩ := compile_spec hs.context_ok h
  have hpool := pool_ok hcontext
  have hstart := start_ok hs.ok h
  have hrunFor : ((s.start bytecode).runFor fuel).1 = .stopped (.fault e) := hrun
  obtain ⟨n, m, m', hn, hstep⟩ := Machine.exists_stop hrunFor
  obtain ⟨hok, hrunning, -⟩ := hstart.dispatch hpool hn
  obtain ⟨i, hfetch, hpoint, htrace, -⟩ := hok.step_blames hpool hrunning hstep
  have hlast : (s.start bytecode).dispatch (n + 1) = none := by
    rw [Machine.dispatch, hn, Option.bind_some, Machine.next?, hstep]
  have hplace : e.point = i.place m.frame.name m.frame.next ↔ m.Exhausted ∨ i.op.widths = [] := by
    rw [hpoint]
    by_cases hover : m.Exhausted
    · rw [if_pos hover]
      exact iff_of_true rfl (.inl hover)
    · rw [if_neg hover, Instr.lastByte_eq_place_iff]
      exact (or_iff_right hover).symm
  refine ⟨n, m, i, hn, hlast, hfetch, hpoint, hplace, by rw [htrace]; rfl, ?_, ?_⟩
  · rw [htrace, Machine.frames, List.length_cons, List.length_cons, List.length_map]
  · intro inner f below hframes hinner
    obtain ⟨offset, args, hawaits⟩ := hstart.awaits hpool rfl hn hinner hframes
    refine ⟨offset, args, hawaits, ?_⟩
    obtain ⟨g, inner, rfl⟩ := List.exists_cons_of_ne_nil hinner
    obtain ⟨-, hcallers⟩ := List.cons.inj hframes
    rw [htrace, hcallers, ← hawaits.point_eq]
    simp

/-- A number is called in a function. Both the failing call and the pending one are reported at their
operands, which are read as mnemonics. -/
theorem fault_at_last_byte_nested :
    ∃ bytecode table e,
      (new ⟨64, 4, 3, 0, 0, []⟩ false).compile "fn() { 1(2) }()" = .ok (bytecode, table) ∧
      (((new ⟨64, 4, 3, 0, 0, []⟩ false).start bytecode).run 9).1 = .stopped (.fault e) ∧
      e.trace = [⟨"<anon>", 7, some "OP_NULL"⟩, ⟨"<main>", 5, some "OP_CONST"⟩] ∧
      ∃ n m i, ((new ⟨64, 4, 3, 0, 0, []⟩ false).start bytecode).dispatch n = some m ∧
        m.frame.fn.code.fetch m.frame.next = some (.instr i) ∧
        e.point = (if m.Exhausted then i.place else i.lastByte) m.frame.name m.frame.next ∧
        m.frames.length = 2 := by
  obtain ⟨bytecode, table, e, hcompile, hrun, htrace⟩ : ∃ bytecode table e,
      (new ⟨64, 4, 3, 0, 0, []⟩ false).compile "fn() { 1(2) }()" = .ok (bytecode, table) ∧
      (((new ⟨64, 4, 3, 0, 0, []⟩ false).start bytecode).run 9).1 = .stopped (.fault e) ∧
      e.trace = [⟨"<anon>", 7, some "OP_NULL"⟩, ⟨"<main>", 5, some "OP_CONST"⟩] := by
    let trace : List FramePoint := [⟨"<anon>", 7, some "OP_NULL"⟩, ⟨"<main>", 5, some "OP_CONST"⟩]
    have htest : ((new ⟨64, 4, 3, 0, 0, []⟩ false).compile "fn() { 1(2) }()").toOption.any (fun c =>
        (((new ⟨64, 4, 3, 0, 0, []⟩ false).start c.1).run 9).1 = .stopped (.fault
          ⟨.notCallable "INTEGER", ⟨"<anon>", 7, some "OP_NULL"⟩, trace⟩)) = true := by
      decide +kernel
    obtain ⟨bytecode, table, hcompile, hrun⟩ := exists_compile htest
    exact ⟨bytecode, table, _, hcompile, of_decide_eq_true hrun, rfl⟩
  obtain ⟨n, m, i, hn, -, hfetch, hpoint, -, -, hlength, -⟩ :=
    fault_at_last_byte (.new ⟨64, 4, 3, 0, 0, []⟩ false) hcompile hrun
  rw [htrace] at hlength
  exact ⟨bytecode, table, e, hcompile, hrun, htrace, n, m, i, hn, hfetch, hpoint, hlength.symm⟩

end Session

end StackScript
