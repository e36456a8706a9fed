import StackScript.Proofs.Machine.Completion
import StackScript.Proofs.Session.Evaluation
import StackScript.Proofs.Tree.Quoting
import StackScript.Text.Lower

/-!
# String literals

A string that is written down is a program of its own. It is compiled to an
instruction that pushes a new constant and one that pops it again, so its value
is the string itself, whatever the session has seen before, as long as there is
room for one more constant.

## Main results

* `Program.parse_quote`: what is read from a string that is written down.
* `Session.compile_quote`: its code.
* `Session.eval_quote`: every string can be written down and has itself as its value.
-/

namespace StackScript

open Token (quote)

variable (str : Bytes)

/-- A string that is written down is a program with one statement. -/
theorem Program.parse_quote :
    Program.parse (quote str) =
      ⟨.ofBody [.expr (.token (.start (quote str))) (.string (.token (.start (quote str))) str)],
        []⟩ := by
  rw [Program.parse_eq, Token.scan_quote]
  rfl

/-- The string is a new constant, which is pushed and popped. -/
theorem Program.compile_string (loc loc' : Loc) {c : Compiler}
    (h : c.constants.size ≤ maxOperand 2) :
    (Program.ofBody [.expr loc (.string loc' str)]).compile c =
      .ok () (((c.addConstant (.string str)).modifyDraft
        (·.emit ⟨.const, [c.constants.size]⟩)).modifyDraft (·.emit ⟨.pop, []⟩)) := by
  have hcheck : Compile.check loc'.pos c.constants.size 2 (.constant c.constants.size) = pure () :=
    if_pos h
  have hconstant : Compile.constant loc'.pos (fun _ => .string str) c =
      .ok c.constants.size (c.addConstant (.string str)) := by
    change (Compile.check loc'.pos c.constants.size 2 (.constant c.constants.size) >>= _) _ = _
    rw [hcheck]
    rfl
  have hpush : (Expr.string loc' str).compile c =
      Compile.emit .const [c.constants.size] (c.addConstant (.string str)) := by
    rw [Expr.compile, Compile.bind_of_ok hconstant]
  change compileBody [.expr loc (.string loc' str)] _ = _
  rw [compileBody, compileBody, Stmt.compile]
  simp only [Bind.bind, EStateM.bind, hpush]
  rfl

namespace Session

/-- The code for the string: push the new constant and pop it. -/
def quoteCode (s : Session) : Bytecode :=
  ⟨.ofInstrs [⟨.const, [s.constants.size]⟩, ⟨.pop, []⟩], s.constants.push (.string str)⟩

theorem compile_quote {s : Session} (h : s.constants.size < 65536) :
    s.compile (quote str) = .ok (s.quoteCode str, s.table) := by
  have hsize : s.copies.constants.size ≤ maxOperand 2 := by
    rw [constants_copies]
    exact Nat.le_of_lt_succ h
  rw [compile_of_parse (by rw [Program.parse_quote]), Program.parse_quote, compileProgram,
    Program.compile_string str _ _ hsize]
  simp only [Compiler.bytecode, Compiler.scope_modifyDraft, Compiler.constants_modifyDraft,
    Compiler.constants_addConstant, constants_copies]
  rfl

end Session

namespace Machine

variable {m : Machine} {n : Nat} {v : Value}

/-- A computation that has no fault ends with a result. -/
theorem exists_of_sat {x : Exec Unit} {Q : Machine → Prop}
    (h : Exec.Sat x m (fun _ => Q) fun _ _ => False) : ∃ m', x m = .ok () m' ∧ Q m' := by
  unfold Exec.Sat at h
  split at h
  · next m' hx => exact ⟨m', hx, h⟩
  · exact h.elim
  · exact h.elim

/-- An instruction that pushes a constant does so if there is room. -/
theorem step_const [Casing] (hfits : m.Fits)
    (hfetch : m.frame.fn.code.fetch m.frame.next = some (.instr ⟨.const, [n]⟩))
    (hv : m.constants[n]? = some v) (hlimit : m.limit = 0) (hstack : m.live.length < m.stack.size) :
    ∃ m', step m = .ok () m' ∧ (m.advance (m.frame.next + 3)).Agrees m' ∧ m'.Fits ∧
      m'.live = m.live ++ [v] := by
  refine exists_of_sat (step_sat hfits hfetch (fun m₁ hagrees hfits₁ hlive => ?_) ?_)
  · have hsource : (⟨.const, [n]⟩ : Instr).source? m₁ = some (.ok v) := by
      rw [Instr.source?, hagrees.constants]
      exact congrArg (Option.map _) hv
    refine Exec.yields_sat hfits₁ (List.append_nil _).symm (.source hsource) ?_ ?_ ?_
    · intro w m₂ hw hagrees₂ hfits₂ hlive₂
      obtain rfl := Except.ok.inj hw
      exact ⟨hagrees.trans hagrees₂, hfits₂, by rw [hlive₂, hlive]⟩
    · intro f _ hf
      cases hf
    · intro m₂ _ hfull
      have hlength := hfits₁.length_live
      have hsize : m₁.stack.size = m.stack.size := hagrees.size
      rw [hlive] at hlength
      omega
  · intro hpos
    omega

/-- An instruction that pops a value does so if there is one. -/
theorem step_pop [Casing] (hfits : m.Fits)
    (hfetch : m.frame.fn.code.fetch m.frame.next = some (.instr ⟨.pop, []⟩))
    (hlive : m.live = [v]) (hlimit : m.limit = 0) :
    ∃ m', step m = .ok () m' ∧ (m.advance (m.frame.next + 1)).Agrees m' ∧ m'.lastPopped = v := by
  refine exists_of_sat (step_sat hfits hfetch (fun m₁ hagrees hfits₁ hlive₁ => ?_) ?_)
  · refine Exec.pop_sat (S := []) hfits₁ (hlive₁.trans hlive) fun m₂ hagrees₂ _ _ hlast => ?_
    exact ⟨hagrees.trans hagrees₂, hlast⟩
  · intro hpos
    omega

/-- A run that has only a value left to pop ends with it as what was popped last. -/
theorem runFor_pop [Casing] (hfits : m.Fits)
    (hfetch : m.frame.fn.code.fetch m.frame.next = some (.instr ⟨.pop, []⟩))
    (hsize : m.frame.fn.code.size = m.frame.next + 1) (hlive : m.live = [v]) (hlimit : m.limit = 0)
    {fuel : Nat} (hfuel : 1 ≤ fuel) :
    ∃ m', m.runFor fuel = (.finished, m') ∧ m'.lastPopped = v := by
  obtain ⟨m', hstep, hagrees, hlast⟩ := step_pop hfits hfetch hlive hlimit
  have hrunning : m.running = true := by simp [running, hsize]
  have hrunning' : ¬m'.running = true := by simp [running, hagrees.frame, advance, hsize]
  obtain ⟨k, rfl⟩ := Nat.exists_eq_add_of_le' hfuel
  refine ⟨m', ?_, hlast⟩
  rw [runFor, if_pos hrunning, hstep]
  exact runFor_of_not_running hrunning' k

/-- Pushing a constant and popping it leaves the constant as what was popped last. -/
theorem runFor_const_pop [Casing] (hcode : m.frame.fn.code = .ofInstrs [⟨.const, [n]⟩, ⟨.pop, []⟩])
    (hnext : m.frame.next = 0) (hn : n ≤ maxOperand 2) (hv : m.constants[n]? = some v)
    (hlimit : m.limit = 0) (hsp : m.sp = 0) (hstack : 0 < m.stack.size) {fuel : Nat}
    (hfuel : 2 ≤ fuel) : ∃ m', m.runFor fuel = (.finished, m') ∧ m'.lastPopped = v := by
  have hfits : m.Fits := by
    rw [Fits, hsp]
    exact Nat.zero_le _
  have hlive : m.live = [] := by rw [live, hsp, List.take_zero]
  have hsize : m.frame.fn.code.size = 4 := by rw [hcode]; rfl
  have hfetch : m.frame.fn.code.fetch m.frame.next = some (.instr ⟨.const, [n]⟩) := by
    rw [hcode, hnext]
    exact Code.fetch_ofInstrs [] _ (.cons hn .nil)
  obtain ⟨m₁, hstep, hagrees, hfits₁, hlive₁⟩ :=
    step_const hfits hfetch hv hlimit (by rw [hlive]; exact hstack)
  have hfetch₁ : m₁.frame.fn.code.fetch m₁.frame.next = some (.instr ⟨.pop, []⟩) := by
    rw [hagrees.frame, advance, hcode, hnext]
    exact Code.fetch_ofInstrs [⟨.const, [n]⟩] [] .nil
  have hsize₁ : m₁.frame.fn.code.size = m₁.frame.next + 1 := by
    rw [hagrees.frame, advance, hsize, hnext]
  have hrunning : m.running = true := by simp [running, hnext, hsize]
  obtain ⟨k, rfl⟩ := Nat.exists_eq_add_of_le' hfuel
  rw [runFor, if_pos hrunning, hstep]
  exact runFor_pop hfits₁ hfetch₁ hsize₁ (by rw [hlive₁, hlive]; rfl)
    (hagrees.limit.trans hlimit) (Nat.le_add_left 1 k)

end Machine

/-- Every string can be written down. With a backslash before each quote, backslash and NUL byte of
it, it is scanned to one token that holds it, and the input ends with the text. Any session with the
default settings that has room for one more constant evaluates the text to the string. -/
theorem Session.eval_quote [Casing] :
    Token.scan (quote str) =
        ([⟨.string, str, .start (quote str)⟩], ⟨.eof, [], .after (quote str) []⟩) ∧
      (Token.scan (quote str)).2.pos.offset = (quote str).length ∧
      ∀ s : Session, s.config = .default → s.constants.size < 65536 →
        ∀ fuel, 2 ≤ fuel → (s.eval fuel (quote str)).1.result = .ok (.string str) := by
  have hscan := Token.scan_quote str
  refine ⟨hscan, ?_, fun s hconfig hroom fuel hfuel => ?_⟩
  · rw [hscan, Pos.offset_after]
  · have hlimit : (s.start (s.quoteCode str)).limit = 0 := by
      rw [start, hconfig]
      rfl
    have hstack : 0 < (s.start (s.quoteCode str)).stack.size := by
      rw [start, hconfig]
      exact Array.size_replicate ▸ by decide
    have hconstant : (s.start (s.quoteCode str)).constants[s.constants.size]? =
        some (.string str) := Array.getElem?_push_size
    obtain ⟨m, hrun, hlast⟩ := Machine.runFor_const_pop rfl rfl (Nat.le_of_lt_succ hroom) hconstant
      hlimit rfl hstack hfuel
    rw [eval_of_compile (compile_quote str hroom), hrun]
    exact congrArg Except.ok hlast

/-- A NUL byte, a quote, a backslash, a line feed, a byte of no character, and the letter that with
a backslash before it would be a line feed. -/
theorem Session.eval_quote_nul :
    let str : Bytes := [0, 34, 92, 10, 255, 110]
    let s := new .default false
    quote str = [34, 92, 0, 92, 34, 92, 92, 10, 255, 110, 34] ∧ s.config = .default ∧
      s.constants.size < 65536 ∧ (s.eval 2 (quote str)).1.result = .ok (.string str) := by
  intro str s
  have hroom : s.constants.size < 65536 := by decide
  exact ⟨by decide, rfl, hroom, (Session.eval_quote str).2.2 s rfl hroom 2 (Nat.le_refl 2)⟩

end StackScript
