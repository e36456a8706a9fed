import Mathlib.Data.Set.Basic
import StackScript.Proofs.Machine.Effect

/-!
# What instructions leave alone

The parts of an instruction work on the stack and the frames. Whatever they are
executed on, and however they end, the constants, the trace and the number of
instructions stay, and so do all global variables but the one that an
instruction stores to.

## Main definitions

* `Machine.Retains`: what is as it was, but for some global variables.
* `Exec.Spares`: a computation leaves it alone.

## Main results

* `Exec.spares_exec`: what the execution of an instruction leaves alone.
* `Machine.step_retains`: what a step leaves alone.
-/

namespace StackScript

namespace Machine

/-- Everything that no instruction works on is as it was, and so are the global variables but for
the slots in the set. -/
structure Retains (W : Set Nat) (m m' : Machine) : Prop where
  globals : ∀ k, k ∉ W → m'.globals[k]? = m.globals[k]?
  constants : m'.constants = m.constants
  tracing : m'.tracing = m.tracing
  trace : m'.trace = m.trace
  instructions : m'.stats.instructions = m.stats.instructions

variable {W : Set Nat} {m m' m'' : Machine}

theorem Retains.refl (m : Machine) : m.Retains W m := ⟨fun _ _ => rfl, rfl, rfl, rfl, rfl⟩

theorem Retains.trans (h : m.Retains W m') (h' : m'.Retains W m'') : m.Retains W m'' where
  globals k hk := (h'.globals k hk).trans (h.globals k hk)
  constants := h'.constants.trans h.constants
  tracing := h'.tracing.trans h.tracing
  trace := h'.trace.trans h.trace
  instructions := h'.instructions.trans h.instructions

end Machine

namespace Exec

variable {W : Set Nat} {α β : Type} {x : Exec α}

/-- The machine that a computation leaves, however it ends. -/
def left : EStateM.Result Stop Machine α → Machine
  | .ok _ m | .error _ m => m

/-- The computation leaves a machine alone but for what instructions work on. -/
def Spares (W : Set Nat) (x : Exec α) : Prop := ∀ m : Machine, m.Retains W (left (x m))

theorem Spares.bind {f : α → Exec β} (hx : x.Spares W) (hf : ∀ a, (f a).Spares W) :
    (x >>= f).Spares W := by
  intro m
  have hxm := hx m
  simp only [Bind.bind, EStateM.bind]
  cases h : x m with
  | error e m' =>
    rw [h] at hxm
    exact hxm
  | ok a m' =>
    rw [h] at hxm
    exact hxm.trans (hf a m')

theorem Spares.pure (a : α) : (Pure.pure a : Exec α).Spares W := fun m => .refl m

theorem Spares.get : (MonadState.get : Exec Machine).Spares W := fun m => .refl m

theorem Spares.modify {f : Machine → Machine} (h : ∀ m : Machine, m.Retains W (f m)) :
    (modify f : Exec Unit).Spares W := h

theorem Spares.modifyGet {f : Machine → α × Machine} (h : ∀ m : Machine, m.Retains W (f m).2) :
    (MonadState.modifyGet f : Exec α).Spares W := h

theorem Spares.crash : (crash : Exec α).Spares W := fun m => .refl m

theorem Spares.raise (fault : Fault) : (raise fault : Exec α).Spares W := fun m => .refl m

theorem Spares.ite {p : Prop} [Decidable p] {y : Exec α} (hx : x.Spares W) (hy : y.Spares W) :
    (if p then x else y).Spares W := by
  split
  · exact hx
  · exact hy

theorem Spares.attempt (r : Except Fault α) : (attempt r).Spares W := by
  cases r with
  | ok a => exact .pure a
  | error fault => exact .raise fault

/-! ### The parts of instructions -/

theorem spares_push (v : Value) : (push v).Spares W :=
  .bind .get fun _ => .bind .get fun _ =>
    .ite (.modify fun _ => ⟨fun _ _ => rfl, rfl, rfl, rfl, rfl⟩) (.raise _)

theorem spares_pop : pop.Spares W := by
  refine .bind .get fun m => .ite .crash ?_
  split
  · exact .bind (.modify fun _ => ⟨fun _ _ => rfl, rfl, rfl, rfl, rfl⟩) fun _ => .pure _
  · exact .crash

theorem spares_top (n : Nat) : (top n).Spares W :=
  .bind .get fun _ => .ite (.pure _) .crash

theorem spares_drop (n : Nat) : (drop n).Spares W :=
  .modify fun _ => ⟨fun _ _ => rfl, rfl, rfl, rfl, rfl⟩

theorem spares_jumpTo (offset : Nat) : (jumpTo offset).Spares W :=
  .modify fun _ => ⟨fun _ _ => rfl, rfl, rfl, rfl, rfl⟩

/-- A condition that has to be met before a computation. -/
theorem Spares.unless {p : Prop} [Decidable p] {fault : Fault} (hx : x.Spares W) :
    (if p then Exec.raise fault >>= fun _ : Unit => x else x).Spares W :=
  .ite (.bind (.raise _) fun _ => hx) hx

theorem spares_enter (id : Nat) (fn : Function) (free : List Value) (n : Nat) :
    (enter id fn free n).Spares W :=
  .unless (.bind .get fun _ => .unless (.unless
    (.modify fun _ => ⟨fun _ _ => rfl, rfl, rfl, rfl, rfl⟩)))

theorem spares_call [Casing] (n : Nat) : (call n).Spares W := by
  refine .bind .get fun m => .ite .crash ?_
  split
  · exact .crash
  · exact spares_enter _ _ _ _
  · exact .crash
  · exact .crash
  · exact .bind (spares_top _) fun _ =>
      .bind (.modify fun _ => ⟨fun _ _ => rfl, rfl, rfl, rfl, rfl⟩) fun _ => spares_push _
  · exact .raise _
  · exact .raise _

theorem spares_leave (v : Value) : (leave v).Spares W := by
  refine .bind .get fun m => ?_
  split
  · exact .bind (spares_push v) fun _ => .bind (spares_drop 1) fun _ => spares_jumpTo _
  · exact .bind (.modify fun _ => ⟨fun _ _ => rfl, rfl, rfl, rfl, rfl⟩) fun _ => spares_push v

theorem spares_close (number n : Nat) : (close number n).Spares W := by
  refine .bind .get fun m => ?_
  split
  · exact .crash
  · exact .bind (spares_top n) fun _ => .bind (spares_drop n) fun _ =>
      .bind (.modifyGet fun _ => ⟨fun _ _ => rfl, rfl, rfl, rfl, rfl⟩) fun _ => spares_push _
  · exact .raise _

/-- Push what was computed. -/
theorem spares_pushAttempt (r : Except Fault Value) : (attempt r >>= push).Spares W :=
  .bind (.attempt r) spares_push

/-- An operator with two operands. -/
theorem spares_binary (f : Value → Value → Exec Unit) (hf : ∀ a b, (f a b).Spares W) :
    (do let right ← pop; let left ← pop; f left right).Spares W :=
  .bind spares_pop fun _ => .bind spares_pop fun _ => hf _ _

/-- Only the global variable that the instruction stores to may change. -/
theorem spares_exec [Casing] (i : Instr) : (exec i).Spares {n | i = ⟨.setGlobal, [n]⟩} := by
  obtain ⟨op, operands⟩ := i
  unfold exec
  split
  · refine .bind .get fun m => ?_
    split
    · exact spares_push _
    · exact .crash
  · exact spares_push _
  · exact spares_push _
  · exact spares_push _
  · exact .bind spares_pop fun _ => .pure _
  · exact spares_binary _ fun _ _ => spares_pushAttempt _
  · exact spares_binary _ fun _ _ => spares_pushAttempt _
  · exact spares_binary _ fun _ _ => spares_pushAttempt _
  · exact spares_binary _ fun _ _ => spares_pushAttempt _
  · exact spares_binary _ fun _ _ => spares_push _
  · exact spares_binary _ fun _ _ => spares_push _
  · exact spares_binary _ fun _ _ => spares_pushAttempt _
  · exact .bind spares_pop fun _ => spares_push _
  · exact .bind spares_pop fun _ => spares_pushAttempt _
  · exact spares_jumpTo _
  · exact .bind spares_pop fun _ => .ite (.pure _) (spares_jumpTo _)
  · next slot hop hoperands =>
    obtain rfl : op = _ := hop
    obtain rfl : operands = _ := hoperands
    refine .bind .get fun m => .ite (.bind spares_pop fun v => .modify fun m => ?_) (.raise _)
    refine ⟨fun k hk => ?_, rfl, rfl, rfl, rfl⟩
    have hne : slot ≠ k := by
      rintro rfl
      exact hk rfl
    exact Array.getElem?_setIfInBounds_ne hne
  · refine .bind .get fun m => ?_
    split
    · exact spares_push _
    · exact .raise _
  · exact .bind spares_pop fun _ => .bind .get fun _ =>
      .ite (.modify fun _ => ⟨fun _ _ => rfl, rfl, rfl, rfl, rfl⟩) .crash
  · refine .bind .get fun m => ?_
    split
    · exact spares_push _
    · exact .crash
  · split
    · exact spares_push _
    · exact .raise _
  · refine .bind .get fun m => ?_
    split
    · exact spares_push _
    · exact .crash
  · exact .bind .get fun _ => spares_push _
  · exact .bind (spares_top _) fun _ => .bind (spares_drop _) fun _ => spares_push _
  · exact .bind (spares_top _) fun _ => .bind (.attempt _) fun _ =>
      .bind (spares_drop _) fun _ => spares_push _
  · exact spares_binary _ fun _ _ => spares_pushAttempt _
  · exact spares_call _
  · exact .bind spares_pop fun _ => spares_leave _
  · exact spares_leave _
  · exact spares_close _ _
  · exact .crash

end Exec

/-! ### Steps -/

namespace Machine

/-- The machine with a line in its trace for the byte at an offset, if it is tracing. -/
def noted (m : Machine) (offset : Nat) (b : UInt8) : Machine :=
  if m.tracing then
    { m with trace := ⟨m.frame.name, offset, b, m.sp, m.callers.size + 1⟩ :: m.trace }
  else m

/-- What a step does when it has counted the instruction at an offset. -/
def perform [Casing] (code : Code) (offset : Nat) : Exec Unit :=
  match code.fetch offset with
  | some (.instr i) => do
    Exec.jumpTo (offset + i.op.size)
    Exec.exec i
  | some (.undefined b) => Exec.raise (.unknownOpcode b)
  | some (.truncated _) | none => Exec.crash

/-- The instructions of a run are more than its limit. -/
def Exhausted (m : Machine) : Prop := 0 < m.limit ∧ m.limit < m.stats.instructions + 1

instance (m : Machine) : Decidable m.Exhausted := inferInstanceAs (Decidable (_ ∧ _))

variable {W : Set Nat} {m : Machine} {b : UInt8}

theorem count_eq (m : Machine) (b : UInt8) :
    Exec.count m.frame.next b m =
      if m.Exhausted then Exec.raise (.instructionLimit m.limit) (m.advance (m.frame.next + 1))
      else .ok () ((m.advance (m.frame.next + 1)).noted m.frame.next b) := by
  change (if 0 < m.limit ∧ m.limit < m.stats.instructions + 1 then
    Exec.raise (.instructionLimit m.limit) >>= fun _ => _
    else if m.tracing then modify _ else pure () : Exec Unit) (m.advance (m.frame.next + 1)) = _
  by_cases hover : 0 < m.limit ∧ m.limit < m.stats.instructions + 1
  · rw [if_pos hover, if_pos (c := m.Exhausted) hover]
    rfl
  · rw [if_neg hover, if_neg (c := m.Exhausted) hover, noted]
    change _ = EStateM.Result.ok () (if m.tracing = true then _ else _)
    split <;> rfl

theorem step_byte [Casing] (m : Machine) :
    step m = (match m.frame.fn.code[m.frame.next]? with
      | none => Exec.crash
      | some b => Exec.count m.frame.next b >>= fun _ =>
        perform m.frame.fn.code m.frame.next : Exec Unit) m :=
  rfl

/-- A step counts an instruction, which may be one too many, and then executes it. -/
theorem step_counted [Casing] (h : m.frame.fn.code[m.frame.next]? = some b) :
    step m =
      if m.Exhausted then Exec.raise (.instructionLimit m.limit) (m.advance (m.frame.next + 1))
      else perform m.frame.fn.code m.frame.next
        ((m.advance (m.frame.next + 1)).noted m.frame.next b) := by
  rw [step_byte, h]
  simp only [bind, EStateM.bind, count_eq]
  by_cases hover : m.Exhausted
  · simp only [if_pos hover]
    rfl
  · simp only [if_neg hover]

/-- A step executes the instruction at the offset reached, unless it is one too many. -/
theorem step_eq_exec [Casing] {i : Instr} (hover : ¬m.Exhausted)
    (hfetch : m.frame.fn.code.fetch m.frame.next = some (.instr i)) :
    ∃ m₁, step m = Exec.exec i m₁ ∧ (m.advance (m.frame.next + i.op.size)).Agrees m₁ ∧
      m₁.sp = m.sp ∧ m₁.stack = m.stack := by
  obtain ⟨b, hb⟩ := Code.exists_byte_of_fetch hfetch
  rw [step_counted hb, if_neg hover, perform, hfetch, noted]
  split
  · exact ⟨_, rfl, ⟨rfl, rfl, rfl, rfl, rfl, rfl, rfl, rfl, rfl, rfl⟩, rfl, rfl⟩
  · exact ⟨_, rfl, ⟨rfl, rfl, rfl, rfl, rfl, rfl, rfl, rfl, rfl, rfl⟩, rfl, rfl⟩

theorem spares_perform [Casing] (code : Code) (offset : Nat) :
    (perform code offset).Spares {n | code.fetch offset = some (.instr ⟨.setGlobal, [n]⟩)} := by
  unfold perform
  split
  · next i hfetch =>
    refine .bind (Exec.spares_jumpTo _) fun _ m => ?_
    have hexec := Exec.spares_exec i m
    refine ⟨fun k hk => hexec.globals k ?_, hexec.constants, hexec.tracing, hexec.trace,
      hexec.instructions⟩
    rintro rfl
    exact hk hfetch
  · exact .raise _
  · exact .crash
  · exact .crash

/-- What a step leaves alone when it has counted and noted its instruction. -/
theorem step_retains [Casing] (h : m.frame.fn.code[m.frame.next]? = some b) (hover : ¬m.Exhausted) :
    ((m.advance (m.frame.next + 1)).noted m.frame.next b).Retains
      {n | m.frame.fn.code.fetch m.frame.next = some (.instr ⟨.setGlobal, [n]⟩)}
      (Exec.left (step m)) := by
  rw [step_counted h, if_neg hover]
  exact spares_perform _ _ _

@[simp] theorem globals_noted (m : Machine) (offset : Nat) (b : UInt8) :
    (m.noted offset b).globals = m.globals := by
  unfold noted
  split <;> rfl

/-- A step changes no global variable but the one that its instruction stores to. -/
theorem step_globals [Casing] (m : Machine) {k : Nat}
    (hk : m.frame.fn.code.fetch m.frame.next ≠ some (.instr ⟨.setGlobal, [k]⟩)) :
    (Exec.left (step m)).globals[k]? = m.globals[k]? := by
  cases hb : m.frame.fn.code[m.frame.next]? with
  | none =>
    rw [step_byte, hb]
    rfl
  | some b =>
    by_cases hover : m.Exhausted
    · rw [step_counted hb, if_pos hover]
      rfl
    · rw [(step_retains hb hover).globals k hk, globals_noted]
      rfl

end Machine

end StackScript
