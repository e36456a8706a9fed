import StackScript.Proofs.Compile.Occurrence
import StackScript.Proofs.Machine.Lockstep

/-!
# Runs that come to an end

A run of main code that is finished has executed a last instruction. Unless that
is a return from the main code, the machine then rests: it stands at the end of
the main code and nothing is on its stack. Every function ends in a return, so
it is not left at its end.

A twin has gone along up to that instruction and executes it too. So it has
popped the same value last, and where its own code goes on it goes on.

## Main definitions

* `Machine.ReturnsFromMain`: the run has a return from the main code.

## Main results

* `Machine.Launched.rests`: the machine after the last instruction.
* `Machine.Twin.finishes`: the twin of a machine whose run is finished.
-/

namespace StackScript

namespace Machine

open Instr

variable {m m' : Machine}

/-! ### The last instruction -/

theorem running_of_dispatch [Casing] {n : Nat} (h : m.dispatch n = some m') :
    m'.running = true := by
  cases n with
  | zero =>
    rw [dispatch] at h
    split at h
    · next hrunning =>
      obtain rfl := Option.some.inj h
      exact hrunning
    · cases h
  | succ n =>
    obtain ⟨m₁, -, hnext⟩ := Option.bind_eq_some_iff.1 h
    exact (step_of_next hnext).2

/-- A run goes on from any of its instructions. -/
theorem runFor_of_dispatch [Casing] {n : Nat} (h : m.dispatch n = some m') (fuel : Nat) :
    m.runFor (n + fuel) = m'.runFor fuel := by
  induction n generalizing m' fuel with
  | zero =>
    rw [dispatch] at h
    split at h
    · obtain rfl := Option.some.inj h
      rw [Nat.zero_add]
    · cases h
  | succ n ih =>
    obtain ⟨m₁, hm₁, hnext⟩ := Option.bind_eq_some_iff.1 h
    obtain ⟨hstep, -⟩ := step_of_next hnext
    have hone : m₁.runFor (fuel + 1) = m'.runFor fuel := by
      rw [runFor, if_pos (running_of_dispatch hm₁), hstep]
    rw [Nat.add_right_comm, Nat.add_assoc, ih hm₁, hone]

/-- A run that is finished has executed a last instruction. -/
theorem exists_last_step [Casing] {fuel : Nat} (hrunning : m.running = true)
    (hrun : m.runFor fuel = (.finished, m')) :
    ∃ n m₁, n < fuel ∧ m.dispatch n = some m₁ ∧ Machine.step m₁ = .ok () m' ∧
      ¬m'.running = true := by
  induction fuel generalizing m with
  | zero =>
    rw [runFor, if_pos hrunning] at hrun
    cases (Prod.mk.inj hrun).1
  | succ fuel ih =>
    rw [runFor, if_pos hrunning] at hrun
    cases hstep : Machine.step m with
    | error stop m₁ =>
      rw [hstep] at hrun
      cases (Prod.mk.inj hrun).1
    | ok u m₁ =>
      rw [hstep] at hrun
      replace hrun : m₁.runFor fuel = (.finished, m') := hrun
      by_cases hrunning₁ : m₁.running = true
      · obtain ⟨n, m₂, hn, hm₂, hlast⟩ := ih hrunning₁ hrun
        refine ⟨n + 1, m₂, Nat.succ_lt_succ hn, ?_, hlast⟩
        rw [dispatch_of_ok hrunning hstep, hm₂]
      · rw [runFor_of_not_running hrunning₁] at hrun
        obtain rfl : m₁ = m' := (Prod.mk.inj hrun).2
        refine ⟨0, m, Nat.succ_pos fuel, ?_, hstep, hrunning₁⟩
        rw [dispatch, if_pos hrunning]

/-! ### Rest -/

variable {P : Array Value} {G n : Nat} {is : List Instr} {m₁ : Machine} {i : Instr}

/-- The outermost frame is that of the main code after the last instruction, too. -/
theorem Launched.frames_step [Casing] (h : Launched P G is m) {u : Unit}
    (hn : m.dispatch n = some m₁) (hstep : Machine.step m₁ = .ok u m') :
    ∃ inner next, m'.frames = inner ++ [{ m.frame with next := next }] := by
  obtain ⟨hok, hrunning, -⟩ := h.ok.dispatch h.pool hn
  obtain ⟨inner, next, hframes⟩ := h.frames hn
  have hmoves := ((hok.step h.pool hrunning).of_ok hstep).moves
  rw [hframes] at hmoves
  obtain ⟨inner', next', hframes', -⟩ := hmoves.below (Nat.succ_pos _)
  exact ⟨inner', next', hframes'⟩

/-- After its last instruction the machine stands at the end of the main code, with nothing on the
stack, unless it has returned from there. -/
theorem Launched.rests [Casing] (h : Launched P G is m) {u : Unit} (hn : m.dispatch n = some m₁)
    (hfetch : m₁.frame.fn.code.fetch m₁.frame.next = some (.instr i))
    (hreturn : ¬(i.Returns ∧ m₁.callers = #[])) (hstep : Machine.step m₁ = .ok u m')
    (hstopped : ¬m'.running = true) :
    m'.callers = #[] ∧ m'.live = [] ∧ m'.frame = { m.frame with next := bytes is } := by
  obtain ⟨hok, hrunning, -⟩ := h.ok.dispatch h.pool hn
  obtain ⟨j, hj, hwalk, hacts | hends⟩ := hok.acts_step h.pool hrunning hstep
  swap
  · obtain rfl : j = i := by simpa [hfetch] using hj.symm
    exact absurd ⟨hends.1, hends.2.1⟩ hreturn
  have hstepped := (hok.step h.pool hrunning).of_ok hstep
  have htidy := (h.ok.tidy h.pool h.tidy hn).step hwalk hacts hstepped
  obtain ⟨d, hreaches, hd⟩ := htidy.anchored (m'.frame, m'.live.length) (List.mem_cons_self ..)
  have hend {t : List Instr} (hlaid : m'.frame.fn.code.Laid t) : m'.frame.next = bytes t := by
    have hle := hlaid.le_of_reaches hreaches
    have hge : m'.frame.fn.code.size ≤ m'.frame.next := by simpa [running] using hstopped
    rw [hlaid.eq, Code.size_ofInstrs] at hge
    exact Nat.le_antisymm hle hge
  have hcallers : m'.callers = #[] := by
    by_contra hcallers
    obtain ⟨t, i, hlaid, hi⟩ := h.functions _ (htidy.called_frame hcallers)
    rw [hend hlaid] at hreaches
    exact hlaid.not_reaches_end hi hreaches
  obtain ⟨inner, next, hframes⟩ := h.frames_step hn hstep
  have hframe := frame_eq_of_frames hframes hcallers
  have hlaid : m'.frame.fn.code.Laid is := by
    rw [hframe]
    exact h.laid
  rw [hend hlaid] at hreaches
  refine ⟨hcallers, ?_, ?_⟩
  · have hheight : m.frame.base + m.frame.fn.locals + d = m'.live.length := by
      simpa only [hframe] using hd
    rw [h.base, h.locals, hlaid.reaches_end hreaches] at hheight
    exact List.eq_nil_of_length_eq_zero hheight.symm
  · rw [← hend hlaid, hframe]

/-- A return is executed in the main code. -/
def ReturnsFromMain [Casing] (m : Machine) : Prop :=
  ∃ n m₁ i, m.dispatch n = some m₁ ∧ m₁.callers = #[] ∧
    m₁.frame.fn.code.fetch m₁.frame.next = some (.instr i) ∧ i.Returns

/-- Main code that has no return does not return. -/
theorem Launched.not_returnsFromMain [Casing] (h : Launched P G is m)
    (hwalk : ∀ o i, (o, .instr i) ∈ m.frame.fn.code.walk → ¬i.Returns) : ¬m.ReturnsFromMain := by
  rintro ⟨n, m₁, i, hn, hcallers, hfetch, hi⟩
  obtain ⟨hok, hrunning, -⟩ := h.ok.dispatch h.pool hn
  obtain ⟨j, -, -, -, -, hj, hmem⟩ := hok.ready h.pool hrunning
  obtain rfl : j = i := by simpa [hfetch] using hj.symm
  obtain ⟨next, hframe⟩ := h.frame_main hn hcallers
  have hcode : m₁.frame.fn.code = m.frame.fn.code := by rw [hframe]
  rw [hcode] at hmem
  exact hwalk _ j hmem hi

/-- A machine whose run is finished without a return from the main code rests. -/
theorem Launched.rests_of_run [Casing] (h : Launched P G is m) {fuel : Nat}
    (hreturn : ¬m.ReturnsFromMain) (hrun : m.runFor fuel = (.finished, m')) :
    m'.callers = #[] ∧ m'.live = [] ∧ m'.frame = { m.frame with next := bytes is } := by
  by_cases hrunning : m.running = true
  · obtain ⟨n, m₁, -, hn, hstep, hstopped⟩ := exists_last_step hrunning hrun
    obtain ⟨hok, hrunning₁, -⟩ := h.ok.dispatch h.pool hn
    obtain ⟨i, -, -, -, -, hfetch, -⟩ := hok.ready h.pool hrunning₁
    exact h.rests hn hfetch (fun hmain => hreturn ⟨n, m₁, i, hn, hmain.2, hfetch, hmain.1⟩) hstep
      hstopped
  · rw [runFor_of_not_running hrunning] at hrun
    obtain rfl : m = m' := (Prod.mk.inj hrun).2
    have hzero : bytes is = 0 := by
      rw [← Code.size_ofInstrs, ← h.laid.eq]
      simpa [running, h.next] using hrunning
    refine ⟨h.callers, h.live, ?_⟩
    rw [hzero, ← h.next]

/-! ### Twins -/

variable {whole : Bytecode} {k : Nat} {before : List Bytes} {b : Machine}

theorem Twin.running (h : Twin whole k before m b) (hok : m.Ok P G) (hpool : PoolOk P G)
    (hrunning : m.running = true) : b.running = true := by
  obtain ⟨i, -, -, -, -, hfetch, hwalk⟩ := hok.ready hpool hrunning
  obtain ⟨x, hx⟩ := Code.exists_byte_of_fetch (h.fetch hfetch hwalk)
  exact decide_eq_true (Array.getElem?_eq_some_iff.1 hx).1

theorem Twin.not_running (h : Twin whole k before m b)
    (hsize : m.callers = #[] → whole.code.size = m.frame.fn.code.size + k)
    (hstopped : ¬m.running = true) : ¬b.running = true := by
  obtain ⟨hcallers, -, hframe, -⟩ | ⟨-, hframe, -⟩ := h.cases_frame
  · have hsize := hsize hcallers
    rw [Machine.running, decide_eq_true_iff] at hstopped ⊢
    rw [hframe]
    change ¬m.frame.next + k < whole.code.size
    omega
  · rwa [Machine.running, hframe]

/-- The size of the codes fits wherever the machine returns from its main code. -/
theorem Launched.size_of_returns [Casing] (h : Launched P G is m)
    (hsize : m.ReturnsFromMain → whole.code.size = m.frame.fn.code.size + k)
    (hn : m.dispatch n = some m₁)
    (hfetch : m₁.frame.fn.code.fetch m₁.frame.next = some (.instr i)) (hi : i.Returns)
    (hcallers : m₁.callers = #[]) : whole.code.size = m₁.frame.fn.code.size + k := by
  obtain ⟨next, hframe⟩ := h.frame_main hn hcallers
  rw [hsize ⟨n, m₁, i, hn, hcallers, hfetch, hi⟩, hframe]

/-- The twin of a machine executes the same instructions. If the machine returns from its main
code, both codes have to end together. -/
theorem Twin.dispatch [Casing] (h : Twin whole k before m b) (hm : Launched P G is m)
    (hsize : m.ReturnsFromMain → whole.code.size = m.frame.fn.code.size + k)
    (hn : m.dispatch n = some m₁) :
    ∃ b₁, b.dispatch n = some b₁ ∧ Twin whole k before m₁ b₁ := by
  induction n generalizing m₁ with
  | zero =>
    have hrunning := running_of_dispatch hn
    rw [Machine.dispatch] at hn
    split at hn
    · obtain rfl := Option.some.inj hn
      refine ⟨b, ?_, h⟩
      rw [Machine.dispatch, if_pos (h.running hm.ok hm.pool hrunning)]
    · cases hn
  | succ n ih =>
    obtain ⟨m₂, hm₂, hnext⟩ := Option.bind_eq_some_iff.1 hn
    obtain ⟨b₂, hb₂, htwin₂⟩ := ih hm₂
    obtain ⟨hok₂, hrunning₂, -⟩ := hm.ok.dispatch hm.pool hm₂
    obtain ⟨hok₁, hrunning₁, -⟩ := hm.ok.dispatch hm.pool hn
    -- Whether the code of the machine has to end with that of its twin depends on this instruction.
    obtain ⟨i, -, -, -, -, hfetch, -⟩ := hok₂.ready hm.pool hrunning₂
    obtain ⟨b₁, hstep, htwin₁, -⟩ := htwin₂.step hok₂ hm.pool hrunning₂ hfetch
      (hm.size_of_returns hsize hm₂ hfetch) () m₁ (step_of_next hnext).1
    refine ⟨b₁, ?_, htwin₁⟩
    rw [Machine.dispatch, hb₂, Option.bind_some, next?, hstep]
    exact if_pos (htwin₁.running hok₁ hm.pool hrunning₁)

/-- When the run of a machine is finished, its twin is where the machine is. If anything has been
executed, they have popped the same value last. If the codes end together, the run of the twin is
finished, too. -/
theorem Twin.finishes [Casing] (h : Twin whole k before m b) (hm : Launched P G is m)
    (hsize : m.ReturnsFromMain → whole.code.size = m.frame.fn.code.size + k) {fuel : Nat}
    (hrun : m.runFor fuel = (.finished, m')) :
    ∃ n b', n ≤ fuel ∧ (∀ extra, b.runFor (n + extra) = b'.runFor extra) ∧
      Twin whole k before m' b' ∧ (m.running = true → b'.lastPopped = m'.lastPopped) ∧
      (whole.code.size = m.frame.fn.code.size + k → ¬b'.running = true) := by
  by_cases hrunning : m.running = true
  swap
  · rw [runFor_of_not_running hrunning] at hrun
    obtain rfl : m = m' := (Prod.mk.inj hrun).2
    refine ⟨0, b, Nat.zero_le _, ?_, h, fun hrunning' => absurd hrunning' hrunning, ?_⟩
    · intro extra
      rw [Nat.zero_add]
    · intro hends
      exact h.not_running (fun _ => hends) hrunning
  obtain ⟨n, m₁, hlt, hn, hstep, hstopped⟩ := exists_last_step hrunning hrun
  obtain ⟨hok, hrunning₁, -⟩ := hm.ok.dispatch hm.pool hn
  obtain ⟨i, -, -, -, -, hfetch, -⟩ := hok.ready hm.pool hrunning₁
  obtain ⟨b₁, hb₁, htwin⟩ := h.dispatch hm hsize hn
  obtain ⟨b', hstep', htwin', halike⟩ := htwin.step hok hm.pool hrunning₁ hfetch
    (hm.size_of_returns hsize hn hfetch) () m' hstep
  refine ⟨n + 1, b', hlt, ?_, htwin', fun _ => ?_, fun hends => ?_⟩
  · intro extra
    rw [Nat.add_assoc, runFor_of_dispatch hb₁, Nat.add_comm, runFor,
      if_pos (htwin.running hok hm.pool hrunning₁), hstep']
  · obtain hlast | hgoes | ⟨hreturn, hpos⟩ := halike
    · exact hlast
    · exact absurd hgoes hstopped
    · obtain ⟨-, hlive, -⟩ := hm.rests hn hfetch hreturn hstep hstopped
      rw [← htwin'.fits.length_live, hlive] at hpos
      exact absurd hpos (Nat.lt_irrefl 0)
  · refine htwin'.not_running ?_ hstopped
    intro hcallers
    obtain ⟨inner, next, hframes⟩ := hm.frames_step hn hstep
    rw [frame_eq_of_frames hframes hcallers]
    exact hends

end Machine

end StackScript
