import StackScript.Proofs.Machine.Retained
import StackScript.Proofs.Machine.Run
import StackScript.Text.Lower

/-!
# Machines with more room

A machine with a larger stack, more frames and another limit does what the
smaller one does, step by step, as long as the smaller one does not end for want
of room. This holds of any code, compiled or not. The slots that the larger
stack has in addition are null all the time, so that reading above the top of
the stack makes no difference either.

## Main definitions

* `Machine.widen`: the machine with more room and another limit.
* `Fault.Resource`: faults for want of room.
* `Exec.Matches`, `Exec.Scales`: computations that do the same with more room.
* `Machine.EndsAfter`: a run of so many instructions, up to its end.

## Main results

* `Exec.scales_exec`: instructions do the same with more room.
* `Machine.EndsAfter.widen`: so do runs that stay within the other limit.
* `Machine.EndsAfter.exhausted`: other runs are cut off at the limit.
* `Machine.run_capacity`: both for machines that are loaded with any code.
-/

namespace StackScript

/-- The fault is that there is not enough room or that there were too many instructions. -/
def Fault.Resource : Fault → Prop
  | .stackOverflow | .frameOverflow _ | .instructionLimit _ => True
  | _ => False

namespace Machine

/-- The machine with room for `k` more values and `j` more frames, and with another limit. -/
def widen (m : Machine) (k j limit : Nat) : Machine :=
  { m with
    stack := m.stack ++ Array.replicate k .null
    maxFrames := m.maxFrames + j
    limit := limit }

variable {k j l : Nat}

theorem size_widen (m : Machine) (k j l : Nat) :
    (m.widen k j l).stack.size = m.stack.size + k := by
  change (m.stack ++ Array.replicate k Value.null).size = _
  rw [Array.size_append, Array.size_replicate]

/-- Above the old stack there are nulls, which is what is read there without them. -/
theorem getD_widen (m : Machine) (k j l i : Nat) :
    (m.widen k j l).stack[i]?.getD .null = m.stack[i]?.getD .null := by
  change (m.stack ++ Array.replicate k Value.null)[i]?.getD .null = _
  rw [Array.getElem?_append]
  split
  · rfl
  · next hi =>
    rw [Array.getElem?_eq_none (Nat.not_lt.1 hi), Array.getElem?_replicate]
    split <;> rfl

theorem lastPopped_widen (m : Machine) (k j l : Nat) : (m.widen k j l).lastPopped = m.lastPopped :=
  m.getD_widen k j l m.sp

theorem stackTop_widen (m : Machine) (k j l : Nat) : (m.widen k j l).stackTop = m.stackTop := by
  change (if m.sp = 0 then Value.null else (m.widen k j l).stack[m.sp - 1]?.getD .null) = _
  rw [getD_widen]
  rfl

end Machine

namespace Exec

variable {α β : Type} {x y : Exec α} {m : Machine} {k j l : Nat}

/-- With more room the second computation ends like the first, unless that ends for want of room
or in a crash. -/
def Matches (x y : Exec α) (m : Machine) (k j l : Nat) : Prop :=
  match x m with
  | .ok a m' => y (m.widen k j l) = .ok a (m'.widen k j l)
  | .error (.fault e) m' =>
    e.fault.Resource ∨ y (m.widen k j l) = .error (.fault e) (m'.widen k j l)
  | .error .crash _ => True

/-- The computation does the same with more room. -/
def Scales (x : Exec α) : Prop := ∀ m k j l, Matches x x m k j l

theorem Matches.bind {f g : α → Exec β} (hx : Matches x y m k j l)
    (hf : ∀ a m', x m = .ok a m' → Matches (f a) (g a) m' k j l) :
    Matches (x >>= f) (y >>= g) m k j l := by
  unfold Matches at hx ⊢
  simp only [Bind.bind, EStateM.bind]
  cases h : x m with
  | ok a m' =>
    rw [h] at hx
    have hrest := hf a m' h
    simp only [hx]
    exact hrest
  | error stop m' =>
    rw [h] at hx
    cases stop with
    | crash => trivial
    | fault e =>
      obtain hresource | hy := hx
      · exact .inl hresource
      · exact .inr (by simp only [hy])

theorem Scales.bind {f : α → Exec β} (hx : x.Scales) (hf : ∀ a, (f a).Scales) :
    (x >>= f).Scales :=
  fun m k j l => (hx m k j l).bind fun a m' _ => hf a m' k j l

/-- Each machine looks at itself. -/
theorem Matches.get {f g : Machine → Exec β} (h : Matches (f m) (g (m.widen k j l)) m k j l) :
    Matches (MonadState.get >>= f) (MonadState.get >>= g) m k j l :=
  h

/-- Looking at a part of the machine that has nothing to do with room. -/
theorem Scales.look {γ : Type} {f : Machine → γ} {g : γ → Exec α}
    (hf : ∀ m k j l, f (m.widen k j l) = f m) (hg : ∀ c, (g c).Scales) :
    (MonadState.get >>= fun m => g (f m) : Exec α).Scales := by
  intro m k j l
  refine .get ?_
  rw [hf]
  exact hg _ m k j l

theorem Scales.ite {p : Prop} [Decidable p] (hx : x.Scales) (hy : y.Scales) :
    (if p then x else y).Scales := by
  split
  · exact hx
  · exact hy

theorem Scales.pure (a : α) : (Pure.pure a : Exec α).Scales := fun _ _ _ _ => rfl

theorem Matches.modify {f g : Machine → Machine}
    (h : g (m.widen k j l) = (f m).widen k j l) :
    Matches (modify f : Exec Unit) (modify g) m k j l := by
  change EStateM.Result.ok () (g (m.widen k j l)) = .ok () ((f m).widen k j l)
  rw [h]

theorem Matches.crash : Matches crash y m k j l := trivial

theorem Scales.crash : (crash : Exec α).Scales := fun _ _ _ _ => trivial

theorem Scales.raise (fault : Fault) : (raise fault : Exec α).Scales := fun _ _ _ _ => .inr rfl

theorem Matches.resource {e : RuntimeError} {m' : Machine} (h : x m = .error (.fault e) m')
    (he : e.fault.Resource) : Matches x y m k j l := by
  rw [Matches, h]
  exact .inl he

theorem Scales.attempt (r : Except Fault α) : (attempt r).Scales := by
  cases r with
  | ok a => exact .pure a
  | error fault => exact .raise fault

/-! ### The parts of instructions -/

theorem scales_push (v : Value) : (push v).Scales := by
  intro m k j l
  refine .get (.get ?_)
  by_cases hroom : m.sp < m.stack.size
  · have hroom' : (m.widen k j l).sp < (m.widen k j l).stack.size := by
      rw [Machine.size_widen]
      exact Nat.lt_add_right k hroom
    rw [if_pos hroom, if_pos hroom']
    refine .modify ?_
    simp only [Machine.widen]
    rw [Array.setIfInBounds_append_left hroom]
  · rw [if_neg hroom]
    exact .resource rfl trivial

/-- What is found on the stack is found there with more room. -/
theorem getElem?_widen {i : Nat} {v : Value} (h : m.stack[i]? = some v) :
    (m.widen k j l).stack[i]? = some v := by
  obtain ⟨hi, -⟩ := Array.getElem?_eq_some_iff.1 h
  rw [← h]
  exact Array.getElem?_append_left hi

theorem scales_pop : pop.Scales := by
  intro m k j l
  refine .get ?_
  by_cases hzero : m.sp = 0
  · rw [if_pos hzero]
    exact .crash
  rw [if_neg hzero, if_neg (show ¬(m.widen k j l).sp = 0 from hzero)]
  cases hv : m.stack[m.sp - 1]? with
  | none => exact .crash
  | some v =>
    rw [show (m.widen k j l).stack[(m.widen k j l).sp - 1]? = some v from getElem?_widen hv]
    exact .bind (.modify rfl) fun _ m' _ => Scales.pure v m' k j l

theorem scales_top (n : Nat) : (top n).Scales := by
  intro m k j l
  refine .get ?_
  by_cases hn : n ≤ m.sp ∧ m.sp ≤ m.stack.size
  · have hn' : n ≤ (m.widen k j l).sp ∧ (m.widen k j l).sp ≤ (m.widen k j l).stack.size := by
      refine ⟨hn.1, Nat.le_trans hn.2 ?_⟩
      rw [Machine.size_widen]
      exact Nat.le_add_right ..
    rw [if_pos hn, if_pos hn']
    have hextract : (m.widen k j l).stack.extract ((m.widen k j l).sp - n) (m.widen k j l).sp =
        m.stack.extract (m.sp - n) m.sp := by
      change (m.stack ++ Array.replicate k Value.null).extract (m.sp - n) m.sp = _
      rw [Array.extract_append, Nat.sub_eq_zero_of_le hn.2]
      simp
    rw [hextract]
    exact Scales.pure _ m k j l
  · rw [if_neg hn]
    exact .crash

theorem scales_drop (n : Nat) : (drop n).Scales := fun _ _ _ _ => .modify rfl

theorem scales_jumpTo (offset : Nat) : (jumpTo offset).Scales := fun _ _ _ _ => .modify rfl

theorem clear_append (stack rest : Array Value) (i n : Nat) (h : 0 < n → i + n ≤ stack.size) :
    clear (stack ++ rest) i n = clear stack i n ++ rest := by
  induction n generalizing stack i with
  | zero => rfl
  | succ n ih =>
    have hroom := h (Nat.succ_pos n)
    rw [clear, clear, Array.setIfInBounds_append_left (by omega)]
    refine ih _ _ fun _ => ?_
    rw [Array.size_setIfInBounds]
    omega

theorem scales_enter (id : Nat) (fn : Function) (free : List Value) (n : Nat) :
    (enter id fn free n).Scales := by
  intro m k j l
  unfold enter
  dsimp only
  by_cases hparams : n ≠ fn.params
  · rw [if_pos hparams]
    exact .bind (Scales.raise _ m k j l) nofun
  rw [if_neg hparams]
  refine .get ?_
  by_cases hframes : m.maxFrames ≤ m.callers.size + 1
  · rw [if_pos hframes]
    exact .resource rfl trivial
  have hframes' : ¬(m.widen k j l).maxFrames ≤ (m.widen k j l).callers.size + 1 := by
    change ¬m.maxFrames + j ≤ m.callers.size + 1
    exact fun hle => hframes (Nat.le_trans (Nat.le_add_right _ j) hle)
  rw [if_neg hframes, if_neg hframes']
  by_cases hfull : m.stack.size < m.sp - n + fn.locals
  · rw [if_pos hfull]
    exact .resource rfl trivial
  have hfull' : ¬(m.widen k j l).stack.size < (m.widen k j l).sp - n + fn.locals := by
    rw [Machine.size_widen]
    exact fun hlt => hfull (Nat.lt_of_le_of_lt (Nat.le_add_right _ k) hlt)
  rw [if_neg hfull, if_neg hfull']
  refine .modify ?_
  simp only [Machine.widen]
  rw [clear_append _ _ _ _ fun _ => by omega]

theorem scales_call [Casing] (n : Nat) : (call n).Scales := by
  intro m k j l
  refine .get ?_
  by_cases hshort : m.sp < n + 1
  · rw [if_pos hshort]
    exact .crash
  rw [if_neg hshort, if_neg (show ¬(m.widen k j l).sp < n + 1 from hshort)]
  cases hv : m.stack[m.sp - 1 - n]? with
  | none => exact .crash
  | some callee =>
    rw [show (m.widen k j l).stack[(m.widen k j l).sp - 1 - n]? = some callee from
      getElem?_widen hv]
    cases callee with
    | closure id fn free =>
      cases fn with
      | none => exact .crash
      | some fn => exact scales_enter id fn free n m k j l
    | noClosure => exact .crash
    | builtin b =>
      cases b with
      | known b =>
        exact .bind (scales_top n m k j l) fun args m₁ _ => .bind (.modify rfl) fun _ m₂ _ =>
          scales_push _ m₂ k j l
      | _ => exact Scales.raise _ m k j l
    | _ => exact Scales.raise _ m k j l

theorem scales_leave (v : Value) : (leave v).Scales := by
  intro m k j l
  refine .get ?_
  rw [show (m.widen k j l).callers = m.callers from rfl]
  cases m.callers.back? with
  | none =>
    exact Scales.bind (scales_push v) (fun _ => .bind (scales_drop 1) fun _ => scales_jumpTo _)
      m k j l
  | some caller => exact Scales.bind (fun _ _ _ _ => .modify rfl) (fun _ => scales_push v) m k j l

theorem scales_close (number n : Nat) : (close number n).Scales := by
  intro m k j l
  refine .get ?_
  rw [show (m.widen k j l).constants = m.constants from rfl]
  cases m.constants[number]? with
  | none => exact .crash
  | some v =>
    cases v with
    | function fn =>
      refine .bind (scales_top n m k j l) fun free m₁ _ => .bind (scales_drop n m₁ k j l) ?_
      intro _ m₂ _
      exact .bind rfl fun id m₃ _ => scales_push _ m₃ k j l
    | _ => exact Scales.raise _ m k j l

theorem scales_setLocal [Casing] (slot : Nat) : (exec ⟨.setLocal, [slot]⟩).Scales := by
  refine .bind scales_pop fun v => ?_
  intro m k j l
  refine .get ?_
  by_cases hroom : m.frame.base + slot < m.stack.size
  · have hroom' : (m.widen k j l).frame.base + slot < (m.widen k j l).stack.size := by
      rw [Machine.size_widen]
      exact Nat.lt_add_right k hroom
    rw [if_pos hroom, if_pos hroom']
    refine .modify ?_
    simp only [Machine.widen]
    rw [Array.setIfInBounds_append_left hroom]
  · rw [if_neg hroom]
    exact .crash

theorem scales_getLocal [Casing] (slot : Nat) : (exec ⟨.getLocal, [slot]⟩).Scales := by
  intro m k j l
  refine .get ?_
  cases hv : m.stack[m.frame.base + slot]? with
  | none => exact .crash
  | some v =>
    rw [show (m.widen k j l).stack[(m.widen k j l).frame.base + slot]? = some v
      from getElem?_widen hv]
    exact scales_push v m k j l

/-- Push a value that may not be there. -/
theorem scales_pushSome (v : Option Value) {x : Exec Unit} (hx : x.Scales) :
    (match v with
      | some v => push v
      | none => x).Scales := by
  cases v with
  | none => exact hx
  | some v => exact scales_push v

theorem scales_setGlobal [Casing] (slot : Nat) : (exec ⟨.setGlobal, [slot]⟩).Scales := by
  refine .look (f := fun m => m.globals.size)
    (g := fun size => if slot < size then do
        let v ← pop
        modify fun m => { m with globals := m.globals.setIfInBounds slot v }
      else raise (.globalRange slot size)) (fun _ _ _ _ => rfl) fun size => ?_
  exact .ite (.bind scales_pop fun v => fun _ _ _ _ => .modify rfl) (.raise _)

theorem scales_getGlobal [Casing] (slot : Nat) : (exec ⟨.getGlobal, [slot]⟩).Scales :=
  .look (f := fun m => (m.globals[slot]?, m.globals.size))
    (g := fun c => match c.1 with
      | some v => push v
      | none => raise (.globalRange slot c.2)) (fun _ _ _ _ => rfl) fun c =>
    scales_pushSome c.1 (.raise _)

/-- Push what was computed. -/
theorem scales_pushAttempt (r : Except Fault Value) : (attempt r >>= push).Scales :=
  .bind (.attempt r) scales_push

/-- An operator with two operands. -/
theorem scales_binary (f : Value → Value → Exec Unit) (hf : ∀ a b, (f a b).Scales) :
    (do let right ← pop; let left ← pop; f left right).Scales :=
  .bind scales_pop fun _ => .bind scales_pop fun _ => hf _ _

/-- Instructions do the same with more room. -/
theorem scales_exec [Casing] (i : Instr) : (exec i).Scales := by
  obtain ⟨op, operands⟩ := i
  unfold exec
  split
  · next number _ _ =>
    exact .look (f := fun m => m.constants[number]?)
      (g := fun
        | some v => push v
        | none => crash) (fun _ _ _ _ => rfl) fun v => scales_pushSome v .crash
  · exact scales_push _
  · exact scales_push _
  · exact scales_push _
  · exact .bind scales_pop fun _ => .pure _
  · exact scales_binary _ fun _ _ => scales_pushAttempt _
  · exact scales_binary _ fun _ _ => scales_pushAttempt _
  · exact scales_binary _ fun _ _ => scales_pushAttempt _
  · exact scales_binary _ fun _ _ => scales_pushAttempt _
  · exact scales_binary _ fun _ _ => scales_push _
  · exact scales_binary _ fun _ _ => scales_push _
  · exact scales_binary _ fun _ _ => scales_pushAttempt _
  · exact .bind scales_pop fun _ => scales_push _
  · exact .bind scales_pop fun _ => scales_pushAttempt _
  · exact scales_jumpTo _
  · exact .bind scales_pop fun _ => .ite (.pure _) (scales_jumpTo _)
  · exact scales_setGlobal _
  · exact scales_getGlobal _
  · exact scales_setLocal _
  · exact scales_getLocal _
  · split
    · exact scales_push _
    · exact .raise _
  · next number _ _ =>
    exact .look (f := fun m => m.frame.free[number]?)
      (g := fun
        | some v => push v
        | none => crash) (fun _ _ _ _ => rfl) fun v => scales_pushSome v .crash
  · exact .look (f := fun m => m.frame) (g := fun f => push (.closure f.id (some f.fn) f.free))
      (fun _ _ _ _ => rfl) fun _ => scales_push _
  · exact .bind (scales_top _) fun _ => .bind (scales_drop _) fun _ => scales_push _
  · exact .bind (scales_top _) fun _ => .bind (.attempt _) fun _ =>
      .bind (scales_drop _) fun _ => scales_push _
  · exact scales_binary _ fun _ _ => scales_pushAttempt _
  · exact scales_call _
  · exact .bind scales_pop fun _ => scales_leave _
  · exact scales_leave _
  · exact scales_close _ _
  · exact .crash

end Exec

/-! ### Steps -/

namespace Machine

open Exec

variable {m m' : Machine} {k j l n : Nat} {b : UInt8}

theorem scales_perform [Casing] (code : Code) (offset : Nat) : (perform code offset).Scales := by
  unfold perform
  split
  · exact .bind (scales_jumpTo _) fun _ => scales_exec _
  · exact .raise _
  · exact .crash
  · exact .crash

theorem noted_widen (m : Machine) (offset : Nat) (b : UInt8) (k j l : Nat) :
    (m.widen k j l).noted offset b = (m.noted offset b).widen k j l := by
  unfold noted
  change (if m.tracing then _ else _) = _
  split <;> rfl

/-- A step is the same with more room, as long as the other limit allows for it. -/
theorem step_matches [Casing] (hl : l = 0 ∨ m.stats.instructions + 1 ≤ l) :
    Matches step step m k j l := by
  cases hb : m.frame.fn.code[m.frame.next]? with
  | none =>
    rw [Matches, step_byte, hb]
    trivial
  | some b =>
    by_cases hover : m.Exhausted
    · have hstep := (step_counted hb).trans (if_pos hover)
      exact .resource hstep trivial
    · have hover' : ¬(m.widen k j l).Exhausted := by
        change ¬(0 < l ∧ l < m.stats.instructions + 1)
        omega
      have hscales := scales_perform m.frame.fn.code m.frame.next
        ((m.advance (m.frame.next + 1)).noted m.frame.next b) k j l
      rw [Matches, ← noted_widen] at hscales
      rw [Matches, step_counted hb, if_neg hover, step_counted (m := m.widen k j l) hb,
        if_neg hover']
      exact hscales

/-- So many instructions were executed between the machines, and noted if they are tracing. -/
structure Logs (n : Nat) (m m' : Machine) : Prop where
  instructions : m'.stats.instructions = m.stats.instructions + n
  tracing : m'.tracing = m.tracing
  trace : ∃ events, m'.trace = events ++ m.trace ∧ events.length = if m.tracing then n else 0

theorem Logs.refl (m : Machine) : m.Logs 0 m := ⟨rfl, rfl, [], rfl, by simp⟩

theorem Logs.trans {m₁ m₂ m₃ : Machine} {n₁ n₂ : Nat} (h₁ : m₁.Logs n₁ m₂) (h₂ : m₂.Logs n₂ m₃) :
    m₁.Logs (n₁ + n₂) m₃ := by
  obtain ⟨events₁, htrace₁, hlength₁⟩ := h₁.trace
  obtain ⟨events₂, htrace₂, hlength₂⟩ := h₂.trace
  refine ⟨?_, h₂.tracing.trans h₁.tracing, events₂ ++ events₁, ?_, ?_⟩
  · rw [h₂.instructions, h₁.instructions, Nat.add_assoc]
  · rw [htrace₂, htrace₁, List.append_assoc]
  · rw [h₁.tracing] at hlength₂
    rw [List.length_append, hlength₁, hlength₂]
    split <;> omega

theorem exists_byte (h : m.running = true) : ∃ b, m.frame.fn.code[m.frame.next]? = some b :=
  ⟨_, Array.getElem?_eq_getElem (of_decide_eq_true h)⟩

/-- The instruction that is one too many is counted but not noted. -/
theorem step_exhausted [Casing] (hrunning : m.running = true) (hover : m.Exhausted) :
    ∃ e, step m = .error (.fault e) (m.advance (m.frame.next + 1)) ∧
      e.fault = .instructionLimit m.limit := by
  obtain ⟨b, hb⟩ := exists_byte hrunning
  exact ⟨_, (step_counted hb).trans (if_pos hover), rfl⟩

theorem step_logs [Casing] (hrunning : m.running = true) (hover : ¬m.Exhausted) :
    m.Logs 1 (left (step m)) := by
  obtain ⟨b, hb⟩ := exists_byte hrunning
  have hretains := step_retains hb hover
  have hnoted : m.Logs 1 ((m.advance (m.frame.next + 1)).noted m.frame.next b) := by
    unfold noted
    change m.Logs 1 (if m.tracing then _ else _)
    split
    · next htracing => exact ⟨rfl, rfl, [_], rfl, by simp [htracing]⟩
    · next htracing => exact ⟨rfl, rfl, [], rfl, by simp [htracing]⟩
  obtain ⟨events, htrace, hlength⟩ := hnoted.trace
  exact ⟨hretains.instructions.trans hnoted.instructions,
    hretains.tracing.trans hnoted.tracing, events, hretains.trace.trans htrace, hlength⟩

theorem logs_of_ok [Casing] (hrunning : m.running = true) (hstep : step m = .ok () m') :
    m.Logs 1 m' := by
  have hover : ¬m.Exhausted := by
    intro hover
    obtain ⟨e, hfault, -⟩ := step_exhausted hrunning hover
    rw [hstep] at hfault
    cases hfault
  have hlogs := step_logs hrunning hover
  rwa [hstep] at hlogs

theorem logs_of_fault [Casing] {e : RuntimeError} (hrunning : m.running = true)
    (hstep : step m = .error (.fault e) m') (he : ¬e.fault.Resource) : m.Logs 1 m' := by
  have hover : ¬m.Exhausted := by
    intro hover
    obtain ⟨e', hfault, hlimit⟩ := step_exhausted hrunning hover
    rw [hstep] at hfault
    cases hfault
    rw [hlimit] at he
    exact he trivial
  have hlogs := step_logs hrunning hover
  rwa [hstep] at hlogs

/-! ### Runs -/

/-- The ending is not for want of room or time, and it is not a crash. -/
def Ending.Proper : Ending → Prop
  | .finished => True
  | .stopped (.fault e) => ¬e.fault.Resource
  | .stopped .crash | .unfinished => False

/-- The run executes `n` instructions and ends. -/
inductive EndsAfter [Casing] : Nat → Machine → Ending → Machine → Prop
  | finish {m : Machine} (hrunning : ¬m.running = true) : EndsAfter 0 m .finished m
  | stop {m m' : Machine} {s : Stop} (hrunning : m.running = true) (hstep : step m = .error s m') :
    EndsAfter 1 m (.stopped s) m'
  | step {n : Nat} {m m' m'' : Machine} {ending : Ending} (hrunning : m.running = true)
    (hstep : step m = .ok () m') (hruns : EndsAfter n m' ending m'') :
    EndsAfter (n + 1) m ending m''

variable {ending : Ending} {fuel : Nat}

theorem endsAfter_of_runFor [Casing] (h : runFor fuel m = (ending, m'))
    (hends : ending ≠ .unfinished) :
    ∃ n ≤ fuel, EndsAfter n m ending m' := by
  induction fuel generalizing m with
  | zero =>
    rw [runFor] at h
    obtain ⟨rfl, rfl⟩ := Prod.mk.inj h
    by_cases hrunning : m.running = true
    · exact absurd (if_pos hrunning) hends
    · rw [if_neg hrunning]
      exact ⟨0, Nat.le_refl 0, .finish hrunning⟩
  | succ fuel ih =>
    rw [runFor] at h
    by_cases hrunning : m.running = true
    · rw [if_pos hrunning] at h
      cases hstep : Machine.step m with
      | ok u m₁ =>
        rw [hstep] at h
        obtain ⟨n, hn, hruns⟩ := ih h
        exact ⟨n + 1, Nat.succ_le_succ hn, .step hrunning hstep hruns⟩
      | error s m₁ =>
        rw [hstep] at h
        obtain ⟨rfl, rfl⟩ := Prod.mk.inj h
        exact ⟨1, Nat.succ_le_succ (Nat.zero_le _), .stop hrunning hstep⟩
    · rw [if_neg hrunning] at h
      obtain ⟨rfl, rfl⟩ := Prod.mk.inj h
      exact ⟨0, Nat.zero_le _, .finish hrunning⟩

theorem EndsAfter.runFor_eq [Casing] (h : EndsAfter n m ending m') (hfuel : n ≤ fuel) :
    runFor fuel m = (ending, m') := by
  induction h generalizing fuel with
  | finish hrunning => exact runFor_of_not_running hrunning fuel
  | stop hrunning hstep =>
    obtain ⟨fuel, rfl⟩ := Nat.exists_eq_add_of_le' hfuel
    rw [runFor, if_pos hrunning, hstep]
  | step hrunning hstep _ ih =>
    obtain ⟨fuel, rfl⟩ := Nat.exists_eq_add_of_le' (Nat.le_trans (Nat.le_add_left 1 _) hfuel)
    rw [runFor, if_pos hrunning, hstep]
    exact ih (Nat.le_of_succ_le_succ hfuel)

theorem EndsAfter.dispatch_iff [Casing] (h : EndsAfter n m ending m') (i : Nat) :
    m.dispatch i ≠ none ↔ i < n := by
  induction h generalizing i with
  | finish hrunning => simp [dispatch_of_not_running hrunning]
  | stop hrunning hstep =>
    cases i with
    | zero => simp [dispatch, hrunning]
    | succ i => simp [dispatch_of_error hstep]
  | step hrunning hstep _ ih =>
    cases i with
    | zero => simp [dispatch, hrunning]
    | succ i => rw [dispatch_of_ok hrunning hstep, ih, Nat.succ_lt_succ_iff]

theorem EndsAfter.logs [Casing] (h : EndsAfter n m ending m') (hproper : ending.Proper) :
    m.Logs n m' := by
  induction h with
  | finish => exact .refl _
  | @stop m m' s hrunning hstep =>
    cases s with
    | crash => exact hproper.elim
    | fault e => exact logs_of_fault hrunning hstep hproper
  | step hrunning hstep _ ih =>
    rw [Nat.add_comm]
    exact (logs_of_ok hrunning hstep).trans (ih hproper)

/-- A run that does not end for want of room has the same course with more of it, if the other
limit allows for all its instructions. -/
theorem EndsAfter.widen [Casing] (h : EndsAfter n m ending m') (hproper : ending.Proper) (k j : Nat)
    (hl : l = 0 ∨ m.stats.instructions + n ≤ l) :
    EndsAfter n (m.widen k j l) ending (m'.widen k j l) := by
  induction h with
  | finish hrunning => exact .finish hrunning
  | @stop m m' s hrunning hstep =>
    have hmatches : Matches Machine.step Machine.step m k j l := step_matches hl
    rw [Matches, hstep] at hmatches
    cases s with
    | crash => exact hproper.elim
    | fault e => exact .stop hrunning (hmatches.resolve_left hproper)
  | @step n m m₁ m' ending hrunning hstep _ ih =>
    have hmatches : Matches Machine.step Machine.step m k j l := step_matches (by omega)
    rw [Matches, hstep] at hmatches
    refine .step hrunning hmatches (ih hproper ?_)
    rw [(logs_of_ok hrunning hstep).instructions]
    omega

/-- Otherwise the run is cut off at the limit: the instructions up to there are executed and
noted. -/
theorem EndsAfter.exhausted [Casing] (h : EndsAfter n m ending m') (hproper : ending.Proper)
    (k j : Nat) {d : Nat} (hd : d < n) (hl : l = m.stats.instructions + d) (hpos : 0 < l) :
    ∃ e m'', EndsAfter (d + 1) (m.widen k j l) (.stopped (.fault e)) m'' ∧
      e.fault = .instructionLimit l ∧ m''.stats.instructions = l + 1 ∧
      ∃ events, m'.trace = events ++ m''.trace ∧
        events.length = if m.tracing then n - d else 0 := by
  induction d generalizing n m with
  | zero =>
    obtain ⟨events, htrace, hlength⟩ := (h.logs hproper).trace
    -- The smaller machine executes another instruction here, the larger one has used up its limit.
    have hrunning : m.running = true := by
      cases h with
      | finish => exact absurd hd (Nat.lt_irrefl _)
      | stop hrunning => exact hrunning
      | step hrunning => exact hrunning
    have hover : (m.widen k j l).Exhausted := ⟨hpos, by
      change l < m.stats.instructions + 1
      omega⟩
    obtain ⟨e, hstep, he⟩ := step_exhausted (m := m.widen k j l) hrunning hover
    refine ⟨e, _, .stop hrunning hstep, he, ?_, events, htrace, hlength⟩
    rw [hl]
    rfl
  | succ d ih =>
    cases h with
    | finish => exact absurd hd (Nat.not_lt_zero _)
    | stop => omega
    | @step n _ m₁ _ _ hrunning hstep hruns =>
      have hmatches : Matches Machine.step Machine.step m k j l := step_matches (by omega)
      rw [Matches, hstep] at hmatches
      have hlogs := logs_of_ok hrunning hstep
      obtain ⟨e, m'', hruns', he, hcount, events, htrace, hlength⟩ :=
        ih hruns (by omega) (by rw [hlogs.instructions, hl]; omega)
      refine ⟨e, m'', .step hrunning hmatches hruns', he, hcount, events, htrace, ?_⟩
      rw [hlength, hlogs.tracing, Nat.succ_sub_succ]

/-- What can be told of a machine after its run is the same. -/
structure Indistinct (m m' : Machine) : Prop where
  lastPopped : m'.lastPopped = m.lastPopped
  stackTop : m'.stackTop = m.stackTop
  output : m'.output = m.output
  trace : m'.trace = m.trace
  globals : m'.globals = m.globals
  stats : m'.stats = m.stats

theorem indistinct_widen (m : Machine) (k j l : Nat) : m.Indistinct (m.widen k j l) :=
  ⟨m.lastPopped_widen k j l, m.stackTop_widen k j l, rfl, rfl, rfl, rfl⟩

/-- A machine that is loaded with more room. -/
theorem load_widen {sizes sizes' : Sizes} (hstack : sizes.stack ≤ sizes'.stack)
    (hframes : sizes.frames ≤ sizes'.frames) (globals : Array Value) (code : Code)
    (constants : Array Value) (fresh : Nat) (tracing : Bool) :
    load sizes' globals code constants fresh tracing =
      (load sizes globals code constants fresh tracing).widen
        (sizes'.stack - sizes.stack) (sizes'.frames - sizes.frames) sizes'.limit := by
  simp only [load, widen, Array.replicate_append_replicate]
  rw [Nat.add_sub_cancel' hstack, Nat.add_sub_cancel' hframes]

/-- Limits only cut runs short. A run that ends otherwise, after some number of instructions, ends
in the same way with more room, if the limit allows for these instructions; else it executes as
many of them as the limit says. -/
theorem run_capacity [Casing] {sizes : Sizes} {globals constants : Array Value} {code : Code}
    {tracing : Bool} {fresh fuel : Nat} {ending : Ending} {m : Machine}
    (hrun : run fuel (load sizes globals code constants fresh tracing) = (ending, m))
    (hproper : ending.Proper) :
    ∃ n, (∀ i, (load sizes globals code constants fresh tracing).dispatch i ≠ none ↔ i < n) ∧
      m.stats.instructions = n ∧ m.trace.length = (if tracing then n else 0) ∧
      ∀ sizes' : Sizes, sizes.stack ≤ sizes'.stack → sizes.frames ≤ sizes'.frames →
        (sizes'.limit = 0 ∨ n ≤ sizes'.limit →
          ∃ m', run fuel (load sizes' globals code constants fresh tracing) = (ending, m') ∧
            m.Indistinct m') ∧
        (0 < sizes'.limit → sizes'.limit < n →
          ∃ e m', run fuel (load sizes' globals code constants fresh tracing) =
              (.stopped (.fault e), m') ∧
            e.fault = .instructionLimit sizes'.limit ∧
            m'.trace.reverse = m.trace.reverse.take sizes'.limit ∧
            m'.stats.instructions = sizes'.limit + 1) := by
  have hends : ending ≠ .unfinished := by
    rintro rfl
    exact hproper
  obtain ⟨n, hfuel, hruns⟩ := endsAfter_of_runFor hrun hends
  have hlogs := hruns.logs hproper
  obtain ⟨events, htrace, hlength⟩ := hlogs.trace
  have hcount : m.stats.instructions = n := hlogs.instructions.trans (Nat.zero_add n)
  have hlines : m.trace.length = if tracing then n else 0 := by
    rw [htrace, List.length_append, hlength]
    rfl
  refine ⟨n, hruns.dispatch_iff, hcount, hlines, fun sizes' hstack hframes => ?_⟩
  rw [load_widen hstack hframes]
  constructor
  · intro hlimit
    have hwiden := hruns.widen hproper (sizes'.stack - sizes.stack) (sizes'.frames - sizes.frames)
      (l := sizes'.limit) (hlimit.imp_right (Nat.le_trans (Nat.le_of_eq (Nat.zero_add n))))
    exact ⟨_, hwiden.runFor_eq hfuel, m.indistinct_widen _ _ _⟩
  · intro hpos hlt
    obtain ⟨e, m', hruns', he, hcount', events', htrace', hlength'⟩ := hruns.exhausted hproper
      (sizes'.stack - sizes.stack) (sizes'.frames - sizes.frames) hlt
      (Nat.zero_add sizes'.limit).symm hpos
    refine ⟨e, m', hruns'.runFor_eq (Nat.le_trans hlt hfuel), he, ?_, hcount'⟩
    change events'.length = if tracing then n - sizes'.limit else 0 at hlength'
    rw [htrace', List.length_append, hlength'] at hlines
    rw [htrace', List.reverse_append]
    cases tracing with
    | true =>
      have hkept : m'.trace.reverse.length = sizes'.limit := by
        rw [List.length_reverse]
        simp only [if_true] at hlines
        omega
      rw [List.take_left' hkept]
    | false =>
      have hnone : m'.trace = [] := by simpa using hlines
      have hnone' : events' = [] := by simpa using hlength'
      simp [hnone, hnone']

/-- Three instructions, of which the last one fails, with three and with two allowed. -/
theorem run_capacity_fault :
    let code : Code := #[Opcode.true.toByte, Opcode.false.toByte, Opcode.add.toByte]
    (run 5 (load ⟨7, 3, 3⟩ #[] code #[] 0 true)).1 =
        (run 5 (load ⟨2, 1, 0⟩ #[] code #[] 0 true)).1 ∧
      ∃ e m', run 5 (load ⟨7, 3, 2⟩ #[] code #[] 0 true) = (.stopped (.fault e), m') ∧
        e.fault = .instructionLimit 2 ∧ m'.stats.instructions = 3 := by
  intro code
  obtain ⟨e, m, hrun, hfault, hcount⟩ : ∃ e m, run 5 (load ⟨2, 1, 0⟩ #[] code #[] 0 true) =
      (.stopped (.fault e), m) ∧ e.fault = .binaryTypes "BOOLEAN" "BOOLEAN" ∧
        m.stats.instructions = 3 := ⟨_, _, rfl, rfl, rfl⟩
  have hproper : (Ending.stopped (.fault e)).Proper := by
    rw [Ending.Proper, hfault]
    exact id
  obtain ⟨n, -, hn, -, hlimits⟩ := run_capacity hrun hproper
  obtain rfl : 3 = n := hcount.symm.trans hn
  obtain ⟨m', hsame, -⟩ := (hlimits ⟨7, 3, 3⟩ (by decide) (by decide)).1 (.inr (by decide))
  obtain ⟨e', m'', hcut, he, -, hcount'⟩ :=
    (hlimits ⟨7, 3, 2⟩ (by decide) (by decide)).2 (by decide) (by decide)
  exact ⟨by rw [hsame, hrun], e', m'', hcut, he, hcount'⟩

end Machine

end StackScript
