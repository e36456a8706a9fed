import StackScript.Proofs.Machine.Capacity
import StackScript.Proofs.Machine.Completion
import StackScript.Proofs.Machine.Report

/-!
# What the stack held before

A machine may be loaded with a stack that holds values already. They are above
its top, and no instruction of compiled code reads them: locals are cleared when
a function is entered, and all other values are read below the top. So machines
that differ in such values only take the same course. After the last instruction
the value popped last is the same, too, since a value has been pushed to the
slot that it is read from.

## Main definitions

* `Machine.restack`: the machine with another stack.
* `Machine.reach`: the slots that have been in use.
* `SameBelow`: stacks with the same contents below a height.
* `Exec.Repeats`, `Exec.Blind`: computations that do the same on another stack.

## Main results

* `Machine.Ok.repeats_step`: steps do the same on another stack.
* `Machine.Ok.repeats_runFor`: so do runs.
* `Machine.Launched.lastPopped_restack`: the value popped last is the same in the end.
-/

namespace StackScript

/-- The stacks have one size, and the same contents below a height. -/
structure SameBelow (n : Nat) (s t : Array Value) : Prop where
  size : t.size = s.size
  getElem? : ∀ i < n, t[i]? = s[i]?

namespace SameBelow

variable {n k : Nat} {s t : Array Value}

theorem mono (h : SameBelow n s t) (hk : k ≤ n) : SameBelow k s t :=
  ⟨h.size, fun i hi => h.getElem? i (Nat.lt_of_lt_of_le hi hk)⟩

/-- A slot that is set is the same, too. -/
theorem set (h : SameBelow n s t) {i : Nat} (v : Value) (hk : ∀ j < k, j < n ∨ j = i) :
    SameBelow k (s.setIfInBounds i v) (t.setIfInBounds i v) := by
  refine ⟨by simp [h.size], fun j hj => ?_⟩
  rw [Array.getElem?_setIfInBounds, Array.getElem?_setIfInBounds, h.size]
  by_cases hij : i = j
  · rw [if_pos hij, if_pos hij]
  · rw [if_neg hij, if_neg hij]
    exact h.getElem? j ((hk j hj).resolve_right fun hji => hij hji.symm)

theorem clear (h : SameBelow n s t) {i : Nat} (hi : i ≤ n) (l : Nat) :
    SameBelow (max n (i + l)) (Exec.clear s i l) (Exec.clear t i l) := by
  induction l generalizing n s t i with
  | zero =>
    rw [Nat.add_zero, Nat.max_eq_left hi]
    exact h
  | succ l ih =>
    have hset : SameBelow (max n (i + 1)) (s.setIfInBounds i .null) (t.setIfInBounds i .null) :=
      h.set .null fun j hj => by omega
    exact (ih hset (Nat.le_max_right _ _)).mono (by omega)

theorem extract (h : SameBelow n s t) {i j : Nat} (hj : j ≤ n) : t.extract i j = s.extract i j := by
  apply Array.ext_getElem?
  intro k
  rw [Array.getElem?_extract, Array.getElem?_extract, h.size]
  split
  · exact h.getElem? _ (by omega)
  · rfl

end SameBelow

namespace Machine

/-- The machine with another stack. -/
def restack (m : Machine) (stack : Array Value) : Machine := { m with stack := stack }

/-- How many slots have been in use, as far as the machine tells: up to the greatest height that a
push has reached, or up to the height now. -/
def reach (m : Machine) : Nat := max m.stats.maxStack m.sp

@[simp] theorem sp_restack (m : Machine) (stack : Array Value) : (m.restack stack).sp = m.sp := rfl

theorem sp_le_reach (m : Machine) : m.sp ≤ m.reach := Nat.le_max_right _ _

end Machine

namespace Exec

variable {α β : Type} {x y : Exec α} {m : Machine} {stack : Array Value} {n : Nat}

/-- On another stack the second computation ends like the first, unless that ends in a crash. The
stacks are the same below `n`, and below what is in use then. -/
def Repeats (x y : Exec α) (m : Machine) (stack : Array Value) (n : Nat) : Prop :=
  match x m with
  | .ok a m' =>
    ∃ stack', y (m.restack stack) = .ok a (m'.restack stack') ∧
      SameBelow (max n m'.reach) m'.stack stack'
  | .error (.fault e) m' => ∃ stack', y (m.restack stack) = .error (.fault e) (m'.restack stack')
  | .error .crash _ => True

/-- The computation does not look at slots that have not been in use. -/
def Blind (x : Exec α) : Prop :=
  ∀ m stack n, m.reach ≤ n → SameBelow n m.stack stack → Repeats x x m stack n

theorem Repeats.bind {f g : α → Exec β} (hx : Repeats x y m stack n)
    (hf : ∀ a m' stack', x m = .ok a m' → SameBelow (max n m'.reach) m'.stack stack' →
      Repeats (f a) (g a) m' stack' (max n m'.reach)) :
    Repeats (x >>= f) (y >>= g) m stack n := by
  unfold Repeats at hx ⊢
  simp only [Bind.bind, EStateM.bind]
  cases h : x m with
  | ok a m' =>
    rw [h] at hx
    obtain ⟨stack', hy, hsame⟩ := hx
    have hrest := hf a m' stack' h hsame
    simp only [hy]
    rw [Repeats] at hrest
    split at hrest
    · obtain ⟨stack'', hg, hsame'⟩ := hrest
      exact ⟨stack'', hg, hsame'.mono (by omega)⟩
    · exact hrest
    · trivial
  | error stop m' =>
    rw [h] at hx
    cases stop with
    | crash => trivial
    | fault e =>
      obtain ⟨stack', hy⟩ := hx
      exact ⟨stack', by simp only [hy]⟩

theorem Blind.bind {f : α → Exec β} (hx : x.Blind) (hf : ∀ a, (f a).Blind) : (x >>= f).Blind :=
  fun m stack n hn hsame => (hx m stack n hn hsame).bind fun a m' stack' _ hsame' =>
    hf a m' stack' _ (Nat.le_max_right _ _) hsame'

/-- Each machine looks at itself. -/
theorem Repeats.get {f g : Machine → Exec β} (h : Repeats (f m) (g (m.restack stack)) m stack n) :
    Repeats (MonadState.get >>= f) (MonadState.get >>= g) m stack n :=
  h

/-- Looking at a part of the machine other than its stack. -/
theorem Blind.look {γ : Type} {f : Machine → γ} {g : γ → Exec α}
    (hf : ∀ m stack, f (m.restack stack) = f m) (hg : ∀ c, (g c).Blind) :
    (MonadState.get >>= fun m => g (f m) : Exec α).Blind := by
  intro m stack n hn hsame
  refine .get ?_
  rw [hf]
  exact hg _ m stack n hn hsame

theorem Blind.ite {p : Prop} [Decidable p] (hx : x.Blind) (hy : y.Blind) :
    (if p then x else y).Blind := by
  split
  · exact hx
  · exact hy

theorem Blind.pure (a : α) : (Pure.pure a : Exec α).Blind := by
  intro m stack n hn hsame
  exact ⟨stack, rfl, hsame.mono (Nat.max_le.2 ⟨Nat.le_refl n, hn⟩)⟩

theorem Repeats.modify {f g : Machine → Machine} (stack' : Array Value)
    (h : g (m.restack stack) = (f m).restack stack')
    (hsame : SameBelow (max n (f m).reach) (f m).stack stack') :
    Repeats (modify f : Exec Unit) (modify g) m stack n := by
  refine ⟨stack', ?_, hsame⟩
  rw [← h]
  rfl

/-- A change to the machine that leaves its stack alone. -/
theorem Blind.modify {f : Machine → Machine}
    (h : ∀ m stack, f (m.restack stack) = (f m).restack stack) (hstack : ∀ m, (f m).stack = m.stack)
    (hreach : ∀ m, (f m).reach ≤ m.reach) : (modify f : Exec Unit).Blind := by
  intro m stack n hn hsame
  refine .modify stack (h m stack) ?_
  rw [hstack]
  exact hsame.mono (Nat.max_le.2 ⟨Nat.le_refl n, Nat.le_trans (hreach m) hn⟩)

theorem Repeats.crash : Repeats crash y m stack n := trivial

theorem Blind.crash : (crash : Exec α).Blind := fun _ _ _ _ _ => trivial

theorem Blind.raise (fault : Fault) : (raise fault : Exec α).Blind :=
  fun _ stack _ _ _ => ⟨stack, rfl⟩

theorem Blind.attempt (r : Except Fault α) : (attempt r).Blind := by
  cases r with
  | ok a => exact .pure a
  | error fault => exact .raise fault

/-! ### The parts of instructions -/

theorem blind_push (v : Value) : (push v).Blind := by
  intro m stack n hn hsame
  refine .get (.get ?_)
  have hsize : (m.restack stack).stack.size = m.stack.size := hsame.size
  rw [hsize, Machine.sp_restack]
  by_cases hroom : m.sp < m.stack.size
  · rw [if_pos hroom]
    refine .modify (stack.setIfInBounds m.sp v) rfl (hsame.set v fun j hj => ?_)
    simp only [Machine.reach] at hn hj
    omega
  · rw [if_neg hroom]
    exact Blind.raise _ m stack n hn hsame

theorem blind_drop (k : Nat) : (drop k).Blind := by
  refine .modify (fun _ _ => rfl) (fun _ => rfl) fun m => ?_
  simp only [Machine.reach]
  omega

theorem blind_jumpTo (offset : Nat) : (jumpTo offset).Blind :=
  .modify (fun _ _ => rfl) (fun _ => rfl) fun _ => Nat.le_refl _

theorem blind_pop : pop.Blind := by
  intro m stack n hn hsame
  refine .get ?_
  by_cases hzero : m.sp = 0
  · rw [if_pos hzero]
    exact .crash
  rw [Machine.sp_restack, if_neg hzero, if_neg hzero]
  have hle := m.sp_le_reach
  have htop : (m.restack stack).stack[m.sp - 1]? = m.stack[m.sp - 1]? :=
    hsame.getElem? (m.sp - 1) (by omega)
  rw [htop]
  cases m.stack[m.sp - 1]? with
  | none => exact .crash
  | some v => exact Blind.bind (blind_drop 1) (fun _ => .pure v) m stack n hn hsame

theorem blind_top (k : Nat) : (top k).Blind := by
  intro m stack n hn hsame
  refine .get ?_
  have hsize : (m.restack stack).stack.size = m.stack.size := hsame.size
  have htop : (m.restack stack).stack.extract ((m.restack stack).sp - k) (m.restack stack).sp =
      m.stack.extract (m.sp - k) m.sp := hsame.extract (Nat.le_trans m.sp_le_reach hn)
  rw [hsize, htop, Machine.sp_restack]
  by_cases hk : k ≤ m.sp ∧ m.sp ≤ m.stack.size
  · rw [if_pos hk]
    exact Blind.pure _ m stack n hn hsame
  · rw [if_neg hk]
    exact .crash

/-- The locals that are no arguments are cleared. -/
theorem repeats_enter (id : Nat) (fn : Function) (free : List Value) {k : Nat} (hk : k ≤ m.sp)
    (hn : m.reach ≤ n) (hsame : SameBelow n m.stack stack) :
    Repeats (enter id fn free k) (enter id fn free k) m stack n := by
  have hraise (fault : Fault) (f : Unit → Exec Unit) :
      Repeats (raise fault >>= f) (raise fault >>= f) m stack n := ⟨stack, rfl⟩
  unfold enter
  dsimp only
  by_cases hparams : k ≠ fn.params
  · rw [if_pos hparams]
    exact hraise _ _
  rw [if_neg hparams]
  refine .get ?_
  have hsize : (m.restack stack).stack.size = m.stack.size := hsame.size
  have hframes : (m.restack stack).maxFrames = m.maxFrames := rfl
  have hcallers : (m.restack stack).callers = m.callers := rfl
  rw [hsize, hframes, hcallers, Machine.sp_restack]
  by_cases hdeep : m.maxFrames ≤ m.callers.size + 1
  · rw [if_pos hdeep]
    exact hraise _ _
  rw [if_neg hdeep]
  by_cases hfull : m.stack.size < m.sp - k + fn.locals
  · rw [if_pos hfull]
    exact hraise _ _
  rw [if_neg hfull]
  refine .modify (clear stack (m.sp - k + k) (fn.locals - k)) rfl ?_
  have hle := m.sp_le_reach
  refine (hsame.clear (by omega) _).mono ?_
  simp only [Machine.reach] at hn ⊢
  omega

theorem blind_call [Casing] (k : Nat) : (call k).Blind := by
  intro m stack n hn hsame
  refine .get ?_
  rw [Machine.sp_restack]
  by_cases hshort : m.sp < k + 1
  · rw [if_pos hshort]
    exact .crash
  rw [if_neg hshort, if_neg hshort]
  have hle := m.sp_le_reach
  have hcallee : (m.restack stack).stack[m.sp - 1 - k]? = m.stack[m.sp - 1 - k]? :=
    hsame.getElem? _ (by omega)
  rw [hcallee]
  cases m.stack[m.sp - 1 - k]? with
  | none => exact .crash
  | some callee =>
    cases callee with
    | closure id fn free =>
      cases fn with
      | none => exact .crash
      | some fn => exact repeats_enter id fn free (by omega) hn hsame
    | noClosure => exact .crash
    | builtin b =>
      cases b with
      | known b =>
        refine Blind.bind (blind_top k) (fun args => .bind ?_ fun _ => blind_push _) m stack n hn
          hsame
        refine .modify (fun _ _ => rfl) (fun _ => rfl) fun m => ?_
        simp only [Machine.reach]
        omega
      | _ => exact Blind.raise _ m stack n hn hsame
    | _ => exact Blind.raise _ m stack n hn hsame

/-- A return goes down to where the function stood. -/
theorem repeats_leave (v : Value) (hn : m.reach ≤ n) (hsame : SameBelow n m.stack stack)
    (hbase : m.frame.base ≤ n) : Repeats (leave v) (leave v) m stack n := by
  refine .get ?_
  have hcallers : (m.restack stack).callers = m.callers := rfl
  rw [hcallers]
  cases m.callers.back? with
  | none =>
    exact Blind.bind (blind_push v) (fun _ => .bind (blind_drop 1) fun _ => blind_jumpTo _)
      m stack n hn hsame
  | some caller =>
    refine .bind (.modify stack rfl ?_) fun _ m' stack' _ hsame' =>
      blind_push v m' stack' _ (Nat.le_max_right _ _) hsame'
    refine hsame.mono (Nat.max_le.2 ⟨Nat.le_refl n, ?_⟩)
    simp only [Machine.reach] at hn ⊢
    omega

theorem blind_close (number k : Nat) : (close number k).Blind := by
  have hfresh :
      (modifyGet fun m => (m.fresh, { m with fresh := m.fresh + 1 }) : Exec Nat).Blind := by
    intro m stack n hn hsame
    exact ⟨stack, rfl, hsame.mono (Nat.max_le.2 ⟨Nat.le_refl n, hn⟩)⟩
  have hclosure (fn : Option Function) : (do
      let free ← top k
      drop k
      let id ← modifyGet fun m => (m.fresh, { m with fresh := m.fresh + 1 })
      push (.closure id fn free) : Exec Unit).Blind :=
    .bind (blind_top k) fun free => .bind (blind_drop k) fun _ =>
      .bind hfresh fun id => blind_push _
  intro m stack n hn hsame
  refine .get ?_
  have hconstants : (m.restack stack).constants = m.constants := rfl
  rw [hconstants]
  cases m.constants[number]? with
  | none => exact Blind.crash m stack n hn hsame
  | some c =>
    cases c with
    | function fn => exact hclosure fn m stack n hn hsame
    | _ => exact Blind.raise _ m stack n hn hsame

theorem blind_setLocal [Casing] (slot : Nat) : (exec ⟨.setLocal, [slot]⟩).Blind := by
  refine .bind blind_pop fun v => ?_
  intro m stack n hn hsame
  refine .get ?_
  have hsize : (m.restack stack).stack.size = m.stack.size := hsame.size
  have hframe : (m.restack stack).frame = m.frame := rfl
  rw [hsize, hframe]
  by_cases hroom : m.frame.base + slot < m.stack.size
  · rw [if_pos hroom]
    refine .modify (stack.setIfInBounds (m.frame.base + slot) v) rfl (hsame.set v fun j hj => ?_)
    exact .inl (Nat.lt_of_lt_of_le hj (Nat.max_le.2 ⟨Nat.le_refl n, hn⟩))
  · rw [if_neg hroom]
    exact .crash

/-- A local is read where it has been in use. -/
theorem repeats_getLocal [Casing] (slot : Nat) (hn : m.reach ≤ n)
    (hsame : SameBelow n m.stack stack) (hslot : m.frame.base + slot < n) :
    Repeats (exec ⟨.getLocal, [slot]⟩) (exec ⟨.getLocal, [slot]⟩) m stack n := by
  refine .get ?_
  have hvalue : (m.restack stack).stack[(m.restack stack).frame.base + slot]? =
      m.stack[m.frame.base + slot]? := hsame.getElem? _ hslot
  rw [hvalue]
  cases m.stack[m.frame.base + slot]? with
  | none => exact .crash
  | some v => exact blind_push v m stack n hn hsame

/-- Push a value that may not be there. -/
theorem blind_pushSome (v : Option Value) {x : Exec Unit} (hx : x.Blind) :
    (match v with
      | some v => push v
      | none => x).Blind := by
  cases v with
  | none => exact hx
  | some v => exact blind_push v

theorem blind_setGlobal [Casing] (slot : Nat) : (exec ⟨.setGlobal, [slot]⟩).Blind := by
  refine .look (f := fun m => m.globals.size)
    (g := fun size => if slot < size then do
        let v ← pop
        modify fun m => { m with globals := m.globals.setIfInBounds slot v }
      else raise (.globalRange slot size)) (fun _ _ => rfl) fun size => ?_
  exact .ite (.bind blind_pop fun v =>
    .modify (fun _ _ => rfl) (fun _ => rfl) fun _ => Nat.le_refl _) (.raise _)

theorem blind_getGlobal [Casing] (slot : Nat) : (exec ⟨.getGlobal, [slot]⟩).Blind :=
  .look (f := fun m => (m.globals[slot]?, m.globals.size))
    (g := fun c => match c.1 with
      | some v => push v
      | none => raise (.globalRange slot c.2)) (fun _ _ => rfl) fun c =>
    blind_pushSome c.1 (.raise _)

/-- Push what was computed. -/
theorem blind_pushAttempt (r : Except Fault Value) : (attempt r >>= push).Blind :=
  .bind (.attempt r) blind_push

/-- An operator with two operands. -/
theorem blind_binary (f : Value → Value → Exec Unit) (hf : ∀ a b, (f a b).Blind) :
    (do let right ← pop; let left ← pop; f left right).Blind :=
  .bind blind_pop fun _ => .bind blind_pop fun _ => hf _ _

/-- Instructions do the same on another stack, if the locals of the function have been in use. -/
theorem repeats_exec [Casing] (i : Instr) (hn : m.reach ≤ n) (hsame : SameBelow n m.stack stack)
    (hbase : m.frame.base ≤ n)
    (hlocal : ∀ slot, i = ⟨.getLocal, [slot]⟩ → m.frame.base + slot < n) :
    Repeats (exec i) (exec i) m stack n := by
  have hblind {α : Type} (x : Exec α) (hx : x.Blind) : Repeats x x m stack n :=
    hx m stack n hn hsame
  obtain ⟨op, operands⟩ := i
  unfold exec
  split
  · next number _ _ =>
    exact hblind _ (.look (f := fun m => m.constants[number]?)
      (g := fun
        | some v => push v
        | none => crash) (fun _ _ => rfl) fun v => blind_pushSome v .crash)
  · exact hblind _ (blind_push _)
  · exact hblind _ (blind_push _)
  · exact hblind _ (blind_push _)
  · exact hblind _ (.bind blind_pop fun _ => .pure _)
  · exact hblind _ (blind_binary _ fun _ _ => blind_pushAttempt _)
  · exact hblind _ (blind_binary _ fun _ _ => blind_pushAttempt _)
  · exact hblind _ (blind_binary _ fun _ _ => blind_pushAttempt _)
  · exact hblind _ (blind_binary _ fun _ _ => blind_pushAttempt _)
  · exact hblind _ (blind_binary _ fun _ _ => blind_push _)
  · exact hblind _ (blind_binary _ fun _ _ => blind_push _)
  · exact hblind _ (blind_binary _ fun _ _ => blind_pushAttempt _)
  · exact hblind _ (.bind blind_pop fun _ => blind_push _)
  · exact hblind _ (.bind blind_pop fun _ => blind_pushAttempt _)
  · exact hblind _ (blind_jumpTo _)
  · exact hblind _ (.bind blind_pop fun _ => .ite (.pure _) (blind_jumpTo _))
  · exact hblind _ (blind_setGlobal _)
  · exact hblind _ (blind_getGlobal _)
  · exact hblind _ (blind_setLocal _)
  · next slot hop hoperands =>
    obtain rfl : op = _ := hop
    obtain rfl : operands = _ := hoperands
    exact repeats_getLocal slot hn hsame (hlocal slot rfl)
  · split
    · exact hblind _ (blind_push _)
    · exact hblind _ (.raise _)
  · next number _ _ =>
    exact hblind _ (.look (f := fun m => m.frame.free[number]?)
      (g := fun
        | some v => push v
        | none => crash) (fun _ _ => rfl) fun v => blind_pushSome v .crash)
  · exact hblind _ (.look (f := fun m => m.frame)
      (g := fun f => push (.closure f.id (some f.fn) f.free)) (fun _ _ => rfl)
      fun _ => blind_push _)
  · exact hblind _ (.bind (blind_top _) fun _ => .bind (blind_drop _) fun _ => blind_push _)
  · exact hblind _ (.bind (blind_top _) fun _ => .bind (.attempt _) fun _ =>
      .bind (blind_drop _) fun _ => blind_push _)
  · exact hblind _ (blind_binary _ fun _ _ => blind_pushAttempt _)
  · exact hblind _ (blind_call _)
  · refine .bind (hblind _ blind_pop) fun v m' stack' hpop hsame' => ?_
    refine repeats_leave v (Nat.le_max_right _ _) hsame' ?_
    have hframe : m'.frame = m.frame := (List.cons.inj (Stays.pop.frames m v m' hpop)).1
    rw [hframe]
    exact Nat.le_trans hbase (Nat.le_max_left _ _)
  · exact repeats_leave _ hn hsame hbase
  · exact hblind _ (blind_close _ _)
  · exact .crash

end Exec

/-! ### Steps -/

namespace Machine

open Exec Instr

variable {P : Array Value} {G n : Nat} {m m' : Machine} {stack : Array Value} {is : List Instr}

theorem noted_restack (m : Machine) (offset : Nat) (b : UInt8) (stack : Array Value) :
    (m.restack stack).noted offset b = (m.noted offset b).restack stack := by
  unfold noted
  change (if m.tracing then _ else _) = _
  split <;> rfl

theorem noted_frame (m : Machine) (offset : Nat) (b : UInt8) :
    (m.noted offset b).frame = m.frame ∧ (m.noted offset b).stack = m.stack ∧
      (m.noted offset b).reach = m.reach := by
  unfold noted
  split <;> exact ⟨rfl, rfl, rfl⟩

/-- A step of a safe machine does the same on another stack. -/
theorem Ok.repeats_step [Casing] (h : m.Ok P G) (hpool : PoolOk P G) (hrunning : m.running = true)
    (hn : m.reach ≤ n) (hsame : SameBelow n m.stack stack) :
    Repeats Machine.step Machine.step m stack n := by
  obtain ⟨i, is, depth, inside, hready, hfetch, -⟩ := h.ready hpool hrunning
  obtain ⟨b, hb⟩ := exists_byte hrunning
  rw [Repeats, step_counted hb, step_counted (m := m.restack stack) hb]
  by_cases hover : m.Exhausted
  · rw [if_pos hover, if_pos (show (m.restack stack).Exhausted from hover)]
    exact ⟨stack, rfl⟩
  rw [if_neg hover, if_neg (show ¬(m.restack stack).Exhausted from hover)]
  have hlocals : m.frame.base + m.frame.fn.locals ≤ n := by
    have hheight := hready.position.2
    have hlength := h.fits.length_live
    have hle := m.sp_le_reach
    omega
  obtain ⟨hframe, hstack, hreach⟩ := noted_frame (m.advance (m.frame.next + 1)) m.frame.next b
  have hrepeats : Repeats (perform m.frame.fn.code m.frame.next)
      (perform m.frame.fn.code m.frame.next)
      ((m.advance (m.frame.next + 1)).noted m.frame.next b) stack n := by
    rw [perform, hfetch]
    refine .bind (blind_jumpTo _ _ stack n ?_ ?_) fun _ m' stack' hjump hsame' => ?_
    · rw [hreach]
      exact hn
    · rw [hstack]
      exact hsame
    · have hbase : m'.frame.base = m.frame.base := by
        cases hjump
        simp only [hframe]
        rfl
      refine repeats_exec i (Nat.le_max_right _ _) hsame' ?_ ?_
      · omega
      · rintro slot rfl
        cases hready.legal with
        | «local» _ hslot =>
          simp only at hslot
          omega
        | global hop | count hop | jump hop => simp at hop
  rw [Repeats, ← noted_restack] at hrepeats
  exact hrepeats

/-! ### Runs -/

/-- What is known when a run is finished: the stacks are the same below `n`, and no slot above has
been in use. -/
structure Covers [Casing] (n : Nat) (m m' : Machine) (stack : Array Value) : Prop where
  same : SameBelow n m'.stack stack
  reach : m'.reach ≤ n
  dispatch : ∀ k m₁, m.dispatch k = some m₁ → m₁.reach ≤ n

theorem covers_of_not_running [Casing] (hn : m.reach ≤ n) (hsame : SameBelow n m.stack stack)
    (hstopped : ¬m.running = true) : Covers n m m stack := by
  refine ⟨hsame, hn, fun k m₁ hk => ?_⟩
  rw [dispatch_of_not_running hstopped] at hk
  cases hk

/-- A run of a safe machine takes the same course on another stack. -/
theorem Ok.repeats_runFor [Casing] (h : m.Ok P G) (hpool : PoolOk P G) (hn : m.reach ≤ n)
    (hsame : SameBelow n m.stack stack) {fuel : Nat} {ending : Ending}
    (hrun : m.runFor fuel = (ending, m')) :
    ∃ stack', (m.restack stack).runFor fuel = (ending, m'.restack stack') ∧
      (ending = .finished → ∃ n' ≥ n, Covers n' m m' stack') := by
  induction fuel generalizing m stack n with
  | zero =>
    rw [Machine.runFor] at hrun
    obtain ⟨rfl, rfl⟩ := Prod.mk.inj hrun
    refine ⟨stack, rfl, fun hends => ⟨n, Nat.le_refl n, covers_of_not_running hn hsame ?_⟩⟩
    intro hrunning
    rw [if_pos hrunning] at hends
    cases hends
  | succ fuel ih =>
    by_cases hrunning : m.running = true
    swap
    · rw [runFor_of_not_running hrunning] at hrun
      obtain ⟨rfl, rfl⟩ := Prod.mk.inj hrun
      refine ⟨stack, runFor_of_not_running (m := m.restack stack) hrunning _, fun _ => ?_⟩
      exact ⟨n, Nat.le_refl n, covers_of_not_running hn hsame hrunning⟩
    -- The induction is on the fuel; the bound below which the stacks agree follows the reach of the
    -- machine.
    have hrepeats := h.repeats_step hpool hrunning hn hsame
    have hsat := h.step hpool hrunning
    have hrunning' : (m.restack stack).running = true := hrunning
    rw [Machine.runFor, if_pos hrunning] at hrun
    rw [Machine.runFor, if_pos hrunning']
    rw [Repeats] at hrepeats
    cases hstep : Machine.step m with
    | ok u m₁ =>
      rw [hstep] at hrun hrepeats
      obtain ⟨stack₁, hstep', hsame₁⟩ := hrepeats
      obtain ⟨stack', hrun', hcovers⟩ :=
        ih (hsat.of_ok hstep).ok (Nat.le_max_right n m₁.reach) hsame₁ hrun
      rw [hstep']
      refine ⟨stack', hrun', fun hends => ?_⟩
      obtain ⟨n', hle, hcovers⟩ := hcovers hends
      have hn' : n ≤ n' := Nat.le_trans (Nat.le_max_left _ _) hle
      refine ⟨n', hn', hcovers.same, hcovers.reach, fun k m₂ hk => ?_⟩
      cases k with
      | zero =>
        rw [Machine.dispatch, if_pos hrunning] at hk
        obtain rfl := Option.some.inj hk
        exact Nat.le_trans hn hn'
      | succ k =>
        rw [dispatch_of_ok hrunning hstep] at hk
        exact hcovers.dispatch k m₂ hk
    | error stop m₁ =>
      rw [hstep] at hrun hrepeats
      obtain ⟨rfl, rfl⟩ := Prod.mk.inj hrun
      cases stop with
      | crash => exact absurd hstep hsat.ne_crash
      | fault e =>
        obtain ⟨stack₁, hstep'⟩ := hrepeats
        rw [hstep']
        refine ⟨stack₁, rfl, fun hends => ?_⟩
        cases hends

/-! ### The value popped last -/

theorem get_bind_apply (f : Machine → Exec Unit) (m : Machine) :
    (MonadState.get >>= f : Exec Unit) m = f m m := rfl

/-- A return from the main code leaves its value in the slot above the top. -/
theorem leave_main_lt {v : Value} {u : Unit} (hcallers : m.callers = #[])
    (h : leave v m = .ok u m') : m'.sp < m'.stats.maxStack := by
  have hleave : leave v m = (do push v; drop 1; jumpTo m.frame.fn.code.size : Exec Unit) m := by
    have hback : m.callers.back? = none := by
      rw [hcallers]
      rfl
    rw [leave, get_bind_apply, hback]
  rw [hleave] at h
  change ((if m.sp < m.stack.size then _ else _ : Exec Unit) >>= fun _ => _ : Exec Unit) m = _ at h
  by_cases hroom : m.sp < m.stack.size
  · rw [if_pos hroom] at h
    cases h
    change m.sp + 1 - 1 < max m.stats.maxStack (m.sp + 1)
    omega
  · rw [if_neg hroom] at h
    cases h

theorem returns_main_lt [Casing] {i : Instr} {u : Unit} (hi : i.Returns)
    (hcallers : m.callers = #[]) (h : exec i m = .ok u m') : m'.sp < m'.stats.maxStack := by
  obtain ⟨op, operands⟩ := i
  obtain rfl | rfl : op = .returnValue ∨ op = .ret := hi
  · change (pop >>= leave) m = _ at h
    simp only [bind, EStateM.bind] at h
    cases hpop : pop m with
    | ok v m₁ =>
      rw [hpop] at h
      obtain ⟨-, hframes⟩ := List.cons.inj (Stays.pop.frames m v m₁ hpop)
      rw [hcallers] at hframes
      exact leave_main_lt (by simpa using hframes) h
    | error stop m₁ =>
      rw [hpop] at h
      cases h
  · exact leave_main_lt hcallers h

/-- An instruction that leaves the stack empty has taken a value from it, unless it has jumped. -/
theorem Acts.of_empty [Casing] {i : Instr} {live : List Value} {f : Frame} {callers fs : List Frame}
    (h : Acts i live (f :: callers) [] fs) :
    live ≠ [] ∨ ∃ t, i.target? = some t ∧ fs = { f with next := t } :: callers := by
  generalize hempty : ([] : List Value) = live' at h
  cases h with
  | falls hfalls hcall hargs hvalues _ hlength =>
    obtain ⟨rfl, rfl⟩ := List.append_eq_nil_iff.1 hempty.symm
    refine .inl fun hnil => ?_
    obtain ⟨rfl, rfl⟩ := List.append_eq_nil_iff.1 hnil
    obtain ⟨op, operands⟩ := i
    obtain ⟨hjump, hvalue, hret⟩ := hfalls
    cases op <;> simp_all [Instr.takes, Instr.gives]
  | jumps ht => exact .inr ⟨_, ht, rfl⟩
  | answers | enters | returns => simp at hempty

/-- A jump lands on an instruction. -/
theorem Ready.running_of_jump {i : Instr} {depth : Nat → Nat} {inside : Bool}
    (h : Ready P G m i is depth inside) {t : Nat} (ht : i.target? = some t) {callers : List Frame}
    (hframes : m'.frames = { m.frame with next := t } :: callers) : m'.running = true := by
  obtain ⟨-, hlands, -⟩ := h.flows.jumps t ht
  have hlt := hlands.lt
  rw [Nat.zero_add, ← Code.size_ofInstrs, ← h.executes.code] at hlt
  obtain ⟨hframe, -⟩ := List.cons.inj hframes
  rw [running, hframe]
  exact decide_eq_true hlt

/-- When a run is finished, the value popped last is read from a slot that has been in use. -/
theorem Launched.sp_lt [Casing] (h : Launched P G is m) (hrunning : m.running = true) {fuel : Nat}
    (hrun : m.runFor fuel = (.finished, m')) (hcovers : Covers n m m' stack) : m'.sp < n := by
  obtain ⟨k, m₁, -, hk, hstep, hstopped⟩ := exists_last_step hrunning hrun
  obtain ⟨hok, hrunning₁, -⟩ := h.ok.dispatch h.pool hk
  obtain ⟨i, is', depth, inside, hready, hfetch, -⟩ := hok.ready h.pool hrunning₁
  by_cases hreturn : i.Returns ∧ m₁.callers = #[]
  · have hover : ¬m₁.Exhausted := by
      intro hover
      obtain ⟨e, hfault, -⟩ := step_exhausted hrunning₁ hover
      rw [hstep] at hfault
      cases hfault
    obtain ⟨m₂, hexec, hagrees, -, -⟩ := step_eq_exec hover hfetch
    rw [hstep] at hexec
    have hlt := returns_main_lt hreturn.1 (hagrees.callers.trans hreturn.2) hexec.symm
    exact Nat.lt_of_lt_of_le hlt (Nat.le_trans (Nat.le_max_left _ _) hcovers.reach)
  · obtain ⟨-, hlive, -⟩ := h.rests hk hfetch hreturn hstep hstopped
    have hfits := ((hok.step h.pool hrunning₁).of_ok hstep).ok.fits
    have hsp : m'.sp = 0 := by rw [← hfits.length_live, hlive]; rfl
    obtain ⟨j, hj, -, hacts | hends⟩ := hok.acts_step h.pool hrunning₁ hstep
    · obtain rfl : j = i := by simpa [hfetch] using hj.symm
      rw [hlive] at hacts
      obtain hne | ⟨t, ht, hframes⟩ := hacts.of_empty
      · have hpos := List.length_pos_iff.2 hne
        rw [hok.fits.length_live] at hpos
        rw [hsp]
        exact Nat.lt_of_lt_of_le hpos (Nat.le_trans m₁.sp_le_reach (hcovers.dispatch k m₁ hk))
      · exact absurd (hready.running_of_jump ht hframes) hstopped
    · obtain rfl : j = i := by simpa [hfetch] using hj.symm
      exact absurd ⟨hends.1, hends.2.1⟩ hreturn

/-- A run of main code that is finished has popped the same value last on another stack. -/
theorem Launched.lastPopped_restack [Casing] (h : Launched P G is m) (hrunning : m.running = true)
    {fuel : Nat} (hrun : m.runFor fuel = (.finished, m')) (hcovers : Covers n m m' stack) :
    (m'.restack stack).lastPopped = m'.lastPopped := by
  have hslot : stack[m'.sp]? = m'.stack[m'.sp]? :=
    hcovers.same.getElem? m'.sp (h.sp_lt hrunning hrun hcovers)
  exact congrArg (Option.getD · Value.null) hslot

/-- Main code can be launched on any stack. -/
theorem Launched.restack (h : Launched P G is m) (stack : Array Value) :
    Launched P G is (m.restack stack) := by
  have hsp : m.sp = 0 := by rw [← h.ok.fits.length_live, h.live]; rfl
  have hlive : (m.restack stack).live = m.live := by
    rw [h.live]
    change stack.toList.take m.sp = []
    rw [hsp, List.take_zero]
  have hfits : (m.restack stack).Fits := by
    rw [Fits, sp_restack, hsp]
    exact Nat.zero_le _
  refine { h with
    ok := { h.ok with fits := hfits, live := ?_, stacked := ?_ }
    tidy := { h.tidy with anchored := ?_ }
    live := hlive.trans h.live }
  · rw [hlive]
    exact h.ok.live
  · rw [hlive]
    exact h.ok.stacked
  · rw [stations, hlive]
    exact h.tidy.anchored

end Machine

end StackScript
