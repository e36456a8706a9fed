import Mathlib.Data.List.Basic
import StackScript.Machine

/-!
# What instructions do to the stack

The values on the stack are a list. The parts of an instruction that push, pop
and look at values are described by this list alone: whatever holds after them
follows from what it is then, and everything else is as it was.

## Main definitions

* `Machine.live`: the values on the stack.
* `Machine.Agrees`: machines that differ at most in their stacks and counters.
* `Exec.Sat`: what holds after a part of an instruction.
-/

namespace StackScript

namespace Machine

/-- The values on the stack, in the order they were pushed. -/
def live (m : Machine) : List Value := m.stack.toList.take m.sp

/-- The stack is as high as its values are many. -/
def Fits (m : Machine) : Prop := m.sp ≤ m.stack.size

theorem Fits.length_live {m : Machine} (h : m.Fits) : m.live.length = m.sp := by
  rw [live, List.length_take, Array.length_toList]
  exact Nat.min_eq_left h

/-- The machines differ at most in the values on their stacks, in traces and in counters. -/
structure Agrees (m m' : Machine) : Prop where
  frame : m'.frame = m.frame
  callers : m'.callers = m.callers
  constants : m'.constants = m.constants
  globals : m'.globals = m.globals
  maxFrames : m'.maxFrames = m.maxFrames
  limit : m'.limit = m.limit
  fresh : m'.fresh = m.fresh
  output : m'.output = m.output
  instructions : m'.stats.instructions = m.stats.instructions
  size : m'.stack.size = m.stack.size

theorem Agrees.refl (m : Machine) : m.Agrees m := ⟨rfl, rfl, rfl, rfl, rfl, rfl, rfl, rfl, rfl, rfl⟩

theorem Agrees.trans {m m' m'' : Machine} (h : m.Agrees m') (h' : m'.Agrees m'') : m.Agrees m'' where
  frame := h'.frame.trans h.frame
  callers := h'.callers.trans h.callers
  constants := h'.constants.trans h.constants
  globals := h'.globals.trans h.globals
  maxFrames := h'.maxFrames.trans h.maxFrames
  limit := h'.limit.trans h.limit
  fresh := h'.fresh.trans h.fresh
  output := h'.output.trans h.output
  instructions := h'.instructions.trans h.instructions
  size := h'.size.trans h.size

end Machine

namespace Exec

variable {α β : Type} {m : Machine} {Q : α → Machine → Prop} {E : Fault → Machine → Prop}

/-- The computation does not crash; `Q` holds of its result and `E` of its fault. -/
def Sat (x : Exec α) (m : Machine) (Q : α → Machine → Prop) (E : Fault → Machine → Prop) : Prop :=
  match x m with
  | .ok a m' => Q a m'
  | .error (.fault e) m' => E e.fault m'
  | .error .crash _ => False

theorem Sat.of_ok {x : Exec α} {a : α} {m' : Machine} (h : Sat x m Q E) (hx : x m = .ok a m') :
    Q a m' := by
  rwa [Sat, hx] at h

theorem Sat.of_fault {x : Exec α} {e : RuntimeError} {m' : Machine} (h : Sat x m Q E)
    (hx : x m = .error (.fault e) m') : E e.fault m' := by
  rwa [Sat, hx] at h

theorem Sat.ne_crash {x : Exec α} {m' : Machine} (h : Sat x m Q E) : x m ≠ .error .crash m' := by
  intro hx
  rwa [Sat, hx] at h

theorem Sat.bind {x : Exec α} {f : α → Exec β} {Q : β → Machine → Prop}
    (h : Sat x m (fun a m' => Sat (f a) m' Q E) E) : Sat (x >>= f) m Q E := by
  simp only [Sat, Bind.bind, EStateM.bind] at h ⊢
  cases hx : x m with
  | ok a m' => simpa only [hx, Sat] using h
  | error e m' =>
    rw [hx] at h
    cases e with
    | fault e => exact h
    | crash => exact h

theorem Sat.mono {x : Exec α} {Q' : α → Machine → Prop} {E' : Fault → Machine → Prop}
    (h : Sat x m Q E) (hQ : ∀ a m', Q a m' → Q' a m') (hE : ∀ f m', E f m' → E' f m') :
    Sat x m Q' E' := by
  unfold Sat at h ⊢
  split at h
  · exact hQ _ _ h
  · exact hE _ _ h
  · exact h

theorem Sat.pure {a : α} (h : Q a m) : Sat (Pure.pure a) m Q E := h

theorem Sat.get {Q : Machine → Machine → Prop} (h : Q m m) : Sat MonadState.get m Q E := h

theorem Sat.modify {f : Machine → Machine} {Q : Unit → Machine → Prop} (h : Q () (f m)) :
    Sat (modify f) m Q E := h

theorem Sat.modifyGet {f : Machine → α × Machine} (h : Q (f m).1 (f m).2) :
    Sat (MonadState.modifyGet f) m Q E := h

theorem Sat.raise {fault : Fault} (h : E fault m) : Sat (raise fault) m Q E := h

theorem Sat.attempt {r : Except Fault α} (hok : ∀ a, r = .ok a → Q a m)
    (herror : ∀ f, r = .error f → E f m) : Sat (attempt r) m Q E := by
  cases r with
  | ok a => exact hok a rfl
  | error f => exact herror f rfl

/-! ### Pushing and popping -/

theorem Sat.push {v : Value} {Q : Unit → Machine → Prop} (hfits : m.Fits)
    (hok : ∀ m', m.Agrees m' → m'.Fits → m'.live = m.live ++ [v] → m.sp < m.stack.size → Q () m')
    (hfull : m.sp = m.stack.size → E .stackOverflow m) : Sat (push v) m Q E := by
  refine .bind (.get ?_)
  refine .bind (.get ?_)
  by_cases hroom : m.sp < m.stack.size
  · rw [if_pos hroom]
    refine .modify (hok _ ⟨rfl, rfl, rfl, rfl, rfl, rfl, rfl, rfl, rfl, ?_⟩ ?_ ?_ hroom)
    · simp
    · rw [Machine.Fits, Array.size_setIfInBounds]
      exact hroom
    · simp only [Machine.live, Array.toList_setIfInBounds]
      rw [List.take_add_one, List.take_set_of_le (Nat.le_refl _)]
      simp [hroom]
  · rw [if_neg hroom]
    exact .raise (hfull (Nat.le_antisymm hfits (Nat.not_lt.1 hroom)))

/-- The stack below its topmost values. -/
theorem live_take {S args : List Value} (hfits : m.Fits) (h : m.live = S ++ args) :
    m.sp = S.length + args.length ∧ m.stack.toList.take (m.sp - args.length) = S ∧
      (m.stack.extract (m.sp - args.length) m.sp).toList = args := by
  have hlen := hfits.length_live
  rw [h, List.length_append] at hlen
  have hS : m.stack.toList.take (m.sp - args.length) = S := by
    have htake := congrArg (List.take S.length) h
    rw [Machine.live, List.take_take, List.take_left] at htake
    rwa [Nat.min_eq_left (by omega), show S.length = m.sp - args.length by omega] at htake
  refine ⟨hlen.symm, hS, ?_⟩
  rw [Array.toList_extract, List.extract_eq_take_drop]
  have hdrop := congrArg (List.drop S.length) h
  rw [List.drop_left, Machine.live, List.drop_take] at hdrop
  rwa [show m.sp - args.length = S.length by omega]

/-- What is on the stack is in its array. -/
theorem getElem?_of_live {k : Nat} {v : Value} (h : m.live[k]? = some v) : m.stack[k]? = some v := by
  rw [Machine.live, List.getElem?_take] at h
  split at h
  · rwa [← Array.getElem?_toList]
  · cases h

theorem Sat.pop {S : List Value} {v : Value} {Q : Value → Machine → Prop} (hfits : m.Fits)
    (hlive : m.live = S ++ [v])
    (hok : ∀ m', m.Agrees m' → m'.Fits → m'.live = S → m'.lastPopped = v → Q v m') :
    Sat pop m Q E := by
  obtain ⟨hsp, hS, hv⟩ := live_take hfits hlive
  have htop : m.stack[m.sp - 1]? = some v :=
    getElem?_of_live (by simp [hlive, hsp])
  refine .bind (.get ?_)
  rw [if_neg (by simp at hsp; omega)]
  simp only [htop]
  refine .bind (.modify (.pure (hok _ ⟨rfl, rfl, rfl, rfl, rfl, rfl, rfl, rfl, rfl, rfl⟩ ?_ ?_ ?_)))
  · exact Nat.le_trans (Nat.sub_le _ _) hfits
  · exact hS
  · simp [Machine.lastPopped, htop]

theorem Sat.top {S args : List Value} {Q : List Value → Machine → Prop} (hfits : m.Fits)
    (hlive : m.live = S ++ args) {n : Nat} (hn : args.length = n) (hok : Q args m) :
    Sat (top n) m Q E := by
  obtain ⟨hsp, -, hargs⟩ := live_take hfits hlive
  refine .bind (.get ?_)
  rw [if_pos ⟨by omega, hfits⟩, ← hn, hargs]
  exact .pure hok

theorem Sat.drop {S args : List Value} {Q : Unit → Machine → Prop} (hfits : m.Fits)
    (hlive : m.live = S ++ args) {n : Nat} (hn : args.length = n)
    (hok : ∀ m', m.Agrees m' → m'.Fits → m'.live = S → Q () m') : Sat (drop n) m Q E := by
  obtain ⟨-, hS, -⟩ := live_take hfits hlive
  refine .modify (hok _ ⟨rfl, rfl, rfl, rfl, rfl, rfl, rfl, rfl, rfl, rfl⟩ ?_ ?_)
  · exact Nat.le_trans (Nat.sub_le _ _) hfits
  · rw [← hn]
    exact hS

end Exec

end StackScript
