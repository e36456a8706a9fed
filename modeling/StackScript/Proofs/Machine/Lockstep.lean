import StackScript.Proofs.Compile.Shift
import StackScript.Proofs.Machine.Retained
import StackScript.Proofs.Machine.Stations

/-!
# Machines in lockstep

A machine may run code that stands inside longer code on another machine, some
bytes further on. As long as the values on the stack, the frames and the global
variables are the same, the two do the same, step by step. What lies above the
top of the stack does not matter, nor what either of them has written before.

## Main definitions

* `Exec.Follows`: a computation does on one machine what another does on its own.
* `Machine.Aligned`: the same frames, but for the place of the main code.
* `Machine.Twin`: machines in lockstep.

## Main results

* `Machine.Twin.step`: a step of one machine is a step of its twin.
-/

namespace StackScript

/-- The instructions of some code stand in longer code, `k` bytes further on. None of them refers to
the current closure. -/
structure Code.Embeds (code : Code) (k : Nat) (part : Code) : Prop where
  fetch : ∀ o i, (o, .instr i) ∈ part.walk → code.fetch (o + k) = some (.instr (i.shift k))
  plain : ∀ o i, (o, .instr i) ∈ part.walk → i.op ≠ .currentClosure

open Instr in
/-- Code that has been moved behind other instructions stands there. -/
theorem Code.Laid.embeds {code part : Code} {before is after : List Instr} (hpart : part.Laid is)
    (hcode : code.Encodes (before ++ (is.map (shift (bytes before)) ++ after)))
    (hplain : ∀ i ∈ is, i.op ≠ .currentClosure) : code.Embeds (bytes before) part := by
  constructor
  · intro o i hi
    obtain ⟨s, t, rfl, rfl⟩ := hpart.mem_walk.1 hi
    have hsplit : before ++ ((s ++ i :: t).map (shift (bytes before)) ++ after) =
        (before ++ s.map (shift (bytes before))) ++
          i.shift (bytes before) :: (t.map (shift (bytes before)) ++ after) := by
      simp
    have hfits := hcode.fits (i.shift (bytes before)) (by simp)
    have hfetch := fetch_ofInstrs (before ++ s.map (shift (bytes before)))
      (t.map (shift (bytes before)) ++ after) hfits
    rwa [← hsplit, ← hcode.eq, bytes_append, bytes_map_shift, Nat.add_comm] at hfetch
  · intro o i hi
    obtain ⟨s, t, rfl, -⟩ := hpart.mem_walk.1 hi
    exact hplain i (by simp)

/-- The frame in longer code, where its own code stands `k` bytes further on. -/
def Frame.moved (f : Frame) (code : Code) (k : Nat) : Frame :=
  { f with fn := { f.fn with code := code }, next := f.next + k }

namespace Machine

/-- The frames, from the inside out, are the same but for the main one, which stands in longer
code. -/
inductive Aligned (code : Code) (k : Nat) : List Frame → List Frame → Prop
  | main {f : Frame} : code.Embeds k f.fn.code → Aligned code k [f] [f.moved code k]
  | inner {f : Frame} {fs gs : List Frame} : Aligned code k fs gs →
    Aligned code k (f :: fs) (f :: gs)

theorem Aligned.length_eq {code : Code} {k : Nat} {fs gs : List Frame} (h : Aligned code k fs gs) :
    gs.length = fs.length := by
  induction h with
  | main => rfl
  | inner _ ih => rw [List.length_cons, List.length_cons, ih]

/-- The second machine stands in longer code where the first one stands in its own, with the same
values. It has written something before. -/
structure Twin (whole : Bytecode) (k : Nat) (before : List Bytes) (a b : Machine) : Prop where
  fits : a.Fits
  sp : b.sp = a.sp
  size : b.stack.size = a.stack.size
  live : b.live = a.live
  globals : b.globals = a.globals
  constants : b.constants = whole.constants
  pool : a.constants.toList <+: whole.constants.toList
  fresh : b.fresh = a.fresh
  output : b.output = a.output ++ before
  maxFrames : b.maxFrames = a.maxFrames
  limit : a.limit = 0
  limit_twin : b.limit = 0
  frames : Aligned whole.code k a.frames b.frames

variable {whole : Bytecode} {k : Nat} {before : List Bytes} {a a' b b' : Machine}

/-- Both execute the main code, or both the same function. -/
theorem Twin.cases_frame (h : Twin whole k before a b) :
    a.callers = #[] ∧ b.callers = #[] ∧ b.frame = a.frame.moved whole.code k ∧
        whole.code.Embeds k a.frame.fn.code ∨
      a.callers ≠ #[] ∧ b.frame = a.frame ∧
        Aligned whole.code k a.callers.toList.reverse b.callers.toList.reverse := by
  have hempty (callers : Array Frame) (hcallers : callers.toList.reverse = []) : callers = #[] := by
    simpa using hcallers
  have hframes := h.frames
  rw [Machine.frames, Machine.frames] at hframes
  generalize hg : b.frame = g at hframes
  generalize hgs : b.callers.toList.reverse = gs at hframes
  generalize hfs : a.callers.toList.reverse = fs at hframes
  cases hframes with
  | main hcode => exact .inl ⟨hempty _ hfs, hempty _ hgs, rfl, hcode⟩
  | inner hrest =>
    refine .inr ⟨?_, rfl, hrest⟩
    intro hcallers
    rw [hcallers] at hfs
    subst hfs
    cases hrest

/-- The current frames differ in their codes and offsets at most. -/
theorem Twin.frame_eq (h : Twin whole k before a b) :
    b.frame.free = a.frame.free ∧ b.frame.base = a.frame.base := by
  obtain ⟨-, -, hframe, -⟩ | ⟨-, hframe, -⟩ := h.cases_frame
  · rw [hframe]
    exact ⟨rfl, rfl⟩
  · rw [hframe]
    exact ⟨rfl, rfl⟩

theorem Twin.callers_size (h : Twin whole k before a b) : b.callers.size = a.callers.size := by
  have hlength := h.frames.length_eq
  simpa [Machine.frames] using hlength

/-- Twins stay twins when only their stacks change, in the same way. -/
theorem Twin.restack (h : Twin whole k before a b) (ha : a.Agrees a') (hb : b.Agrees b')
    (hfits : a'.Fits) (hsp : b'.sp = a'.sp) (hlive : b'.live = a'.live) :
    Twin whole k before a' b' where
  fits := hfits
  sp := hsp
  size := by rw [ha.size, hb.size, h.size]
  live := hlive
  globals := by rw [ha.globals, hb.globals, h.globals]
  constants := by rw [hb.constants, h.constants]
  pool := by
    rw [ha.constants]
    exact h.pool
  fresh := by rw [ha.fresh, hb.fresh, h.fresh]
  output := by rw [ha.output, hb.output, h.output]
  maxFrames := by rw [ha.maxFrames, hb.maxFrames, h.maxFrames]
  limit := by rw [ha.limit, h.limit]
  limit_twin := by rw [hb.limit, h.limit_twin]
  frames := by
    rw [Machine.frames, Machine.frames, ha.frame, hb.frame, ha.callers, hb.callers]
    exact h.frames

/-- What is on the stack of a machine is on the stack of its twin. -/
theorem Twin.getElem?_stack (h : Twin whole k before a b) {i : Nat} (hi : i < a.sp) :
    b.stack[i]? = a.stack[i]? := by
  have hlive := congrArg (·[i]?) h.live
  simp only [Machine.live, List.getElem?_take, h.sp, if_pos hi, Array.getElem?_toList] at hlive
  exact hlive

/-- The constants of a machine are among those of its twin. -/
theorem Twin.getElem?_constants (h : Twin whole k before a b) {n : Nat} {v : Value}
    (hv : a.constants[n]? = some v) : b.constants[n]? = some v := by
  rw [h.constants]
  exact getElem?_mono h.pool hv

theorem extract_eq_live (m : Machine) (n : Nat) :
    (m.stack.extract (m.sp - n) m.sp).toList = m.live.drop (m.sp - n) := by
  rw [Array.toList_extract, List.extract_eq_take_drop, live, List.drop_take]

end Machine

namespace Exec

open Machine

variable {α β : Type} {a b : Machine} {x y : Exec α} {Q : α → Machine → Machine → Prop}

/-- If the first computation succeeds, the second one does, with the same result. -/
def Follows (x y : Exec α) (a b : Machine) (Q : α → Machine → Machine → Prop) : Prop :=
  ∀ r a', x a = .ok r a' → ∃ b', y b = .ok r b' ∧ Q r a' b'

theorem Follows.mono {Q' : α → Machine → Machine → Prop} (h : Follows x y a b Q)
    (hQ : ∀ r a' b', Q r a' b' → Q' r a' b') : Follows x y a b Q' := by
  intro r a' hr
  obtain ⟨b', hy, hq⟩ := h r a' hr
  exact ⟨b', hy, hQ r a' b' hq⟩

theorem Follows.congr {x' y' : Exec α} {a₁ b₁ : Machine} (hx : x a = x' a₁) (hy : y b = y' b₁)
    (h : Follows x' y' a₁ b₁ Q) : Follows x y a b Q := by
  intro r a' hr
  rw [hy]
  exact h r a' (hx.symm.trans hr)

theorem Follows.bind {f g : α → Exec β} {Q : β → Machine → Machine → Prop}
    (h : Follows x y a b fun r a' b' => Follows (f r) (g r) a' b' Q) :
    Follows (x >>= f) (y >>= g) a b Q := by
  intro r a' hr
  simp only [Bind.bind, EStateM.bind] at hr ⊢
  cases hx : x a with
  | ok r₁ a₁ =>
    rw [hx] at hr
    obtain ⟨b₁, hy, hfollows⟩ := h r₁ a₁ hx
    rw [hy]
    exact hfollows r a' hr
  | error e a₁ =>
    rw [hx] at hr
    cases hr

/-- Each machine looks at itself. -/
theorem Follows.get {f g : Machine → Exec β} {Q : β → Machine → Machine → Prop}
    (h : Follows (f a) (g b) a b Q) :
    Follows (MonadState.get >>= f) (MonadState.get >>= g) a b Q :=
  h

theorem Follows.pure {r : α} (h : Q r a b) : Follows (Pure.pure r) (Pure.pure r) a b Q := by
  intro _ _ hr
  cases hr
  exact ⟨b, rfl, h⟩

theorem Follows.modify {f g : Machine → Machine} {Q : Unit → Machine → Machine → Prop}
    (h : Q () (f a) (g b)) : Follows (modify f) (modify g) a b Q := by
  intro _ _ hr
  cases hr
  exact ⟨g b, rfl, h⟩

theorem Follows.modifyGet {f g : Machine → α × Machine} (heq : (g b).1 = (f a).1)
    (h : Q (f a).1 (f a).2 (g b).2) :
    Follows (MonadState.modifyGet f) (MonadState.modifyGet g) a b Q := by
  intro _ _ hr
  cases hr
  refine ⟨(g b).2, ?_, h⟩
  rw [← heq]
  rfl

theorem Follows.crash : Follows crash y a b Q := nofun

theorem Follows.raise {fault : Fault} : Follows (raise fault) y a b Q := nofun

theorem Follows.attempt {r : Except Fault α} (h : ∀ v, r = .ok v → Q v a b) :
    Follows (attempt r) (attempt r) a b Q := by
  cases r with
  | ok v => exact .pure (h v rfl)
  | error fault => exact .raise

end Exec

namespace Machine

open Exec

variable {whole : Bytecode} {k : Nat} {before : List Bytes} {a b : Machine} {i : Instr}

/-! ### Pushing and popping -/

theorem Twin.push (h : Twin whole k before a b) {v : Value} {Q : Unit → Machine → Machine → Prop}
    (hok : ∀ a' b', Twin whole k before a' b' → a.Agrees a' → b.Agrees b' →
      a'.live = a.live ++ [v] → a'.stack[a.sp]? = some v → b'.stack[b.sp]? = some v → Q () a' b') :
    Follows (push v) (push v) a b Q := by
  refine .get (.get ?_)
  by_cases hroom : a.sp < a.stack.size
  · have hroom' : b.sp < b.stack.size := by rw [h.sp, h.size]; exact hroom
    rw [if_pos hroom, if_pos hroom']
    have hlive {m : Machine} (hm : m.sp < m.stack.size) :
        (m.stack.setIfInBounds m.sp v).toList.take (m.sp + 1) = m.live ++ [v] := by
      rw [Array.toList_setIfInBounds, List.take_add_one, List.take_set_of_le (Nat.le_refl _)]
      simp [Machine.live, hm]
    have hagrees (m : Machine) : m.Agrees { m with
        stack := m.stack.setIfInBounds m.sp v
        sp := m.sp + 1
        stats := { m.stats with maxStack := max m.stats.maxStack (m.sp + 1) } } :=
      ⟨rfl, rfl, rfl, rfl, rfl, rfl, rfl, rfl, rfl, by simp⟩
    refine .modify (hok _ _ (h.restack (hagrees a) (hagrees b) ?_ ?_ ?_) (hagrees a) (hagrees b)
      (hlive hroom) ?_ ?_)
    · rw [Fits, Array.size_setIfInBounds]
      exact hroom
    · exact congrArg (· + 1) h.sp
    · exact (hlive hroom').trans ((congrArg (· ++ [v]) h.live).trans (hlive hroom).symm)
    · simp [hroom]
    · simp [hroom']
  · rw [if_neg hroom]
    exact .raise

theorem agrees_sp (m : Machine) (n : Nat) : m.Agrees { m with sp := n } :=
  ⟨rfl, rfl, rfl, rfl, rfl, rfl, rfl, rfl, rfl, rfl⟩

/-- Both keep the same number of values. -/
theorem Twin.dropped (h : Twin whole k before a b) {n : Nat} (hn : n ≤ a.sp) :
    Twin whole k before { a with sp := n } { b with sp := n } := by
  refine h.restack (a.agrees_sp n) (b.agrees_sp n) (Nat.le_trans hn h.fits) rfl ?_
  have htake := congrArg (List.take n) h.live
  simp only [Machine.live, List.take_take, h.sp, Nat.min_eq_left hn] at htake
  exact htake

/-- Popping leaves the value readable. -/
theorem Twin.pop (h : Twin whole k before a b) {Q : Value → Machine → Machine → Prop}
    (hok : ∀ v a' b', Twin whole k before a' b' → a.Agrees a' → b.Agrees b' →
      a.live = a'.live ++ [v] → b'.lastPopped = a'.lastPopped → Q v a' b') :
    Follows pop pop a b Q := by
  refine .get ?_
  by_cases hzero : a.sp = 0
  · rw [if_pos hzero]
    exact .crash
  rw [if_neg hzero, if_neg (by rwa [h.sp])]
  have hpos : a.sp - 1 < a.sp := Nat.sub_lt (Nat.pos_of_ne_zero hzero) Nat.one_pos
  have hsame : b.stack[b.sp - 1]? = a.stack[a.sp - 1]? := by
    rw [h.sp, h.getElem?_stack hpos]
  rw [hsame]
  cases hv : a.stack[a.sp - 1]? with
  | none => exact .crash
  | some v =>
    rw [h.sp] at hsame
    refine .bind (.modify (.pure ?_))
    rw [h.sp]
    refine hok v _ _ (h.dropped (Nat.le_of_lt hpos)) (a.agrees_sp _) (b.agrees_sp _) ?_ ?_
    · have hsucc : a.sp = a.sp - 1 + 1 := by omega
      have hget : a.stack.toList[a.sp - 1]? = some v := by rw [Array.getElem?_toList, hv]
      change a.stack.toList.take a.sp = _
      rw [hsucc, List.take_add_one, hget]
      rfl
    · exact congrArg (Option.getD · .null) hsame

theorem Twin.top (h : Twin whole k before a b) {n : Nat} {Q : List Value → Machine → Machine → Prop}
    (hok : ∀ args, n ≤ a.sp → Q args a b) : Follows (top n) (top n) a b Q := by
  refine .get ?_
  by_cases hn : n ≤ a.sp ∧ a.sp ≤ a.stack.size
  · rw [if_pos hn, if_pos (by rwa [h.sp, h.size]), extract_eq_live, extract_eq_live, h.live, h.sp]
    exact .pure (hok _ hn.1)
  · rw [if_neg hn]
    exact .crash

theorem Twin.drop (h : Twin whole k before a b) {n : Nat} {Q : Unit → Machine → Machine → Prop}
    (hok : ∀ a' b', Twin whole k before a' b' → a.Agrees a' → b.Agrees b' → Q () a' b') :
    Follows (drop n) (drop n) a b Q := by
  refine .modify (hok _ _ ?_ (a.agrees_sp _) (b.agrees_sp _))
  rw [h.sp]
  exact h.dropped (Nat.sub_le _ _)

/-- Pushing the same value on both. -/
theorem Twin.pushes (h : Twin whole k before a b) (v : Value) :
    Follows (Exec.push v) (Exec.push v) a b fun _ a' b' =>
      Twin whole k before a' b' ∧ 0 < a'.sp := by
  refine h.push ?_
  intro a' b' htwin _ _ hlive _ _
  refine ⟨htwin, ?_⟩
  rw [← htwin.fits.length_live, hlive, List.length_append]
  exact Nat.succ_pos _

theorem Twin.finish (h : Twin whole k before a b) (r : Except Fault Value) :
    Follows (finish r) (finish r) a b fun _ a' b' => Twin whole k before a' b' ∧ 0 < a'.sp :=
  .bind (.attempt fun v _ => h.pushes v)

/-! ### Instructions -/

/-- How far the code of the second machine is ahead of that of the first: only main code is
moved. -/
def drift (k : Nat) (m : Machine) : Nat := if m.callers.size = 0 then k else 0

theorem drift_main {m : Machine} (h : m.callers = #[]) : m.drift k = k := by
  rw [drift, h]
  rfl

theorem drift_inner {m : Machine} (h : m.callers ≠ #[]) : m.drift k = 0 := by
  rw [drift, if_neg (by simpa using h)]

/-- The current frames go on, each in its own code. -/
theorem Twin.go (h : Twin whole k before a b) (o : Nat) :
    Twin whole k before { a with frame := { a.frame with next := o } }
      { b with frame := { b.frame with next := o + a.drift k } } := by
  refine { h with frames := ?_ }
  simp only [Machine.frames]
  obtain ⟨hcallers, hcallers', hframe, hcode⟩ | ⟨hcallers, hframe, hrest⟩ := h.cases_frame
  · rw [hframe, drift_main hcallers, hcallers, hcallers']
    exact .main (f := { a.frame with next := o }) hcode
  · rw [hframe, drift_inner hcallers]
    exact .inner hrest

/-- What a machine loads, its twin loads. In main code there is no current closure. -/
theorem Twin.source? (h : Twin whole k before a b) {r : Except Fault Value}
    (hself : i.op = .currentClosure → b.frame = a.frame) (hr : i.source? a = some r) :
    i.source? b = some r := by
  obtain ⟨hfree, hbase⟩ := h.frame_eq
  obtain ⟨op, operands⟩ := i
  rw [← hr]
  unfold Instr.source? at hr ⊢
  split at hr
  · next n hop hoperands =>
    obtain rfl : op = _ := hop
    obtain rfl : operands = _ := hoperands
    obtain ⟨v, hv, -⟩ := Option.map_eq_some_iff.1 hr
    rw [h.getElem?_constants hv, hv]
  · next hop => obtain rfl : op = _ := hop; rfl
  · next hop => obtain rfl : op = _ := hop; rfl
  · next hop => obtain rfl : op = _ := hop; rfl
  · rw [h.globals]
  · rw [h.live, hbase]
  · rfl
  · rw [hfree]
  · next hop => rw [hself hop]
  · rfl

/-- An array or a hash is made of the topmost values, which are then taken from the stack. -/
theorem Twin.gather [Casing] (h : Twin whole k before a b) {f : List Value → Except Fault Value}
    (hf : i.gather? = some f) :
    Follows (exec i) (exec i) a b fun _ a' b' => Twin whole k before a' b' ∧ 0 < a'.sp := by
  have hpush (n : Nat) (v : Value) : Follows (do Exec.drop n; Exec.push v)
      (do Exec.drop n; Exec.push v) a b fun _ a' b' => Twin whole k before a' b' ∧ 0 < a'.sp := by
    refine .bind (h.drop ?_)
    intro a₁ b₁ htwin _ _
    exact htwin.pushes v
  obtain ⟨op, operands⟩ := i
  unfold Instr.gather? at hf
  split at hf
  · next n hop hoperands =>
    obtain rfl : op = _ := hop
    obtain rfl : operands = _ := hoperands
    exact .bind (h.top fun items _ => hpush n (.array items))
  · next n hop hoperands =>
    obtain rfl : op = _ := hop
    obtain rfl : operands = _ := hoperands
    refine .bind (h.top fun items _ => .bind (.attempt ?_))
    intro entries _
    exact hpush (2 * n) (.hash (Entry.file entries))
  · cases hf

/-- An instruction that yields a value yields the same one. -/
theorem Twin.yields [Casing] (h : Twin whole k before a b) {args : List Value}
    {r : Except Fault Value}
    (hself : i.op = .currentClosure → b.frame = a.frame) (hyields : i.Yields a args r) :
    Follows (exec i) (exec i) a b fun _ a' b' => Twin whole k before a' b' ∧ 0 < a'.sp := by
  cases hyields with
  | source hr =>
    exact .congr (exec_source hr) (exec_source (h.source? hself hr)) (h.finish r)
  | unary hf =>
    rw [exec_unary hf]
    refine .bind (h.pop ?_)
    intro v a₁ b₁ htwin _ _ _ _
    exact htwin.finish _
  | binary hf =>
    rw [exec_binary hf]
    refine .bind (h.pop ?_)
    intro right a₁ b₁ htwin₁ _ _ _ _
    refine .bind (htwin₁.pop ?_)
    intro left a₂ b₂ htwin₂ _ _ _ _
    exact htwin₂.finish _
  | gather hf _ => exact h.gather hf

theorem Twin.pops [Casing] (h : Twin whole k before a b) (operands : List Nat) :
    Follows (exec ⟨.pop, operands⟩) (exec ⟨.pop, operands⟩) a b fun _ a' b' =>
      Twin whole k before a' b' ∧ b'.lastPopped = a'.lastPopped := by
  refine .bind (h.pop ?_)
  intro v a' b' htwin _ _ _ hlast
  exact .pure ⟨htwin, hlast⟩

theorem Twin.setGlobal [Casing] (h : Twin whole k before a b) (n : Nat) :
    Follows (exec ⟨.setGlobal, [n]⟩) (exec ⟨.setGlobal, [n]⟩) a b fun _ a' b' =>
      Twin whole k before a' b' ∧ b'.lastPopped = a'.lastPopped := by
  refine .get ?_
  by_cases hn : n < a.globals.size
  · rw [if_pos hn, if_pos (by rwa [h.globals])]
    refine .bind (h.pop ?_)
    intro v a' b' htwin _ _ _ hlast
    refine .modify ⟨?_, hlast⟩
    exact { htwin with globals := congrArg (Array.setIfInBounds · n v) htwin.globals }
  · rw [if_neg hn]
    exact .raise

theorem Twin.setLocal [Casing] (h : Twin whole k before a b) (n : Nat) :
    Follows (exec ⟨.setLocal, [n]⟩) (exec ⟨.setLocal, [n]⟩) a b fun _ a' b' =>
      Twin whole k before a' b' ∧ b'.lastPopped = a'.lastPopped := by
  refine .bind (h.pop ?_)
  intro v a' b' htwin _ _ _ hlast
  refine .get ?_
  obtain ⟨-, hbase⟩ := htwin.frame_eq
  by_cases hn : a'.frame.base + n < a'.stack.size
  · rw [if_pos hn, if_pos (by rwa [hbase, htwin.size])]
    refine .modify ⟨htwin.restack ⟨rfl, rfl, rfl, rfl, rfl, rfl, rfl, rfl, rfl, by simp⟩
      ⟨rfl, rfl, rfl, rfl, rfl, rfl, rfl, rfl, rfl, by simp⟩ ?_ htwin.sp ?_, ?_⟩
    · rw [Fits, Array.size_setIfInBounds]
      exact htwin.fits
    · have hlive := congrArg (List.set · (a'.frame.base + n) v) htwin.live
      simp only [Machine.live, ← List.take_set, hbase, Array.toList_setIfInBounds] at hlive ⊢
      exact hlive
    · simp only [lastPopped, Array.getElem?_setIfInBounds, hbase, htwin.sp, htwin.size] at hlast ⊢
      by_cases htop : a'.frame.base + n = a'.sp
      · rw [if_pos htop, if_pos htop]
      · rw [if_neg htop, if_neg htop, hlast]
  · rw [if_neg hn]
    exact .crash

theorem Twin.jump [Casing] (h : Twin whole k before a b) (t : Nat) :
    Follows (exec ⟨.jump, [t]⟩) (exec ⟨.jump, [t + a.drift k]⟩) a b fun _ a' b' =>
      Twin whole k before a' b' ∧ a'.frame = { a.frame with next := t } :=
  .modify ⟨h.go t, rfl⟩

theorem Twin.jumpIfFalse [Casing] (h : Twin whole k before a b) (t : Nat) :
    Follows (exec ⟨.jumpIfFalse, [t]⟩) (exec ⟨.jumpIfFalse, [t + a.drift k]⟩) a b
      fun _ a' b' => Twin whole k before a' b' ∧ b'.lastPopped = a'.lastPopped := by
  refine .bind (h.pop ?_)
  intro v a' b' htwin ha _ _ hlast
  have hdrift : a'.drift k = a.drift k := by rw [drift, ha.callers, drift]
  by_cases hv : v.truthy = true
  · rw [if_pos hv, if_pos hv]
    exact .pure ⟨htwin, hlast⟩
  · rw [if_neg hv, if_neg hv, ← hdrift]
    exact .modify ⟨htwin.go t, hlast⟩

theorem Twin.closes (h : Twin whole k before a b) (number n : Nat) :
    Follows (close number n) (close number n) a b fun _ a' b' =>
      Twin whole k before a' b' ∧ 0 < a'.sp := by
  refine .get ?_
  cases hv : a.constants[number]? with
  | none => exact .crash
  | some c =>
    rw [h.getElem?_constants hv]
    cases c with
    | function fn =>
      refine .bind (h.top fun free _ => .bind (h.drop ?_))
      intro a' b' htwin _ _
      refine .bind (.modifyGet htwin.fresh ?_)
      have hfresh : Twin whole k before { a' with fresh := a'.fresh + 1 }
          { b' with fresh := b'.fresh + 1 } :=
        { htwin with fresh := congrArg (· + 1) htwin.fresh }
      exact hfresh.pushes _
    | _ => exact .raise

/-! ### Calls and returns -/

/-- The locals of a function that is entered are its arguments, and nulls after them. -/
theorem take_clear {m : Machine} {n l : Nat} (hfits : m.Fits) (hn : n ≤ m.sp)
    (hroom : m.sp - n + l ≤ m.stack.size) :
    (clear m.stack m.sp (l - n)).toList.take (m.sp - n + l) =
      (m.live ++ List.replicate (l - n) Value.null).take (m.sp - n + l) := by
  have hle : m.sp ≤ m.stack.size := hfits
  have hlength : (m.live ++ List.replicate (l - n) Value.null).length = m.sp + (l - n) := by
    rw [List.length_append, List.length_replicate, hfits.length_live]
  rw [toList_clear m.stack _ _ (by omega), ← List.append_assoc]
  exact List.take_append_of_le_length (by rw [← live, hlength]; omega)

theorem Twin.enter (h : Twin whole k before a b) {id : Nat} {fn : Function} {free : List Value}
    {n : Nat} (hn : n < a.sp) :
    Follows (enter id fn free n) (enter id fn free n) a b fun _ a' b' =>
      Twin whole k before a' b' ∧ 0 < a'.sp := by
  have hfits : a.sp ≤ a.stack.size := h.fits
  unfold Exec.enter
  dsimp only
  by_cases hparams : n ≠ fn.params
  · rw [if_pos hparams]
    exact .bind .raise
  rw [if_neg hparams]
  refine .get ?_
  rw [h.maxFrames, h.callers_size, h.sp, h.size]
  by_cases hframes : a.maxFrames ≤ a.callers.size + 1
  · rw [if_pos hframes]
    exact .bind .raise
  rw [if_neg hframes]
  by_cases hroom : a.stack.size < a.sp - n + fn.locals
  · rw [if_pos hroom]
    exact .bind .raise
  rw [if_neg hroom, Nat.sub_add_cancel (Nat.le_of_lt hn)]
  refine .modify ⟨{ h with fits := ?_, sp := rfl, size := ?_, live := ?_, frames := ?_ }, ?_⟩
  · rw [Fits, size_clear]
    exact Nat.not_lt.1 hroom
  · rw [size_clear, size_clear, h.size]
  · have hcleared := take_clear h.fits (Nat.le_of_lt hn) (Nat.not_lt.1 hroom)
    have hfits' : b.Fits := by rw [Fits, h.sp, h.size]; exact h.fits
    have hcleared' := take_clear (n := n) (l := fn.locals) hfits' (by rw [h.sp]; omega)
      (by rw [h.sp, h.size]; omega)
    rw [h.sp, h.live] at hcleared'
    exact hcleared'.trans hcleared.symm
  · have hframes : Aligned whole.code k (_ :: a.frames) (_ :: b.frames) :=
      .inner (f := ⟨fn, id, free, 0, a.sp - n⟩) h.frames
    simpa [Machine.frames] using hframes
  · change 0 < a.sp - n + fn.locals
    omega

theorem Twin.calls [Casing] (h : Twin whole k before a b) (n : Nat) :
    Follows (call n) (call n) a b fun _ a' b' => Twin whole k before a' b' ∧ 0 < a'.sp := by
  refine .get ?_
  by_cases hn : a.sp < n + 1
  · rw [if_pos hn]
    exact .crash
  rw [if_neg hn, if_neg (by rwa [h.sp])]
  have hsame : b.stack[b.sp - 1 - n]? = a.stack[a.sp - 1 - n]? := by
    rw [h.sp, h.getElem?_stack (by omega)]
  rw [hsame]
  cases a.stack[a.sp - 1 - n]? with
  | none => exact .crash
  | some callee =>
    cases callee with
    | closure id fn free =>
      cases fn with
      | none => exact .crash
      | some fn => exact h.enter (by omega)
    | builtin native =>
      cases native with
      | known builtin =>
        refine .bind (h.top fun args _ => .bind (.modify (Twin.pushes ?_ _)))
        rw [h.sp]
        have hdropped := h.dropped (n := a.sp - n - 1) (by omega)
        exact { hdropped with output := congrArg (_ :: ·) h.output }
      | _ => exact .raise
    | noClosure => exact .crash
    | _ => exact .raise

/-- A return from the main code goes to the end of the code, with the value popped last. -/
theorem Twin.leave_main (h : Twin whole k before a b) (v : Value) (hcallers : a.callers = #[])
    (hsize : whole.code.size = a.frame.fn.code.size + k) :
    Follows (leave v) (leave v) a b fun _ a' b' =>
      Twin whole k before a' b' ∧ b'.lastPopped = a'.lastPopped := by
  obtain ⟨-, hcallers', hframe, -⟩ | ⟨hinner, -⟩ := h.cases_frame
  swap
  · exact absurd hcallers hinner
  refine .get ?_
  rw [hcallers, hcallers', hframe]
  -- The value is pushed and dropped, so it stands where the value popped last is read.
  refine .bind (h.push ?_)
  intro a₁ b₁ htwin ha hb hlive hva hvb
  have hsp : a₁.sp - 1 = a.sp := by
    rw [← htwin.fits.length_live, hlive, List.length_append, h.fits.length_live]
    rfl
  refine .bind (.modify (.modify ?_))
  rw [htwin.sp, hsp]
  constructor
  · have hgone := htwin.go a.frame.fn.code.size
    rw [drift_main (ha.callers.trans hcallers), ← hsize] at hgone
    have hle : a.sp ≤ a₁.sp := by omega
    exact hgone.dropped hle
  · rw [h.sp] at hvb
    exact congrArg (Option.getD · .null) (hvb.trans hva.symm)

/-- A return from a function drops its frame, and leaves the value in the caller. -/
theorem Twin.leave_inner (h : Twin whole k before a b) (v : Value) (hcallers : a.callers ≠ #[])
    (hbase : a.frame.base ≤ a.sp) :
    Follows (leave v) (leave v) a b fun _ a' b' => Twin whole k before a' b' ∧ 0 < a'.sp := by
  obtain ⟨hmain, -⟩ | ⟨-, hframe, hrest⟩ := h.cases_frame
  · exact absurd hmain hcallers
  refine .get ?_
  cases hback : a.callers.back? with
  | none => exact absurd (Array.back?_eq_none_iff.1 hback) hcallers
  | some caller =>
    cases hback' : b.callers.back? with
    | none =>
      have hempty := h.callers_size
      rw [Array.back?_eq_none_iff.1 hback'] at hempty
      exact absurd (Array.size_eq_zero_iff.1 hempty.symm) hcallers
    | some caller' =>
      obtain ⟨callers, hpush⟩ := Array.back?_eq_some_iff.1 hback
      obtain ⟨callers', hpush'⟩ := Array.back?_eq_some_iff.1 hback'
      rw [hpush, hpush', Array.toList_push, Array.toList_push, List.reverse_append,
        List.reverse_append] at hrest
      refine .bind (.modify (Twin.pushes ?_ v))
      rw [hframe, hpush, hpush', Array.pop_push, Array.pop_push]
      have hdropped := h.dropped (n := a.frame.base - 1) (by omega)
      exact { hdropped with frames := hrest }

/-! ### Steps -/

/-- After an instruction that has been fetched, the value popped last is the same on both machines,
or there is more to come: an instruction, or values on the stack. -/
def Alike (i : Instr) (m a b : Machine) : Prop :=
  b.lastPopped = a.lastPopped ∨ a.running = true ∨ ¬(i.Returns ∧ m.callers = #[]) ∧ 0 < a.sp

theorem Fetched.follows_leave {m m₁ : Machine} (hfetched : m.Fetched i m₁)
    (htwin : Twin whole k before m₁ b) (v : Value) (hbase : m.frame.base ≤ m₁.sp)
    (hsize : m.callers = #[] → whole.code.size = m.frame.fn.code.size + k) :
    Follows (leave v) (leave v) m₁ b fun _ a' b' =>
      Twin whole k before a' b' ∧ Alike i m a' b' := by
  by_cases hcallers : m.callers = #[]
  · have hsize₁ : whole.code.size = m₁.frame.fn.code.size + k := by
      rw [hfetched.frame]
      exact hsize hcallers
    exact (htwin.leave_main v (hfetched.callers.trans hcallers) hsize₁).mono
      fun _ _ _ h => ⟨h.1, .inl h.2⟩
  · have hcallers₁ : m₁.callers ≠ #[] := by rwa [hfetched.callers]
    have hbase₁ : m₁.frame.base ≤ m₁.sp := by
      rw [hfetched.frame]
      exact hbase
    exact (htwin.leave_inner v hcallers₁ hbase₁).mono
      fun _ _ _ h => ⟨h.1, .inr (.inr ⟨fun hreturns => hcallers hreturns.2, h.2⟩)⟩

/-- A legal instruction does the same on both machines. -/
theorem Ready.follows [Casing] {P : Array Value} {G : Nat} {m m₁ : Machine} {is : List Instr}
    {depth : Nat → Nat} {inside : Bool} (h : Ready P G m i is depth inside)
    (hfetched : m.Fetched i m₁) (hlive : m₁.live = m.live) (htwin : Twin whole k before m₁ b)
    (hself : i.op = .currentClosure → b.frame = m₁.frame)
    (hsize : i.Returns → m.callers = #[] → whole.code.size = m.frame.fn.code.size + k) :
    Follows (exec i) (exec (i.shift (m₁.drift k))) m₁ b fun _ a' b' =>
      Twin whole k before a' b' ∧ Alike i m a' b' := by
  have hsame {x y : Exec Unit} (hx : Follows x y m₁ b fun _ a' b' =>
      Twin whole k before a' b' ∧ b'.lastPopped = a'.lastPopped) :
      Follows x y m₁ b fun _ a' b' => Twin whole k before a' b' ∧ Alike i m a' b' :=
    hx.mono fun _ _ _ h => ⟨h.1, .inl h.2⟩
  have hmore (hreturns : ¬i.Returns) {x y : Exec Unit} (hx : Follows x y m₁ b fun _ a' b' =>
      Twin whole k before a' b' ∧ 0 < a'.sp) :
      Follows x y m₁ b fun _ a' b' => Twin whole k before a' b' ∧ Alike i m a' b' :=
    hx.mono fun _ _ _ h => ⟨h.1, .inr (.inr ⟨fun hmain => hreturns hmain.1, h.2⟩)⟩
  have hyields (hcall : i.op ≠ .call) (hclosure : i.op ≠ .closure) (hgives : i.gives = 1)
      (hreturns : ¬i.Returns) (htarget : i.target? = none) :
      Follows (exec i) (exec (i.shift (m₁.drift k))) m₁ b fun _ a' b' =>
        Twin whole k before a' b' ∧ Alike i m a' b' := by
    obtain ⟨S, args, -, hargs, -, -, hevery⟩ := h.split
    obtain ⟨r, hr⟩ := h.exists_yields hfetched hlive hcall hclosure hgives hargs hevery
    rw [Instr.shift_eq htarget]
    exact hmore hreturns (htwin.yields hself hr)
  cases h.legal with
  | const => exact hyields nofun nofun rfl nofun rfl
  | closure _ _ _ => exact hmore nofun (htwin.closes _ _)
  | global hop _ =>
    obtain rfl | rfl := hop
    · exact hyields nofun nofun rfl nofun rfl
    · exact hsame (htwin.setGlobal _)
  | «local» hop _ =>
    obtain rfl | rfl := hop
    · exact hyields nofun nofun rfl nofun rfl
    · exact hsame (htwin.setLocal _)
  | free => exact hyields nofun nofun rfl nofun rfl
  | self => exact hyields nofun nofun rfl nofun rfl
  | builtin => exact hyields nofun nofun rfl nofun rfl
  | count hop _ =>
    obtain rfl | rfl := hop
    · exact hyields nofun nofun rfl nofun rfl
    · exact hyields nofun nofun rfl nofun rfl
  | @jump _ t hop _ =>
    obtain rfl | rfl := hop
    · obtain ⟨-, hlands, -⟩ := h.flows.jumps t rfl
      refine (htwin.jump t).mono fun _ a' _ hjump => ⟨hjump.1, .inr (.inl ?_)⟩
      have hlt := hlands.lt
      rw [Nat.zero_add, ← Code.size_ofInstrs, ← h.executes.code] at hlt
      rw [running, hjump.2, hfetched.frame]
      exact decide_eq_true hlt
    · exact hsame (htwin.jumpIfFalse t)
  | call => exact hmore (by simp [Instr.Returns]) (htwin.calls _)
  | @plain op hop hself' =>
    have hheight := h.position.2
    by_cases hpop : op = .pop
    · subst hpop
      exact hsame (htwin.pops _)
    by_cases hvalue : op = .returnValue
    · subst hvalue
      refine .bind (htwin.pop ?_)
      intro v a' b' htwin' hagrees _ hlive' _
      have hsp := htwin'.fits.length_live
      have hlength := congrArg List.length (hlive.symm.trans hlive')
      rw [List.length_append, List.length_singleton] at hlength
      have htakes : 1 ≤ depth m.frame.next := h.flows.takes
      exact (hfetched.agrees hagrees).follows_leave htwin' v (by omega) (hsize (.inl rfl))
    by_cases hret : op = .ret
    · subst hret
      have hsp := htwin.fits.length_live
      rw [hlive] at hsp
      exact hfetched.follows_leave htwin .null (by omega) (hsize (.inr rfl))
    obtain ⟨hgives, -, hcall, hclosure⟩ := Instr.gives_plain hop hpop hvalue hret
    exact hyields hcall hclosure hgives (fun hreturns => hreturns.elim hvalue hret)
      (Instr.target?_nil op)

/-- Without a limit, a step executes the instruction that stands at the offset reached. -/
theorem step_eq [Casing] {m : Machine} (hlimit : m.limit = 0)
    (hfetch : m.frame.fn.code.fetch m.frame.next = some (.instr i)) :
    ∃ m₁, step m = exec i m₁ ∧ (m.advance (m.frame.next + i.op.size)).Agrees m₁ ∧ m₁.sp = m.sp ∧
      m₁.stack = m.stack := by
  have hover : ¬m.Exhausted := fun hover => Nat.ne_of_gt hover.1 hlimit
  exact step_eq_exec hover hfetch

theorem Twin.next_eq (h : Twin whole k before a b) : b.frame.next = a.frame.next + a.drift k := by
  obtain ⟨hcallers, -, hframe, -⟩ | ⟨hcallers, hframe, -⟩ := h.cases_frame
  · rw [hframe, drift_main hcallers]
    rfl
  · rw [hframe, drift_inner hcallers, Nat.add_zero]

theorem Twin.advance (h : Twin whole k before a b) (o : Nat) :
    Twin whole k before (a.advance o) (b.advance (o + a.drift k)) :=
  { h with frames := (h.go o).frames }

/-- What a machine fetches, its twin fetches, with jumps in main code moved along. -/
theorem Twin.fetch (h : Twin whole k before a b)
    (hfetch : a.frame.fn.code.fetch a.frame.next = some (.instr i))
    (hwalk : (a.frame.next, .instr i) ∈ a.frame.fn.code.walk) :
    b.frame.fn.code.fetch b.frame.next = some (.instr (i.shift (a.drift k))) := by
  obtain ⟨hcallers, -, hframe, hcode⟩ | ⟨hcallers, hframe, -⟩ := h.cases_frame
  · rw [hframe, drift_main hcallers]
    exact hcode.fetch _ _ hwalk
  · rw [hframe, drift_inner hcallers, Instr.shift_zero, hfetch]

/-- A step of a safe machine is a step of its twin. -/
theorem Twin.step [Casing] {P : Array Value} {G : Nat} (h : Twin whole k before a b)
    (hok : a.Ok P G) (hpool : PoolOk P G) (hrunning : a.running = true)
    (hfetch : a.frame.fn.code.fetch a.frame.next = some (.instr i))
    (hsize : i.Returns → a.callers = #[] → whole.code.size = a.frame.fn.code.size + k) :
    Follows Machine.step Machine.step a b fun _ a' b' =>
      Twin whole k before a' b' ∧ Alike i a a' b' := by
  obtain ⟨j, is, depth, inside, hready, hj, hwalk⟩ := hok.ready hpool hrunning
  obtain rfl : j = i := by simpa [hfetch] using hj.symm
  obtain ⟨a₁, hstep, ha, hsp, hstack⟩ := step_eq h.limit hfetch
  obtain ⟨b₁, hstep', hb, hsp', hstack'⟩ := step_eq h.limit_twin (h.fetch hfetch hwalk)
  have hdrift : a₁.drift k = a.drift k := by
    rw [drift, ha.callers]
    rfl
  have hlive : a₁.live = a.live := by rw [Machine.live, hsp, hstack, Machine.live]
  have htwin : Twin whole k before a₁ b₁ := by
    rw [Instr.shift_op, h.next_eq, Nat.add_right_comm] at hb
    refine (h.advance (a.frame.next + j.op.size)).restack ha hb ?_ ?_ ?_
    · rw [Fits, hsp, hstack]
      exact h.fits
    · rw [hsp, hsp', h.sp]
    · rw [hlive, Machine.live, hsp', hstack']
      exact h.live
  refine .congr hstep hstep' ?_
  rw [← hdrift]
  refine hready.follows ⟨ha.frame, ha.callers, ha.constants, ha.maxFrames, ha.limit, ha.size⟩ hlive
    htwin ?_ hsize
  intro hself
  obtain ⟨-, -, -, hcode⟩ | ⟨hcallers, hframe, -⟩ := h.cases_frame
  · exact absurd hself (hcode.plain _ _ hwalk)
  · rw [ha.frame, hb.frame, Machine.advance, Machine.advance, hframe, Instr.shift_op]

end Machine

end StackScript
