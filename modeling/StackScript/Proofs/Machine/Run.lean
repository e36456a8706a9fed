import Mathlib.Data.Nat.Find
import Mathlib.Data.Set.Card
import StackScript.Proofs.Machine.SafeStep

/-!
# Runs of safe machines

A safe machine runs without a crash, and every run ends. Jumps go forward, so a
function that has been called executes each of its instructions at most once,
and only so many calls may be in progress at a time. An instruction costs itself
and all that a call may execute with one frame less.

## Main definitions

* `Machine.dispatch`: the machine at an instruction of its run.
* `Machine.SameActivation`: instructions that one call of a function executes.
* `Machine.callCost`: a bound on what a call executes.

## Main results

* `Machine.Ok.runFor`: what a run of a safe machine ends in.
* `Machine.Ok.halts`: a run ends after so many instructions.
* `Machine.Ok.offset_lt`, `Machine.Ok.activation_le`: a call executes its code in order.
-/

namespace StackScript

namespace Machine

/-! ### The instructions of a run -/

/-- The machine after its next instruction, if it then has another one to execute. -/
def next? [Casing] (m : Machine) : Option Machine :=
  match step m with
  | .ok _ m' => if m'.running then some m' else none
  | .error _ _ => none

/-- The machine that is about to execute the instruction with number `n` of its run. -/
def dispatch [Casing] (m : Machine) : Nat → Option Machine
  | 0 => if m.running then some m else none
  | n + 1 => (m.dispatch n).bind next?

variable {m m' : Machine} {n : Nat}

theorem dispatch_of_not_running [Casing] (h : ¬m.running = true) (n : Nat) :
    m.dispatch n = none := by
  induction n with
  | zero => rw [dispatch, if_neg h]
  | succ n ih => rw [dispatch, ih, Option.bind_none]

theorem dispatch_of_error [Casing] {stop : Stop} (h : step m = .error stop m') (n : Nat) :
    m.dispatch (n + 1) = none := by
  induction n with
  | zero =>
    by_cases hrunning : m.running = true
    · rw [dispatch, dispatch, if_pos hrunning, Option.bind_some, next?, h]
    · exact dispatch_of_not_running hrunning 1
  | succ n ih => rw [dispatch, ih, Option.bind_none]

theorem dispatch_of_ok [Casing] {u : Unit} (hrunning : m.running = true) (h : step m = .ok u m')
    (n : Nat) :
    m.dispatch (n + 1) = m'.dispatch n := by
  induction n with
  | zero => rw [dispatch, dispatch, dispatch, if_pos hrunning, Option.bind_some, next?, h]
  | succ n ih => rw [dispatch, ih, dispatch]

theorem dispatch_none_of_le [Casing] {j k : Nat} (h : m.dispatch j = none) (hle : j ≤ k) :
    m.dispatch k = none := by
  induction k, hle using Nat.le_induction with
  | base => exact h
  | succ k _ ih => rw [dispatch, ih, Option.bind_none]

/-- A run is not finished if there is an instruction with the number of those it was allowed. -/
theorem runFor_unfinished_iff [Casing] (fuel : Nat) (m : Machine) :
    (runFor fuel m).1 = .unfinished ↔ m.dispatch fuel ≠ none := by
  induction fuel generalizing m with
  | zero =>
    rw [runFor, dispatch]
    by_cases hrunning : m.running = true
    · simp [hrunning]
    · simp [hrunning]
  | succ fuel ih =>
    rw [runFor]
    by_cases hrunning : m.running = true
    · rw [if_pos hrunning]
      cases hstep : step m with
      | ok u m' =>
        rw [dispatch_of_ok hrunning hstep]
        exact ih m'
      | error stop m' => simp [dispatch_of_error hstep]
    · simp [hrunning, dispatch_of_not_running]

theorem runFor_of_not_running [Casing] (h : ¬m.running = true) (fuel : Nat) :
    m.runFor fuel = (.finished, m) := by
  cases fuel with
  | zero => rw [runFor, if_neg h]
  | succ fuel => rw [runFor, if_neg h]

/-- A run that has ended would not go on if it was allowed to. -/
theorem runFor_eq [Casing] {fuel fuel' : Nat} (h : (runFor fuel m).1 ≠ .unfinished)
    (hle : fuel ≤ fuel') :
    runFor fuel' m = runFor fuel m := by
  induction fuel generalizing m fuel' with
  | zero =>
    have hstopped : ¬m.running = true := by
      intro hrunning
      exact h (by rw [runFor, if_pos hrunning])
    rw [runFor_of_not_running hstopped, runFor_of_not_running hstopped]
  | succ fuel ih =>
    obtain ⟨fuel', rfl⟩ : ∃ k, fuel' = k + 1 := ⟨fuel' - 1, by omega⟩
    by_cases hrunning : m.running = true
    · rw [runFor, if_pos hrunning] at h ⊢
      rw [runFor, if_pos hrunning]
      cases hstep : step m with
      | ok u m' =>
        rw [hstep] at h
        exact ih h (by omega)
      | error stop m' => rfl
    · rw [runFor_of_not_running hrunning, runFor_of_not_running hrunning]

/-- A run that is stopped has an instruction that stops it. -/
theorem exists_stop [Casing] {fuel : Nat} {stop : Stop} (h : (runFor fuel m).1 = .stopped stop) :
    ∃ n m₁ m₂, m.dispatch n = some m₁ ∧ step m₁ = .error stop m₂ := by
  induction fuel generalizing m with
  | zero =>
    rw [runFor] at h
    split at h <;> cases h
  | succ fuel ih =>
    rw [runFor] at h
    by_cases hrunning : m.running = true
    · rw [if_pos hrunning] at h
      cases hstep : step m with
      | ok u m' =>
        rw [hstep] at h
        obtain ⟨n, m₁, m₂, hn, hstop⟩ := ih h
        exact ⟨n + 1, m₁, m₂, by rw [dispatch_of_ok hrunning hstep, hn], hstop⟩
      | error stop' m' =>
        rw [hstep] at h
        cases h
        exact ⟨0, m, m', if_pos hrunning, hstep⟩
    · rw [if_neg hrunning] at h
      cases h

/-! ### Safety -/

variable {P : Array Value} {G : Nat}

theorem Keeps.trans {m₁ m₂ m₃ : Machine} (h : m₁.Keeps m₂) (h' : m₂.Keeps m₃) : m₁.Keeps m₃ :=
  ⟨h'.maxFrames.trans h.maxFrames, h'.limit.trans h.limit, h'.store.trans h.store,
    h'.stack.trans h.stack⟩

/-- How a run of a safe machine may end. -/
structure Ended (P : Array Value) (G : Nat) (m : Machine) (ending : Ending) (m' : Machine) :
    Prop where
  safe : ending ≠ .stopped .crash
  known : ∀ e, ending = .stopped (.fault e) → e.fault.Known G m.globals.size
  globals : ∀ v ∈ m'.globals, v.Every (ClosureOk P)
  keeps : m.Keeps m'

theorem Ended.of_running {ending : Ending} (h : m.Ok P G) (hending : ∀ stop, ending ≠ .stopped stop) :
    Ended P G m ending m :=
  ⟨hending _, fun _ he => absurd he (hending _), h.globals, rfl, rfl, rfl, rfl⟩

theorem Ended.after {m'' : Machine} {ending : Ending} (hkeeps : m.Keeps m')
    (h : Ended P G m' ending m'') : Ended P G m ending m'' := by
  refine ⟨h.safe, ?_, h.globals, hkeeps.trans h.keeps⟩
  rw [← hkeeps.store]
  exact h.known

/-- A run of a safe machine does not crash, whether it comes to its end or not. -/
theorem Ok.runFor [Casing] (hpool : PoolOk P G) (fuel : Nat)
    (h : m.Ok P G) : Ended P G m (runFor fuel m).1 (runFor fuel m).2 := by
  induction fuel generalizing m with
  | zero =>
    rw [Machine.runFor]
    refine .of_running h ?_
    intro stop
    split <;> nofun
  | succ fuel ih =>
    rw [Machine.runFor]
    by_cases hrunning : m.running = true
    · rw [if_pos hrunning]
      have hstep := h.step hpool hrunning
      cases hresult : Machine.step m with
      | ok u m' =>
        have hstepped := hstep.of_ok hresult
        exact .after hstepped.keeps (ih hstepped.ok)
      | error stop m' =>
        cases stop with
        | crash => exact absurd hresult hstep.ne_crash
        | fault e =>
          have hfailed := hstep.of_fault hresult
          refine ⟨nofun, ?_, hfailed.globals, hfailed.keeps⟩
          rintro _ ⟨⟩
          exact hfailed.known
    · rw [if_neg hrunning]
      exact .of_running h nofun

theorem Ok.next [Casing] (h : m.Ok P G) (hpool : PoolOk P G)
    (hrunning : m.running = true) (hnext : m.next? = some m') :
    Stepped P G m m' ∧ m'.running = true := by
  have hstep := h.step hpool hrunning
  unfold next? at hnext
  split at hnext
  · next hresult =>
    split at hnext
    · next hrunning' =>
      obtain rfl := Option.some.inj hnext
      exact ⟨hstep.of_ok hresult, hrunning'⟩
    · cases hnext
  · cases hnext

/-- A safe machine is safe all along its run. -/
theorem Ok.dispatch [Casing] (h : m.Ok P G) (hpool : PoolOk P G)
    (hn : m.dispatch n = some m') : m'.Ok P G ∧ m'.running = true ∧ m.Keeps m' := by
  induction n generalizing m' with
  | zero =>
    rw [Machine.dispatch] at hn
    split at hn
    · next hrunning =>
      obtain rfl := Option.some.inj hn
      exact ⟨h, hrunning, rfl, rfl, rfl, rfl⟩
    · cases hn
  | succ n ih =>
    obtain ⟨m₁, hm₁, hnext⟩ := Option.bind_eq_some_iff.1 hn
    obtain ⟨hok, hrunning, hkeeps⟩ := ih hm₁
    obtain ⟨hstepped, hrunning'⟩ := hok.next hpool hrunning hnext
    exact ⟨hstepped.ok, hrunning', hkeeps.trans hstepped.keeps⟩

/-- A run that ends in a fault has an instruction that fails. -/
theorem Ok.exists_failed [Casing] (h : m.Ok P G) (hpool : PoolOk P G) {fuel : Nat}
    {e : RuntimeError} (hrun : (m.runFor fuel).1 = .stopped (.fault e)) :
    ∃ n m₁ m₂, m.dispatch n = some m₁ ∧ Failed P G m₁ e.fault m₂ := by
  obtain ⟨n, m₁, m₂, hn, hstep⟩ := exists_stop hrun
  obtain ⟨hok, hrunning, -⟩ := h.dispatch hpool hn
  exact ⟨n, m₁, m₂, hn, (hok.step hpool hrunning).of_fault hstep⟩

end Machine

/-! ### What is left to execute -/

/-- The number of instructions from where the frame stands. -/
def Frame.left (f : Frame) : Nat := f.fn.code.walk.countP fun e => f.next ≤ e.1

namespace Frame

variable {f : Frame} {x : Code.Fetched}

theorem left_le (f : Frame) : f.left ≤ f.fn.code.walk.length := List.countP_le_length

theorem left_lt (h : (f.next, x) ∈ f.fn.code.walk) {n : Nat} (hn : f.next < n) :
    { f with next := n }.left < f.left := by
  obtain ⟨before, after, hwalk⟩ := List.append_of_mem h
  have hmono (es : List (Nat × Code.Fetched)) :
      es.countP (fun e => n ≤ e.1) ≤ es.countP (fun e => f.next ≤ e.1) := by
    apply List.countP_mono_left
    intro e _ he
    simp only [decide_eq_true_eq] at he ⊢
    omega
  have hbefore := hmono before
  have hafter := hmono after
  have hhere : ¬n ≤ f.next := Nat.not_le.2 hn
  simp only [left, hwalk, List.countP_append, List.countP_cons, hhere, decide_false,
    Nat.le_refl, decide_true, if_true, Bool.false_eq_true, if_false]
  omega

theorem left_pos (h : (f.next, x) ∈ f.fn.code.walk) : 0 < f.left :=
  Nat.lt_of_le_of_lt (Nat.zero_le _) (left_lt h (Nat.lt_succ_self _))

end Frame

namespace Machine

variable {P : Array Value} {G C F h h' : Nat} {m m' : Machine} {fs fs' : List Frame}

/-- The most instructions that a call executes when it may use `k` frames, if no code has more
than `C`. -/
def callCost (C : Nat) : Nat → Nat
  | 0 => 0
  | k + 1 => C * (1 + callCost C k)

/-- The most instructions that the frames, from the inside out, still execute if there may be `F`
of them: what is left of each, and for each instruction a call. -/
def owed (C F : Nat) : List Frame → Nat
  | [] => 0
  | f :: callers => f.left * (1 + callCost C (F - (callers.length + 1))) + owed C F callers

/-- Every step lowers what is owed. -/
theorem Moves.owed_lt (hmoves : Moves P h fs h' fs')
    (hhead : ∀ f ∈ fs.head?, ∃ x, (f.next, x) ∈ f.fn.code.walk)
    (hcode : ∀ f, .function (some f) ∈ P → f.code.walk.length ≤ C) (hdepth : fs'.length ≤ F) :
    owed C F fs' < owed C F fs := by
  cases hmoves with
  | @goes _ f n callers hn =>
    obtain ⟨x, hx⟩ := hhead f rfl
    have hlt := Frame.left_lt hx hn
    have hcost := Nat.mul_lt_mul_of_pos_right hlt
      (Nat.add_pos_left Nat.one_pos (callCost C (F - (callers.length + 1))))
    simp only [owed]
    omega
  | @calls f g n callers hn hg =>
    obtain ⟨x, hx⟩ := hhead f rfl
    have hlt := Frame.left_lt hx hn
    have hle : g.left ≤ C := Nat.le_trans g.left_le (hcode g.fn hg)
    simp only [List.length_cons] at hdepth
    -- The caller pays for the call with one of its instructions.
    obtain ⟨k, hk⟩ : ∃ k, F - (callers.length + 1) = k + 1 :=
      ⟨F - (callers.length + 1) - 1, by omega⟩
    have hk' : F - (callers.length + 1 + 1) = k := by omega
    have hcall : g.left * (1 + callCost C k) ≤ callCost C (k + 1) := Nat.mul_le_mul_right _ hle
    have hcaller := Nat.mul_le_mul_right (1 + callCost C (k + 1)) (Nat.succ_le_of_lt hlt)
    rw [Nat.succ_mul] at hcaller
    simp only [owed, List.length_cons, hk, hk']
    omega
  | @returns f caller callers =>
    obtain ⟨x, hx⟩ := hhead f rfl
    have hpos : 0 < f.left * (1 + callCost C (F - (callers.length + 1 + 1))) :=
      Nat.mul_pos (Frame.left_pos hx) (Nat.add_pos_left Nat.one_pos _)
    simp only [owed, List.length_cons]
    omega

theorem Ok.depth_le (h : m.Ok P G) : m.frames.length ≤ m.maxFrames := by
  rw [frames, List.length_cons, List.length_reverse, Array.length_toList]
  exact h.depth

theorem Ok.mem_walk (h : m.Ok P G) (hpool : PoolOk P G) (hrunning : m.running = true) :
    ∃ x, (m.frame.next, x) ∈ m.frame.fn.code.walk := by
  obtain ⟨i, -, -, -, -, -, hwalk⟩ := h.ready hpool hrunning
  exact ⟨.instr i, hwalk⟩

/-- What has been executed and what is still owed is no more than was owed at the start. -/
theorem Ok.owed_dispatch [Casing] (h : m.Ok P G) (hpool : PoolOk P G)
    (hcode : ∀ f, .function (some f) ∈ P → f.code.walk.length ≤ C) {n : Nat}
    (hn : m.dispatch n = some m') : n + owed C m.maxFrames m'.frames ≤ owed C m.maxFrames m.frames := by
  induction n generalizing m' with
  | zero =>
    rw [Machine.dispatch] at hn
    split at hn
    · obtain rfl := Option.some.inj hn
      exact Nat.le_of_eq (Nat.zero_add _)
    · cases hn
  | succ n ih =>
    obtain ⟨m₁, hm₁, hnext⟩ := Option.bind_eq_some_iff.1 hn
    obtain ⟨hok, hrunning, hkeeps⟩ := h.dispatch hpool hm₁
    obtain ⟨hstepped, -⟩ := hok.next hpool hrunning hnext
    have hdepth : m'.frames.length ≤ m.maxFrames := by
      rw [← hkeeps.maxFrames, ← hstepped.keeps.maxFrames]
      exact hstepped.ok.depth_le
    have hlt := hstepped.moves.owed_lt (C := C) (F := m.maxFrames) ?_ hcode hdepth
    · have hle := ih hm₁
      omega
    · rintro f ⟨⟩
      exact hok.mem_walk hpool hrunning

/-- A run of a safe machine is over when it has executed what was owed. -/
theorem Ok.dispatch_none [Casing] (h : m.Ok P G) (hpool : PoolOk P G)
    (hcode : ∀ f, .function (some f) ∈ P → f.code.walk.length ≤ C) {n : Nat}
    (hn : owed C m.maxFrames m.frames ≤ n) : m.dispatch n = none := by
  rw [Option.eq_none_iff_forall_ne_some]
  intro m' hm'
  have hle := h.owed_dispatch hpool hcode hm'
  obtain ⟨hok, hrunning, -⟩ := h.dispatch hpool hm'
  obtain ⟨x, hx⟩ := hok.mem_walk hpool hrunning
  have hpos : 0 < owed C m.maxFrames m'.frames := by
    rw [frames, owed]
    exact Nat.add_pos_left (Nat.mul_pos (Frame.left_pos hx) (Nat.add_pos_left Nat.one_pos _)) _
  omega

/-- A safe machine executes a certain number of instructions, and then its run is over. -/
theorem Ok.halts [Casing] (h : m.Ok P G) (hpool : PoolOk P G)
    (hcode : ∀ f, .function (some f) ∈ P → f.code.walk.length ≤ C) :
    ∃ n, n ≤ owed C m.maxFrames m.frames ∧ (∀ k, m.dispatch k ≠ none ↔ k < n) ∧
      ∀ fuel, n ≤ fuel → (Machine.runFor fuel m).1 ≠ .unfinished ∧
        Machine.runFor fuel m = Machine.runFor n m := by
  classical
  have hends := h.dispatch_none hpool hcode (Nat.le_refl _)
  have hover : ∃ n, m.dispatch n = none := ⟨_, hends⟩
  have hfind := Nat.find_spec hover
  refine ⟨Nat.find hover, Nat.find_min' hover hends, ?_, ?_⟩
  · intro k
    constructor
    · intro hk
      by_contra hle
      exact hk (dispatch_none_of_le hfind (Nat.not_lt.1 hle))
    · exact Nat.find_min hover
  · intro fuel hfuel
    have hfinished : (Machine.runFor (Nat.find hover) m).1 ≠ .unfinished := by
      rw [ne_eq, runFor_unfinished_iff]
      exact not_not.2 hfind
    have heq := runFor_eq hfinished hfuel
    rw [heq]
    exact ⟨hfinished, rfl⟩

/-! ### Activations -/

/-- One call of a function executes the instructions with numbers `j` and `k` of a run: as many
functions have not returned, and no function below it has executed an instruction in between. -/
def SameActivation [Casing] (m : Machine) (j k : Nat) : Prop :=
  j ≤ k ∧ ∃ mj mk, m.dispatch j = some mj ∧ m.dispatch k = some mk ∧
    mk.frames.length = mj.frames.length ∧
    ∀ i mi, j ≤ i → i ≤ k → m.dispatch i = some mi → mj.frames.length ≤ mi.frames.length

/-- A step leaves the frames below the current one alone, and a frame that is the current one goes
on, unless it returns. -/
theorem Moves.below {f : Frame} {inner callers : List Frame}
    (hmoves : Moves P h (inner ++ f :: callers) h' fs') (hlength : callers.length < fs'.length) :
    ∃ inner' n, fs' = inner' ++ { f with next := n } :: callers ∧ f.next ≤ n ∧
      (inner = [] → f.next < n) := by
  cases inner with
  | nil =>
    cases hmoves with
    | @goes _ _ n _ hn => exact ⟨[], n, rfl, Nat.le_of_lt hn, fun _ => hn⟩
    | @calls _ g n _ hn => exact ⟨[g], n, rfl, Nat.le_of_lt hn, fun _ => hn⟩
    | returns => exact absurd hlength (Nat.lt_irrefl _)
  | cons a inner =>
    generalize hfs : a :: inner ++ f :: callers = fs at hmoves
    cases hmoves with
    | @goes _ _ n _ _ =>
      obtain ⟨rfl, rfl⟩ := List.cons.inj hfs
      exact ⟨{ a with next := n } :: inner, f.next, rfl, Nat.le_refl _, nofun⟩
    | @calls _ g n _ _ _ =>
      obtain ⟨rfl, rfl⟩ := List.cons.inj hfs
      exact ⟨g :: { a with next := n } :: inner, f.next, rfl, Nat.le_refl _, nofun⟩
    | returns =>
      obtain ⟨rfl, hrest⟩ := List.cons.inj hfs
      exact ⟨inner, f.next, hrest.symm, Nat.le_refl _, nofun⟩

/-- As long as a function has not returned, its frame is among the frames, further on in its
code. -/
theorem Ok.frame_below [Casing] (h : m.Ok P G) (hpool : PoolOk P G) {j : Nat} {mj : Machine}
    (hj : m.dispatch j = some mj) (d : Nat) (hd : m.dispatch (j + d) = some m')
    (hbetween : ∀ i mi, j ≤ i → i ≤ j + d → m.dispatch i = some mi →
      mj.frames.length ≤ mi.frames.length) :
    ∃ inner n, m'.frames = inner ++ { mj.frame with next := n } :: mj.callers.toList.reverse ∧
      mj.frame.next ≤ n ∧ (0 < d → mj.frame.next < n) := by
  induction d generalizing m' with
  | zero =>
    rw [Nat.add_zero, hj] at hd
    obtain rfl := Option.some.inj hd
    exact ⟨[], mj.frame.next, rfl, Nat.le_refl _, fun hd => absurd hd (Nat.lt_irrefl 0)⟩
  | succ d ih =>
    obtain ⟨m₁, hm₁, hnext⟩ := Option.bind_eq_some_iff.1 hd
    obtain ⟨hok, hrunning, -⟩ := h.dispatch hpool hm₁
    obtain ⟨hstepped, -⟩ := hok.next hpool hrunning hnext
    obtain ⟨inner, n, hframes, hle, hlt⟩ :=
      ih hm₁ fun i mi hi hid => hbetween i mi hi (by omega)
    have hdepth := hbetween (j + (d + 1)) m' (by omega) (Nat.le_refl _) hd
    have hmoves := hstepped.moves
    rw [hframes] at hmoves
    obtain ⟨inner', n', hframes', hle', hlt'⟩ := hmoves.below (by
      rw [frames, List.length_cons] at hdepth
      omega)
    refine ⟨inner', n', hframes', Nat.le_trans hle hle', fun _ => ?_⟩
    by_cases hzero : d = 0
    · subst hzero
      obtain rfl := Option.some.inj (hj.symm.trans hm₁)
      have hinner : inner = [] := by
        have hlength := congrArg List.length hframes
        simp only [frames, List.length_cons, List.length_append] at hlength
        exact List.eq_nil_of_length_eq_zero (by omega)
      exact Nat.lt_of_le_of_lt hle (hlt' hinner)
    · exact Nat.lt_of_lt_of_le (hlt (Nat.pos_of_ne_zero hzero)) hle'

/-- The offsets of the instructions that one call of a function executes are increasing. -/
theorem Ok.offset_lt [Casing] (h : m.Ok P G) (hpool : PoolOk P G) {j k : Nat} {mj mk : Machine}
    (hsame : m.SameActivation j k) (hlt : j < k) (hj : m.dispatch j = some mj)
    (hk : m.dispatch k = some mk) : mk.frame.fn = mj.frame.fn ∧ mj.frame.next < mk.frame.next := by
  obtain ⟨-, mj', mk', hj', hk', hlength, hbetween⟩ := hsame
  obtain rfl := Option.some.inj (hj'.symm.trans hj)
  obtain rfl := Option.some.inj (hk'.symm.trans hk)
  obtain ⟨d, rfl⟩ := Nat.exists_eq_add_of_lt hlt
  obtain ⟨inner, n, hframes, -, hn⟩ := h.frame_below hpool hj (d + 1) hk hbetween
  have hinner : inner = [] := by
    have hsum := congrArg List.length hframes
    rw [hlength] at hsum
    simp only [frames, List.length_cons, List.length_append] at hsum
    exact List.eq_nil_of_length_eq_zero (by omega)
  rw [hinner, frames] at hframes
  have hframe : mk'.frame = { mj'.frame with next := n } := (List.cons.inj hframes).1
  rw [hframe]
  exact ⟨rfl, hn (Nat.succ_pos d)⟩

theorem SameActivation.between [Casing] {i j k : Nat} (hj : m.SameActivation i j)
    (hk : m.SameActivation i k) (hle : j ≤ k) : m.SameActivation j k := by
  obtain ⟨hij, mi, mj, hi, hmj, hlength, -⟩ := hj
  obtain ⟨-, mi', mk, hi', hmk, hlength', hbetween⟩ := hk
  obtain rfl := Option.some.inj (hi'.symm.trans hi)
  refine ⟨hle, mj, mk, hmj, hmk, by rw [hlength, hlength'], ?_⟩
  intro l ml hjl hlk hl
  rw [hlength]
  exact hbetween l ml (Nat.le_trans hij hjl) hlk hl

/-- One call of a function executes at most as many instructions as its code has. -/
theorem Ok.activation_le [Casing] (h : m.Ok P G) (hpool : PoolOk P G) {j : Nat} {mj : Machine}
    (hj : m.dispatch j = some mj) :
    {k | m.SameActivation j k}.encard ≤ mj.frame.fn.code.walk.length := by
  classical
  let offset (k : Nat) : Nat := (m.dispatch k).elim 0 fun mk => mk.frame.next
  have hlt {k l : Nat} (hk : m.SameActivation j k) (hl : m.SameActivation j l) (hkl : k < l) :
      offset k < offset l := by
    have hsame := hk.between hl (Nat.le_of_lt hkl)
    have ⟨_, m₁, m₂, hm₁, hm₂, _, _⟩ := hsame
    have hoffset := (h.offset_lt hpool hsame hkl hm₁ hm₂).2
    simpa [offset, hm₁, hm₂] using hoffset
  have hinj : Set.InjOn offset {k | m.SameActivation j k} := by
    intro k hk l hl heq
    obtain hkl | rfl | hlk := Nat.lt_trichotomy k l
    · exact absurd heq (Nat.ne_of_lt (hlt hk hl hkl))
    · rfl
    · exact absurd heq.symm (Nat.ne_of_lt (hlt hl hk hlk))
  have hmaps : Set.MapsTo offset {k | m.SameActivation j k}
      ((mj.frame.fn.code.walk.map Prod.fst).toFinset : Set Nat) := by
    intro k hk
    have ⟨hjk, _, m₁, _, hm₁, _, _⟩ := hk
    obtain ⟨hok, hrunning, -⟩ := h.dispatch hpool hm₁
    obtain ⟨x, hx⟩ := hok.mem_walk hpool hrunning
    have hfn : m₁.frame.fn = mj.frame.fn := by
      by_cases heq : j = k
      · subst heq
        rw [Option.some.inj (hm₁.symm.trans hj)]
      · exact (h.offset_lt hpool hk (Nat.lt_of_le_of_ne hjk heq) hj hm₁).1
    rw [hfn] at hx
    simpa [offset, hm₁] using ⟨x, hx⟩
  calc {k | m.SameActivation j k}.encard
      ≤ ((mj.frame.fn.code.walk.map Prod.fst).toFinset : Set Nat).encard :=
        Set.encard_le_encard_of_injOn hmaps hinj
    _ ≤ mj.frame.fn.code.walk.length := by
        rw [Set.encard_coe_eq_coe_finsetCard]
        have hcard := List.toFinset_card_le (mj.frame.fn.code.walk.map Prod.fst)
        rw [List.length_map] at hcard
        exact_mod_cast hcard

end Machine

end StackScript
