import StackScript.Proofs.Machine.Run
import StackScript.Proofs.Session.Reachable
import StackScript.Text.Lower

/-!
# Evaluations

The global variables of a session hold values of the programs before. Closures
among them are of functions that are still among the constants, so a session
starts every source on a safe machine.

## Main definitions

* `Session.start`: the machine that a source is run on.
* `Session.Ok`: sessions in good order.
* `Bytecode.longest`: the number of instructions of the longest code.

## Main results

* `Session.start_ok`: the machine is safe.
* `Session.Reachable.ok`: reachable sessions are in good order.
* `Session.evaluation_halts`: every evaluation ends.
-/

namespace StackScript

namespace Session

/-- The machine that a source is run on. -/
def start (s : Session) (bytecode : Bytecode) : Machine :=
  Machine.load s.config.sizes s.globals bytecode.code bytecode.constants s.fresh s.tracing

/-- Names and constants are in good order, and closures in the global store are of functions among
the constants. -/
structure Ok (s : Session) : Prop where
  context : s.context.Ok
  globals : ∀ v ∈ s.globals, v.Every (ClosureOk s.constants)
  store : s.globals.size = s.config.globalsSize

variable {s : Session} {source : Bytes} {bytecode : Bytecode} {table : Table}

theorem eval_of_compile [Casing] (h : s.compile source = .ok (bytecode, table)) (fuel : Nat) :
    s.eval fuel source =
      let ended := (s.start bytecode).runFor fuel
      (⟨resultOf ended.2 ended.1, ended.2.written, ended.2.trace.reverse⟩,
        { s with
          table := table
          constants := bytecode.constants
          globals := ended.2.globals
          stats := ended.2.stats
          fresh := ended.2.fresh }) := by
  rw [eval_eq, h]
  rfl

theorem eval_of_error [Casing] {e : EvalError} (h : s.compile source = .error e) (fuel : Nat) :
    s.eval fuel source = (⟨.error e, [], []⟩, s) := by
  rw [eval_eq, h]

theorem frames_pos (config : Config) : 0 < config.sizes.frames := by
  change 0 < Config.sizeOr 1024 config.frames
  unfold Config.sizeOr
  split
  · next hpos => exact Int.lt_toNat.2 hpos
  · decide

theorem pool_ok (h : (⟨bytecode.constants, table, []⟩ : Context).Ok) :
    PoolOk bytecode.constants table.definitions :=
  ⟨h.pool, h.globals⟩

/-- A source is run on a safe machine. -/
theorem start_ok (hs : s.Ok) (h : s.compile source = .ok (bytecode, table)) :
    (s.start bytecode).Ok bytecode.constants table.definitions := by
  obtain ⟨is, hcode, -, hok, hgrows, hlegal, depth, hstart, -, hflow⟩ := compile_spec hs.context h
  have hlive : (s.start bytecode).live = [] := List.take_zero
  refine ⟨Nat.zero_le _, rfl, ?_, ?_, ?_, frames_pos s.config⟩
  · intro v hv
    exact (hs.globals v hv).mono fun _ _ _ hclosure => hclosure.mono hgrows.constants
  · rw [hlive]
    nofun
  · intro _
    rw [hlive]
    refine ⟨is, depth, false, ⟨hcode, hlegal, ?_, hflow, nofun, nofun⟩, ⟨[], is, rfl, rfl⟩, ?_⟩
    · intro i hi
      exact (hlegal i hi).fits hok.globals (Nat.zero_le _) (Nat.zero_le _)
    · change 0 + 0 + depth 0 = 0
      rw [hstart]

theorem eval_ok [Casing] (fuel : Nat) (hs : s.Ok) (source : Bytes) : (s.eval fuel source).2.Ok := by
  cases hcompile : s.compile source with
  | error e =>
    rw [eval_of_error hcompile]
    exact hs
  | ok result =>
    obtain ⟨bytecode, table⟩ := result
    obtain ⟨_, _, _, hok, _⟩ := compile_spec hs.context hcompile
    have hended := (start_ok hs hcompile).runFor (pool_ok hok) fuel
    rw [eval_of_compile hcompile]
    exact ⟨hok, hended.globals, hended.keeps.store.trans hs.store⟩

theorem Reachable.ok [Casing] (h : s.Reachable) : s.Ok := by
  refine h.induct (P := Ok) ?_ fun fuel source _ hs => eval_ok fuel hs source
  intro config tracing
  refine ⟨context_ok_new config tracing, ?_, Array.size_replicate⟩
  intro v hv
  obtain rfl := Array.eq_of_mem_replicate hv
  exact .null

end Session

/-! ### Termination -/

/-- The number of instructions of a function constant. -/
def Value.instructionCount : Value → Nat
  | .function (some f) => f.code.walk.length
  | _ => 0

/-- The number of instructions of the longest code: the main code or that of a function constant. -/
def Bytecode.longest (b : Bytecode) : Nat :=
  max b.code.walk.length ((b.constants.toList.map Value.instructionCount).foldr max 0)

theorem Bytecode.length_le_longest {b : Bytecode} {f : Function}
    (h : .function (some f) ∈ b.constants) : f.code.walk.length ≤ b.longest := by
  have hcount : ∀ vs : List Value, .function (some f) ∈ vs →
      f.code.walk.length ≤ (vs.map Value.instructionCount).foldr max 0 := by
    intro vs hf
    induction vs with
    | nil => cases hf
    | cons v vs ih =>
      obtain rfl | hf := List.mem_cons.1 hf
      · exact Nat.le_max_left _ _
      · exact Nat.le_trans (ih hf) (Nat.le_max_right _ _)
  exact Nat.le_trans (hcount _ (Array.mem_toList_iff.2 h)) (Nat.le_max_right _ _)

namespace Session

variable {s : Session} {source : Bytes} {bytecode : Bytecode} {table : Table}

/-- What a source may execute at most is the cost of a call with all frames. -/
theorem owed_start_le (s : Session) (bytecode : Bytecode) :
    Machine.owed bytecode.longest s.config.sizes.frames (s.start bytecode).frames ≤
      Machine.callCost bytecode.longest s.config.sizes.frames := by
  obtain ⟨k, hk⟩ : ∃ k, s.config.sizes.frames = k + 1 :=
    ⟨s.config.sizes.frames - 1, by have := frames_pos s.config; omega⟩
  have hmain : (s.start bytecode).frame.left ≤ bytecode.longest :=
    Nat.le_trans (Frame.left_le _) (Nat.le_max_left _ _)
  rw [hk]
  exact Nat.mul_le_mul_right _ hmain

/-- A source that compiles executes a certain number of instructions, and then its run is over. -/
theorem start_halts [Casing] (hs : s.Ok) (h : s.compile source = .ok (bytecode, table)) :
    ∃ n, n ≤ Machine.callCost bytecode.longest s.config.sizes.frames ∧
      (∀ k, (s.start bytecode).dispatch k ≠ none ↔ k < n) ∧
      ∀ fuel, n ≤ fuel → ((s.start bytecode).run fuel).1 ≠ .unfinished ∧
        (s.start bytecode).run fuel = (s.start bytecode).run n ∧
        s.eval fuel source = s.eval n source := by
  obtain ⟨_, _, _, hcontext, _⟩ := compile_spec hs.context h
  obtain ⟨n, hn, hdispatch, hrun⟩ :=
    (start_ok hs h).halts (pool_ok hcontext) fun f => Bytecode.length_le_longest
  refine ⟨n, Nat.le_trans hn (owed_start_le s bytecode), hdispatch, ?_⟩
  intro fuel hfuel
  obtain ⟨hfinished, heq⟩ := hrun fuel hfuel
  refine ⟨hfinished, heq, ?_⟩
  rw [eval_of_compile h, eval_of_compile h, heq]

/-- Every evaluation ends, whether or not there is a limit to its instructions. One call of a
function executes instructions at increasing offsets, and no more of them than its code has. There
are never more calls in progress than there may be frames. -/
theorem evaluation_halts [Casing] (hs : s.Reachable)
    (h : s.compile source = .ok (bytecode, table)) :
    (∃ n, n ≤ Machine.callCost bytecode.longest s.config.sizes.frames ∧
      (∀ k, (s.start bytecode).dispatch k ≠ none ↔ k < n) ∧
      ∀ fuel, n ≤ fuel → ((s.start bytecode).run fuel).1 ≠ .unfinished ∧
        (s.start bytecode).run fuel = (s.start bytecode).run n ∧
        s.eval fuel source = s.eval n source) ∧
    (∀ j k mj mk, (s.start bytecode).SameActivation j k → j < k →
      (s.start bytecode).dispatch j = some mj → (s.start bytecode).dispatch k = some mk →
      mk.frame.fn = mj.frame.fn ∧ mj.frame.next < mk.frame.next) ∧
    (∀ j mj, (s.start bytecode).dispatch j = some mj →
      {k | (s.start bytecode).SameActivation j k}.encard ≤ mj.frame.fn.code.walk.length) ∧
    ∀ n m, (s.start bytecode).dispatch n = some m → m.frames.length ≤ s.config.sizes.frames := by
  obtain ⟨_, _, _, hcontext, _⟩ := compile_spec hs.context_ok h
  have hpool := pool_ok hcontext
  have hok := start_ok hs.ok h
  refine ⟨start_halts hs.ok h, ?_, ?_, ?_⟩
  · intro j k mj mk hsame hlt hj hk
    exact hok.offset_lt hpool hsame hlt hj hk
  · intro j mj hj
    exact hok.activation_le hpool hj
  · intro n m hm
    obtain ⟨hm_ok, -, hkeeps⟩ := hok.dispatch hpool hm
    have hdepth := hm_ok.depth_le
    rw [hkeeps.maxFrames] at hdepth
    exact hdepth

/-- Calls inside calls, one more than there are frames for, in a session without a limit. -/
theorem evaluation_halts_nested :
    ∃ bytecode table,
      (new ⟨64, 4, 3, 0, 0, []⟩ false).compile
        "fn() { fn() { if (true) { fn() { 1 }() } }() }()" = .ok (bytecode, table) ∧
      (∃ n, n ≤ Machine.callCost bytecode.longest 3 ∧ ∀ fuel, n ≤ fuel →
        (((new ⟨64, 4, 3, 0, 0, []⟩ false).start bytecode).run fuel).1 ≠ .unfinished) ∧
      ∀ n m, ((new ⟨64, 4, 3, 0, 0, []⟩ false).start bytecode).dispatch n = some m →
        m.frames.length ≤ 3 := by
  have htest : ((new ⟨64, 4, 3, 0, 0, []⟩ false).compile
      "fn() { fn() { if (true) { fn() { 1 }() } }() }()").toOption.any (fun _ => true) = true := by
    decide +kernel
  obtain ⟨bytecode, table, hcompile, -⟩ := exists_compile htest
  obtain ⟨⟨n, hn, -, hrun⟩, -, -, hdepth⟩ :=
    evaluation_halts (.new ⟨64, 4, 3, 0, 0, []⟩ false) hcompile
  exact ⟨bytecode, table, hcompile, ⟨n, hn, fun fuel hfuel => (hrun fuel hfuel).1⟩, hdepth⟩

end Session

end StackScript
