import StackScript.Proofs.Compile.WellFormed
import StackScript.Proofs.Machine.Effect
import StackScript.Proofs.Machine.Values

/-!
# Safe machines

A machine that runs compiled code has a frame for each function that has not
returned. Where a frame stands in its code decides how high the stack is: above
its locals there are as many values as the code has there. So an instruction
finds the values it takes, whatever it refers to is there, and what it leaves is
again such a machine, or a fault that the language knows.

## Main definitions

* `Frame.Ok`, `Machine.Stacked`: frames in code that is legal and balanced.
* `Machine.Ok`: safe machines.
* `Fault.Known`: faults that a safe machine may end in.

## Main results

* `Instr.yieldsOk_plain`: operators yield values in good order.
* `Frame.ok_next`, `Frame.ok_jump`, `Frame.ok_enter`: where a frame goes on.
-/

namespace StackScript

/-- The constants are literals and functions in good order, and the global names can be numbered. -/
structure PoolOk (P : Array Value) (G : Nat) : Prop where
  pooled : ∀ v ∈ P, v.Pooled P G
  few : G ≤ maxOperand 2 + 1

/-- A closure of a function among the constants that reads no more captured values than there
are. -/
def ClosureOk (P : Array Value) (_ : Nat) (f : Function) (free : List Value) : Prop :=
  .function (some f) ∈ P ∧ f.code.FreeBelow free.length

theorem ClosureOk.mono {P P' : Array Value} {id : Nat} {f : Function} {free : List Value}
    (h : ClosureOk P id f free) (hP : P.toList <+: P'.toList) : ClosureOk P' id f free := by
  refine ⟨?_, h.2⟩
  rw [← Array.mem_toList_iff] at *
  exact hP.subset (Array.mem_toList_iff.2 h.1)

theorem Value.Literal.every {v : Value} {C : Nat → Function → List Value → Prop} (h : v.Literal) :
    v.Every C := by
  cases v with
  | int n => exact .int n
  | string s => exact .string s
  | _ => exact h.elim

namespace Frame

variable {P : Array Value} {G : Nat} {f : Frame} {is : List Instr} {depth : Nat → Nat}
  {inside : Bool} {height : Nat}

/-- The frame executes the instructions, which are legal for what it has and balanced. -/
structure Executes (P : Array Value) (G : Nat) (f : Frame) (is : List Instr) (depth : Nat → Nat)
    (inside : Bool) : Prop where
  code : f.fn.code = .ofInstrs is
  legal : ∀ i ∈ is, i.Legal ⟨P, G, f.fn.locals, f.free.length, inside⟩
  fits : ∀ i ∈ is, i.Fits
  flow : Flowing depth (LandsInside 0 is) 0 is
  free : ∀ v ∈ f.free, v.Every (ClosureOk P)
  closure : inside = true → ClosureOk P f.id f.fn f.free

/-- The frame stands at an instruction or at the end, with the stack as high as it is there. -/
def At (f : Frame) (is : List Instr) (depth : Nat → Nat) (height : Nat) : Prop :=
  Lands 0 is f.next ∧ f.base + f.fn.locals + depth f.next = height

/-- The frame stands in code that is legal and balanced. -/
def Ok (P : Array Value) (G : Nat) (f : Frame) (height : Nat) : Prop :=
  ∃ is depth inside, f.Executes P G is depth inside ∧ f.At is depth height

theorem Executes.next (h : f.Executes P G is depth inside) (n : Nat) :
    { f with next := n }.Executes P G is depth inside :=
  ⟨h.code, h.legal, h.fits, h.flow, h.free, h.closure⟩

/-- The instruction at which a frame stands, and how it agrees with the depths. -/
theorem At.instr (h : f.Executes P G is depth inside) (hat : f.At is depth height)
    (hrunning : f.next < f.fn.code.size) :
    ∃ i, i ∈ is ∧ f.fn.code.fetch f.next = some (.instr i) ∧ (f.next, .instr i) ∈ f.fn.code.walk ∧
      i.Flows depth (LandsInside 0 is) f.next ∧ Lands 0 is (f.next + i.op.size) := by
  obtain ⟨⟨before, after, rfl, hnext⟩, -⟩ := hat
  rw [Nat.zero_add] at hnext
  cases after with
  | nil =>
    rw [h.code, Code.size_ofInstrs, List.append_nil] at hrunning
    omega
  | cons i after =>
    refine ⟨i, by simp, ?_, ?_, ?_, before ++ [i], after, by simp, ?_⟩
    · rw [h.code, hnext]
      exact Code.fetch_ofInstrs before after (h.fits i (by simp))
    · rw [h.code]
      exact (Code.mem_walk_ofInstrs h.fits).2 ⟨before, i, after, rfl, hnext, rfl⟩
    · have hflows := h.flow before i after rfl
      rwa [Nat.zero_add, ← hnext] at hflows
    · simp [hnext]

/-- The frame after an instruction that goes on to the next one. -/
theorem ok_next (h : f.Executes P G is depth inside) (hat : f.At is depth height) {i : Instr}
    (hflows : i.Flows depth (LandsInside 0 is) f.next) (hlands : Lands 0 is (f.next + i.op.size))
    (hfalls : i.Falls) :
    { f with next := f.next + i.op.size }.Ok P G (height - i.takes + i.gives) := by
  refine ⟨is, depth, inside, h.next _, hlands, ?_⟩
  have htakes := hflows.takes
  have hdepth := hflows.falls hfalls
  have hheight := hat.2
  simp only
  omega

/-- The frame after a jump. -/
theorem ok_jump (h : f.Executes P G is depth inside) (hat : f.At is depth height) {i : Instr}
    (hflows : i.Flows depth (LandsInside 0 is) f.next) {t : Nat} (ht : i.target? = some t) :
    f.next < t ∧ { f with next := t }.Ok P G (height - i.takes) := by
  obtain ⟨hlt, hland, hdepth⟩ := hflows.jumps t ht
  refine ⟨hlt, is, depth, inside, h.next _, hland.lands, ?_⟩
  have htakes := hflows.takes
  have hheight := hat.2
  simp only
  omega

/-- A closure may be entered. -/
theorem ok_enter {fn : Function} {free : List Value} {id : Nat} (hpool : PoolOk P G)
    (h : ClosureOk P id fn free) (hfree : ∀ v ∈ free, v.Every (ClosureOk P)) (base : Nat) :
    (⟨fn, id, free, 0, base⟩ : Frame).Ok P G (base + fn.locals) := by
  obtain ⟨hlocals, is, n, -, hcode, hn, hlegal, depth, hstart, -, hflow⟩ :=
    (hpool.pooled _ h.1).formed
  have hfits : ∀ i ∈ is, i.Fits := fun i hi => (hlegal i hi).fits hpool.few hlocals hn
  refine ⟨is, depth, true, ⟨hcode, ?_, hfits, hflow, hfree, fun _ => h⟩, ?_, ?_⟩
  · intro i hi
    refine (hlegal i hi).withFree ?_
    rintro k rfl
    have hbelow := h.2
    rw [hcode] at hbelow
    obtain ⟨before, after, rfl⟩ := List.append_of_mem hi
    exact hbelow _ k ((Code.mem_walk_ofInstrs hfits).2 ⟨before, _, after, rfl, rfl, rfl⟩)
  · exact ⟨[], is, rfl, rfl⟩
  · simp only [hstart, Nat.add_zero]

end Frame

/-- Faults that a safe machine may end in. A global variable is missing only if the store is too
small for the names. -/
def Fault.Known (G store : Nat) : Fault → Prop
  | .unknownOpcode _ | .unknownBuiltin _ | .emptyBuiltin | .notFunction _ => False
  | .globalRange _ size => size = store ∧ store < G
  | _ => True

/-- If the fault is that a limit has been reached, there is the limit: the stack has no room for a
value or for the locals of a function, or the number of instructions is limited. -/
def Fault.Forced (m : Machine) : Fault → Prop
  | .stackOverflow => m.stack.size ≤ m.live.length + maxOperand 1
  | .instructionLimit _ => 0 < m.limit
  | _ => True

/-- Faults of operators, to which their operands alone lead. -/
def Fault.OfOperands : Fault → Prop
  | .binaryTypes .. | .stringOperator _ | .negationType _ | .orderTypes .. => True
  | .divisionByZero | .hashKey _ | .notIndexable .. => True
  | _ => False

namespace Fault

variable {G store : Nat} {v w : Value} {fault : Fault}

theorem OfOperands.known (h : fault.OfOperands) : fault.Known G store := by
  cases fault <;> trivial

theorem OfOperands.forced (h : fault.OfOperands) (m : Machine) : fault.Forced m := by
  cases fault <;> trivial

theorem ofOperands_arithmetic {op : Opcode} (h : v.arithmetic op w = .error fault) :
    fault.OfOperands := by
  unfold Value.arithmetic at h
  split at h
  · unfold Value.integerOp at h
    split at h
    · cases h
    · cases h
    · cases h
    · split at h
      · cases h; trivial
      · cases h
  · split at h
    · cases h
    · cases h; trivial
  · cases h; trivial

theorem ofOperands_greater (h : v.greater w = .error fault) : fault.OfOperands := by
  unfold Value.greater at h
  split at h
  · cases h
  · cases h; trivial

theorem ofOperands_negate (h : v.negate = .error fault) : fault.OfOperands := by
  unfold Value.negate at h
  split at h
  · cases h
  · cases h; trivial

theorem ofOperands_index (h : v.index w = .error fault) : fault.OfOperands := by
  unfold Value.index at h
  split at h
  · cases h
  · split at h
    · cases h; trivial
    · split at h
      · cases h
      · cases h
  · cases h; trivial

theorem ofOperands_pairUp {acc : List Entry} {items : List Value}
    (h : Entry.pairUp acc items = .error fault) : fault.OfOperands := by
  fun_induction Entry.pairUp acc items with
  | case1 acc key value rest k hk ih => exact ih h
  | case2 =>
    cases h
    trivial
  | case3 => cases h

end Fault

/-- The instruction yields a value in good order, or ends in a known fault. -/
def Instr.YieldsOk (P : Array Value) (G : Nat) (m : Machine) (i : Instr) (args : List Value) : Prop :=
  ∃ r, i.Yields m args r ∧ (∀ v, r = .ok v → v.Every (ClosureOk P)) ∧
    ∀ fault, r = .error fault → fault.Known G m.globals.size ∧ ∀ m', fault.Forced m'

namespace Instr

variable {P : Array Value} {G : Nat} {m : Machine} {i : Instr} {args : List Value}

theorem yieldsOk_source {v : Value} (h : i.source? m = some (.ok v)) (hv : v.Every (ClosureOk P)) :
    i.YieldsOk P G m [] := by
  refine ⟨_, .source h, ?_, ?_⟩
  · intro w hw
    obtain rfl := Except.ok.inj hw
    exact hv
  · intro fault hfault
    cases hfault

theorem yieldsOk_unary {f : Value → Except Fault Value} (h : i.unary? = some f)
    (hargs : args.length = 1) (hok : ∀ v w, f v = .ok w → w.Every (ClosureOk P))
    (herror : ∀ v fault, f v = .error fault → fault.OfOperands) : i.YieldsOk P G m args := by
  obtain ⟨v, rfl⟩ := List.length_eq_one_iff.1 hargs
  exact ⟨_, .unary h, hok v, fun fault hf => ⟨(herror v fault hf).known, (herror v fault hf).forced⟩⟩

theorem yieldsOk_binary {f : Value → Value → Except Fault Value} (h : i.binary? = some f)
    (hargs : args.length = 2) (hevery : ∀ v ∈ args, v.Every (ClosureOk P))
    (hok : ∀ a b w, a.Every (ClosureOk P) → f a b = .ok w → w.Every (ClosureOk P))
    (herror : ∀ a b fault, f a b = .error fault → fault.OfOperands) : i.YieldsOk P G m args := by
  obtain ⟨a, b, rfl⟩ := List.length_eq_two.1 hargs
  exact ⟨_, .binary h, fun w => hok a b w (hevery a (by simp)),
    fun fault hf => ⟨(herror a b fault hf).known, (herror a b fault hf).forced⟩⟩

/-- An instruction without operands that neither pops nor returns gives a value. -/
theorem gives_plain {op : Opcode} (hop : op.widths = []) (hpop : op ≠ .pop)
    (hvalue : op ≠ .returnValue) (hret : op ≠ .ret) :
    (⟨op, []⟩ : Instr).gives = 1 ∧ op ≠ .jump ∧ op ≠ .call ∧ op ≠ .closure := by
  cases op with
  | pop => exact absurd rfl hpop
  | returnValue => exact absurd rfl hvalue
  | ret => exact absurd rfl hret
  | jump | jumpIfFalse | setGlobal | setLocal | call | closure => cases hop
  | _ => exact ⟨rfl, nofun, nofun, nofun⟩

/-- The operators yield values in good order. -/
theorem yieldsOk_plain {op : Opcode} (hop : op.widths = []) (hself : op ≠ .currentClosure)
    (hgives : (⟨op, []⟩ : Instr).gives = 1) (hargs : args.length = (⟨op, []⟩ : Instr).takes)
    (hevery : ∀ v ∈ args, v.Every (ClosureOk P)) : (⟨op, []⟩ : Instr).YieldsOk P G m args := by
  cases op with
  | null =>
    obtain rfl := List.length_eq_zero_iff.1 hargs
    exact yieldsOk_source rfl .null
  | true =>
    obtain rfl := List.length_eq_zero_iff.1 hargs
    exact yieldsOk_source rfl (.bool _)
  | false =>
    obtain rfl := List.length_eq_zero_iff.1 hargs
    exact yieldsOk_source rfl (.bool _)
  | not => exact yieldsOk_unary rfl hargs (fun _ _ h => by cases h; exact .bool _) (by simp)
  | neg => exact yieldsOk_unary rfl hargs (fun _ _ => .negate) fun _ _ => Fault.ofOperands_negate
  | add =>
    exact yieldsOk_binary rfl hargs hevery (fun _ _ _ _ => .arithmetic) fun _ _ _ =>
      Fault.ofOperands_arithmetic
  | sub =>
    exact yieldsOk_binary rfl hargs hevery (fun _ _ _ _ => .arithmetic) fun _ _ _ =>
      Fault.ofOperands_arithmetic
  | mul =>
    exact yieldsOk_binary rfl hargs hevery (fun _ _ _ _ => .arithmetic) fun _ _ _ =>
      Fault.ofOperands_arithmetic
  | div =>
    exact yieldsOk_binary rfl hargs hevery (fun _ _ _ _ => .arithmetic) fun _ _ _ =>
      Fault.ofOperands_arithmetic
  | equal =>
    exact yieldsOk_binary rfl hargs hevery (fun _ _ _ _ h => by cases h; exact .bool _) (by simp)
  | notEqual =>
    exact yieldsOk_binary rfl hargs hevery (fun _ _ _ _ h => by cases h; exact .bool _) (by simp)
  | greater =>
    exact yieldsOk_binary rfl hargs hevery (fun _ _ _ _ => .greater) fun _ _ _ => Fault.ofOperands_greater
  | index =>
    exact yieldsOk_binary rfl hargs hevery (fun _ _ _ ha => ha.index) fun _ _ _ => Fault.ofOperands_index
  | currentClosure => exact absurd rfl hself
  | pop => cases hgives
  | returnValue => cases hgives
  | ret => cases hgives
  | _ => cases hop

end Instr

namespace Machine

/-- The frames from the inside out. -/
def frames (m : Machine) : List Frame := m.frame :: m.callers.toList.reverse

theorem frames_of_push {m : Machine} {caller : Frame} {callers : Array Frame}
    (h : m.callers = callers.push caller) :
    m.frames = m.frame :: caller :: callers.toList.reverse := by
  rw [frames, h, Array.toList_push, List.reverse_append, List.reverse_singleton]
  rfl

/-- The frames, from the inside out, with the height of the stack for the innermost one. A function
was pushed before its locals, and gives way to the value it returns. -/
def Stacked (P : Array Value) (G : Nat) : Nat → List Frame → Prop
  | _, [] => True
  | height, [f] => f.Ok P G height
  | height, f :: caller :: rest =>
    f.Ok P G height ∧ 0 < f.base ∧ Stacked P G f.base (caller :: rest)

/-- A machine in compiled code with the constants `P` and `G` global names. -/
structure Ok (P : Array Value) (G : Nat) (m : Machine) : Prop where
  fits : m.Fits
  constants : m.constants = P
  globals : ∀ v ∈ m.globals, v.Every (ClosureOk P)
  live : ∀ v ∈ m.live, v.Every (ClosureOk P)
  stacked : m.running = true → Stacked P G m.live.length m.frames
  depth : m.callers.size + 1 ≤ m.maxFrames

variable {P : Array Value} {G height height' : Nat} {f f' : Frame} {callers : List Frame}

theorem Stacked.ok (h : Stacked P G height (f :: callers)) : f.Ok P G height := by
  cases callers with
  | nil => exact h
  | cons caller rest => exact h.1

/-- The current frame may be replaced by one with the same locals. -/
theorem Stacked.replace (h : Stacked P G height (f :: callers)) (hf : f'.Ok P G height')
    (hbase : f'.base = f.base) : Stacked P G height' (f' :: callers) := by
  cases callers with
  | nil => exact hf
  | cons caller rest =>
    refine ⟨hf, ?_, ?_⟩
    · rw [hbase]
      exact h.2.1
    · rw [hbase]
      exact h.2.2

end Machine

end StackScript
