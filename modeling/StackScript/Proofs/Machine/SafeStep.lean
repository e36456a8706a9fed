import StackScript.Proofs.Machine.Safety

/-!
# Steps of safe machines

A safe machine executes the instruction at which it stands. The instruction is
legal, so what it refers to is there, and the values it takes are on the stack
above the locals. What it leaves is a safe machine, whose current function has
gone on in its code, has called another one or has returned.

## Main definitions

* `Machine.Moves`: what a step does to the frames.
* `Machine.Stepped`, `Machine.Failed`: what a step of a safe machine leads to.

## Main results

* `Machine.Ok.step`: a step of a safe machine does not crash.
-/

namespace StackScript

namespace Machine

/-- What a step does to the height of the stack and to the frames, from the inside out: the current
function goes on, calls a function among the constants or returns. It never goes back. -/
inductive Moves (P : Array Value) : Nat → List Frame → Nat → List Frame → Prop
  | goes {h h' : Nat} {f : Frame} {n : Nat} {callers : List Frame} : f.next < n → h' ≤ h + 1 →
    Moves P h (f :: callers) h' ({ f with next := n } :: callers)
  | calls {h : Nat} {f g : Frame} {n : Nat} {callers : List Frame} : f.next < n →
    .function (some g.fn) ∈ P → g.base ≤ h →
    Moves P h (f :: callers) (g.base + g.fn.locals) (g :: { f with next := n } :: callers)
  | returns {h : Nat} {f caller : Frame} {callers : List Frame} :
    Moves P h (f :: caller :: callers) f.base (caller :: callers)

/-- What a run leaves as it was. -/
structure Keeps (m m' : Machine) : Prop where
  maxFrames : m'.maxFrames = m.maxFrames
  limit : m'.limit = m.limit
  store : m'.globals.size = m.globals.size
  stack : m'.stack.size = m.stack.size

/-- What holds of a machine that has ended in a fault. -/
structure Failed (P : Array Value) (G : Nat) (m : Machine) (fault : Fault) (m' : Machine) :
    Prop where
  known : fault.Known G m.globals.size
  forced : fault.Forced m
  globals : ∀ v ∈ m'.globals, v.Every (ClosureOk P)
  keeps : m.Keeps m'

/-- The locals of a function that is entered are its arguments and nulls. -/
theorem every_locals {P : Array Value} {fn : Function} {args : List Value}
    (hargs : ∀ v ∈ args, v.Every (ClosureOk P)) :
    ∀ v ∈ Exec.locals fn args, v.Every (ClosureOk P) := by
  intro v hv
  obtain hv | hv := List.mem_append.1 (List.mem_of_mem_take hv)
  · exact hargs v hv
  · obtain rfl := List.eq_of_mem_replicate hv
    exact .null

/-! ### An instruction about to be executed -/

/-- The instruction has been fetched: the frame stands after it, and the rest is as it was, but for
the stack and the global variables. -/
structure Fetched (m : Machine) (i : Instr) (m' : Machine) : Prop where
  frame : m'.frame = { m.frame with next := m.frame.next + i.op.size }
  callers : m'.callers = m.callers
  constants : m'.constants = m.constants
  maxFrames : m'.maxFrames = m.maxFrames
  limit : m'.limit = m.limit
  size : m'.stack.size = m.stack.size

theorem Fetched.frames {m m' : Machine} {i : Instr} (h : m.Fetched i m') : m'.frames =
    { m.frame with next := m.frame.next + i.op.size } :: m.callers.toList.reverse := by
  rw [Machine.frames, h.frame, h.callers]

theorem Fetched.agrees {m m₁ m₂ : Machine} {i : Instr} (h : m.Fetched i m₁) (h' : m₁.Agrees m₂) :
    m.Fetched i m₂ where
  frame := h'.frame.trans h.frame
  callers := h'.callers.trans h.callers
  constants := h'.constants.trans h.constants
  maxFrames := h'.maxFrames.trans h.maxFrames
  limit := h'.limit.trans h.limit
  size := h'.size.trans h.size

/-- The global variables, the count of closures and what was written are no part of it. -/
theorem Fetched.beside {m m₁ : Machine} {i : Instr} {globals : Array Value} {fresh : Nat}
    {output : List Bytes} (h : m.Fetched i m₁) :
    m.Fetched i { m₁ with globals := globals, fresh := fresh, output := output } :=
  ⟨h.frame, h.callers, h.constants, h.maxFrames, h.limit, h.size⟩

/-- A step of a safe machine leads to a safe machine. -/
structure Stepped (P : Array Value) (G : Nat) (m m' : Machine) : Prop where
  ok : m'.Ok P G
  moves : Moves P m.live.length m.frames m'.live.length m'.frames
  keeps : m.Keeps m'

/-- A safe machine that stands at an instruction. -/
structure Ready (P : Array Value) (G : Nat) (m : Machine) (i : Instr) (is : List Instr)
    (depth : Nat → Nat) (inside : Bool) : Prop where
  ok : m.Ok P G
  pool : PoolOk P G
  stacked : Stacked P G m.live.length m.frames
  executes : m.frame.Executes P G is depth inside
  position : m.frame.At is depth m.live.length
  legal : i.Legal ⟨P, G, m.frame.fn.locals, m.frame.free.length, inside⟩
  flows : i.Flows depth (LandsInside 0 is) m.frame.next
  lands : Lands 0 is (m.frame.next + i.op.size)

namespace Ready

variable {P : Array Value} {G : Nat} {m m₁ m₂ : Machine} {i : Instr} {is : List Instr}
  {depth : Nat → Nat} {inside : Bool}

/-- The values that an instruction takes are on the stack above the locals. -/
theorem split (h : Ready P G m i is depth inside) :
    ∃ S args, m.live = S ++ args ∧ args.length = i.takes ∧
      m.frame.base + m.frame.fn.locals ≤ S.length ∧
      (∀ v ∈ S, v.Every (ClosureOk P)) ∧ ∀ v ∈ args, v.Every (ClosureOk P) := by
  have htakes := h.flows.takes
  have hheight := h.position.2
  refine ⟨m.live.take (m.live.length - i.takes), m.live.drop (m.live.length - i.takes),
    (List.take_append_drop _ _).symm, ?_, ?_, ?_, ?_⟩
  · rw [List.length_drop]
    omega
  · rw [List.length_take]
    omega
  · intro v hv
    exact h.ok.live v (List.mem_of_mem_take hv)
  · intro v hv
    exact h.ok.live v (List.mem_of_mem_drop hv)

/-- A call takes the function and its arguments. -/
theorem split_call (h : Ready P G m i is depth inside) {n : Nat} (hi : i = ⟨.call, [n]⟩) :
    ∃ S callee args, m.live = S ++ callee :: args ∧ n = args.length ∧
      m.frame.base + m.frame.fn.locals ≤ S.length ∧ (∀ v ∈ S, v.Every (ClosureOk P)) ∧
      callee.Every (ClosureOk P) ∧ ∀ v ∈ args, v.Every (ClosureOk P) := by
  obtain ⟨S, args, hsplit, htaken, hlocals, hS, hevery⟩ := h.split
  subst hi
  cases args with
  | nil => cases htaken
  | cons callee args =>
    exact ⟨S, callee, args, hsplit, (Nat.succ.inj htaken).symm, hlocals, hS, hevery callee (.head _),
      fun v hv => hevery v (.tail _ hv)⟩

/-- The instruction stands before the end of the code. -/
theorem next_lt (h : Ready P G m i is depth inside) : m.frame.next < m.frame.fn.code.size := by
  obtain ⟨s, u, rfl, hend⟩ := h.lands
  rw [h.executes.code, Code.size_ofInstrs, Instr.bytes_append]
  have hsize := i.op.size_pos
  omega

/-- The machine goes on to the next instruction. -/
theorem next (h : Ready P G m i is depth inside) (hfalls : i.Falls) (hfetched : m.Fetched i m₂)
    (hfits : m₂.Fits) (hlive : ∀ v ∈ m₂.live, v.Every (ClosureOk P))
    (hlength : m₂.live.length = m.live.length - i.takes + i.gives)
    (hglobals : ∀ v ∈ m₂.globals, v.Every (ClosureOk P))
    (hstore : m₂.globals.size = m.globals.size) : Stepped P G m m₂ := by
  have hframe := Frame.ok_next h.executes h.position h.flows h.lands hfalls
  refine ⟨⟨hfits, hfetched.constants.trans h.ok.constants, hglobals, hlive, ?_, ?_⟩, ?_,
    hfetched.maxFrames, hfetched.limit, hstore, hfetched.size⟩
  · intro _
    rw [hfetched.frames, hlength]
    exact h.stacked.replace hframe rfl
  · rw [hfetched.callers, hfetched.maxFrames]
    exact h.ok.depth
  · have hgives := i.gives_le
    rw [hfetched.frames]
    exact .goes (Nat.lt_add_of_pos_right i.op.size_pos) (by omega)

/-- The machine goes on to the next instruction with the same global variables. -/
theorem goesOn (h : Ready P G m i is depth inside) (hfalls : i.Falls) (hfetched : m.Fetched i m₂)
    (hsame : m₂.globals = m.globals) (hfits : m₂.Fits)
    (hlive : ∀ v ∈ m₂.live, v.Every (ClosureOk P))
    (hlength : m₂.live.length = m.live.length - i.takes + i.gives) : Stepped P G m m₂ := by
  refine h.next hfalls hfetched hfits hlive hlength ?_ ?_
  · rw [hsame]
    exact h.ok.globals
  · rw [hsame]

/-- The machine goes on in a frame of its own, with the same global variables. -/
theorem reframed (h : Ready P G m i is depth inside) (hfetched : m.Fetched i m₁)
    (hglobals : m₁.globals = m.globals) {frame : Frame} {callers : Array Frame}
    (hagrees : { m₁ with callers := callers, frame := frame }.Agrees m₂) (hfits : m₂.Fits)
    (hlive : ∀ v ∈ m₂.live, v.Every (ClosureOk P))
    (hstacked : m₂.running = true → Stacked P G m₂.live.length (frame :: callers.toList.reverse))
    (hdepth : callers.size + 1 ≤ m.maxFrames)
    (hmoves : Moves P m.live.length m.frames m₂.live.length (frame :: callers.toList.reverse)) :
    Stepped P G m m₂ := by
  have hsame : m₂.globals = m.globals := hagrees.globals.trans hglobals
  have hmax : m₂.maxFrames = m.maxFrames := hagrees.maxFrames.trans hfetched.maxFrames
  have hframes : m₂.frames = frame :: callers.toList.reverse := by
    rw [frames, hagrees.frame, hagrees.callers]
  refine ⟨⟨hfits, (hagrees.constants.trans hfetched.constants).trans h.ok.constants, ?_, hlive, ?_, ?_⟩,
    ?_, hmax, hagrees.limit.trans hfetched.limit, congrArg Array.size hsame,
    hagrees.size.trans hfetched.size⟩
  · rw [hsame]
    exact h.ok.globals
  · rw [hframes]
    exact hstacked
  · rw [hagrees.callers, hmax]
    exact hdepth
  · rw [hframes]
    exact hmoves

/-- The machine goes on where the instruction jumps to. -/
theorem jumped (h : Ready P G m i is depth inside) {t : Nat} (ht : i.target? = some t)
    (hfetched : m.Fetched i m₂) (hsame : m₂.globals = m.globals) (hfits : m₂.Fits)
    (hlive : ∀ v ∈ m₂.live, v.Every (ClosureOk P))
    (hlength : m₂.live.length = m.live.length - i.takes) :
    Stepped P G m { m₂ with frame := { m₂.frame with next := t } } := by
  obtain ⟨hlt, hframe⟩ := Frame.ok_jump h.executes h.position h.flows ht
  have hgone : { m₂.frame with next := t } = { m.frame with next := t } := by rw [hfetched.frame]
  refine h.reframed hfetched hsame (.refl _) hfits hlive ?_ ?_ ?_
  · intro _
    change Stacked P G m₂.live.length _
    rw [hgone, hfetched.callers, hlength]
    exact h.stacked.replace hframe rfl
  · rw [hfetched.callers]
    exact h.ok.depth
  · rw [hgone, hfetched.callers]
    refine .goes hlt ?_
    change m₂.live.length ≤ _
    omega

/-- The machine ends in a fault. -/
theorem failed (h : Ready P G m i is depth inside) (hfetched : m.Fetched i m₂)
    (hglobals : m₂.globals = m.globals) {fault : Fault} (hknown : fault.Known G m.globals.size)
    (hforced : fault.Forced m) : Failed P G m fault m₂ :=
  ⟨hknown, hforced, by rw [hglobals]; exact h.ok.globals, hfetched.maxFrames, hfetched.limit,
    by rw [hglobals], hfetched.size⟩

/-- The machine ends because its stack is full. -/
theorem failedFull (h : Ready P G m i is depth inside) (hfetched : m.Fetched i m₁)
    (hfits : m₁.Fits) (hlive : m₁.live.length ≤ m.live.length) (hfetched' : m.Fetched i m₂)
    (hglobals : m₂.globals = m.globals) (hfull : m₁.stack.size ≤ m₁.sp) :
    Failed P G m .stackOverflow m₂ := by
  refine h.failed hfetched' hglobals trivial ?_
  have hlength := hfits.length_live
  have hsize := hfetched.size
  change m.stack.size ≤ m.live.length + maxOperand 1
  omega

/-! ### Instructions that go on -/

open Exec

variable (h : Ready P G m i is depth inside) (hfetched : m.Fetched i m₁)
  (hglobals : m₁.globals = m.globals) (hfits : m₁.Fits) (hlive : m₁.live = m.live)

include h hfetched hglobals hfits hlive

theorem yields [Casing] (hfalls : i.Falls) (hgives : i.gives = 1)
    (hy : ∀ args, args.length = i.takes → (∀ v ∈ args, v.Every (ClosureOk P)) →
      i.YieldsOk P G m₁ args) :
    Sat (exec i) m₁ (fun _ => Stepped P G m) (Failed P G m) := by
  obtain ⟨S, args, hsplit, hargs, -, hS, hevery⟩ := h.split
  obtain ⟨r, hr, hok, herror⟩ := hy args hargs hevery
  refine yields_sat hfits (hlive.trans hsplit) hr ?_ ?_ ?_
  · intro v m₂ hv hagrees hfits₂ hlive₂
    refine h.goesOn hfalls (hfetched.agrees hagrees) (hagrees.globals.trans hglobals) hfits₂ ?_ ?_
    · rw [hlive₂]
      exact List.forall_mem_append.2 ⟨hS, List.forall_mem_singleton.2 (hok v hv)⟩
    · rw [hlive₂, hsplit, hgives]
      simp [hargs]
  · intro fault m₂ hfault hagrees
    obtain ⟨hknown, hforced⟩ := herror fault hfault
    rw [hglobals] at hknown
    exact h.failed (hfetched.agrees hagrees) (hagrees.globals.trans hglobals) hknown (hforced m)
  · intro m₂ hagrees hfull
    exact h.failedFull hfetched hfits (Nat.le_of_eq (by rw [hlive])) (hfetched.agrees hagrees)
      (hagrees.globals.trans hglobals) hfull

/-- An instruction that loads a value. -/
theorem loads [Casing] {r : Except Fault Value} (hfalls : i.Falls) (hgives : i.gives = 1)
    (htakes : i.takes = 0) (hr : i.source? m₁ = some r)
    (hok : ∀ v, r = .ok v → v.Every (ClosureOk P))
    (herror : ∀ f, r = .error f → f.Known G m₁.globals.size ∧ ∀ m', f.Forced m') :
    Sat (exec i) m₁ (fun _ => Stepped P G m) (Failed P G m) := by
  refine h.yields hfetched hglobals hfits hlive hfalls hgives ?_
  intro args hargs _
  obtain rfl := List.length_eq_zero_iff.1 (hargs.trans htakes)
  exact ⟨r, .source hr, hok, herror⟩

theorem loadsValue [Casing] {v : Value} (hfalls : i.Falls) (hgives : i.gives = 1)
    (htakes : i.takes = 0) (hv : i.source? m₁ = some (.ok v)) (hevery : v.Every (ClosureOk P)) :
    Sat (exec i) m₁ (fun _ => Stepped P G m) (Failed P G m) := by
  refine h.loads hfetched hglobals hfits hlive hfalls hgives htakes hv ?_ nofun
  rintro _ ⟨⟩
  exact hevery

theorem getsGlobal [Casing] {n : Nat} (hi : i = ⟨.getGlobal, [n]⟩) (hn : n < G) :
    Sat (exec i) m₁ (fun _ => Stepped P G m) (Failed P G m) := by
  subst hi
  cases hv : m.globals[n]? with
  | some v =>
    have hread : (⟨.getGlobal, [n]⟩ : Instr).source? m₁ = some (.ok v) := by
      simp only [Instr.source?, hglobals, hv]
    exact h.loadsValue hfetched hglobals hfits hlive ⟨nofun, nofun, nofun⟩ rfl rfl hread
      (h.ok.globals v (Array.mem_of_getElem? hv))
  | none =>
    have hread : (⟨.getGlobal, [n]⟩ : Instr).source? m₁ =
        some (.error (.globalRange n m.globals.size)) := by
      simp only [Instr.source?, hglobals, hv]
    refine h.loads hfetched hglobals hfits hlive ⟨nofun, nofun, nofun⟩ rfl rfl hread nofun ?_
    rintro _ ⟨⟩
    rw [hglobals]
    exact ⟨⟨rfl, Nat.lt_of_le_of_lt (Array.getElem?_eq_none_iff.1 hv) hn⟩, fun _ => trivial⟩

theorem getsLocal [Casing] {n : Nat} (hi : i = ⟨.getLocal, [n]⟩) (hn : n < m.frame.fn.locals) :
    Sat (exec i) m₁ (fun _ => Stepped P G m) (Failed P G m) := by
  subst hi
  have hbound : m.frame.base + n < m.live.length := by
    have hheight := h.position.2
    omega
  refine h.loadsValue hfetched hglobals hfits hlive ⟨nofun, nofun, nofun⟩ rfl rfl ?_
    (h.ok.live _ (List.getElem_mem hbound))
  change m₁.live[m₁.frame.base + n]?.map Except.ok = _
  rw [hlive, hfetched.frame, List.getElem?_eq_getElem hbound]
  rfl

theorem getsFree [Casing] {n : Nat} (hi : i = ⟨.getFree, [n]⟩) (hn : n < m.frame.free.length) :
    Sat (exec i) m₁ (fun _ => Stepped P G m) (Failed P G m) := by
  subst hi
  refine h.loadsValue hfetched hglobals hfits hlive ⟨nofun, nofun, nofun⟩ rfl rfl ?_
    (h.executes.free _ (List.getElem_mem hn))
  change m₁.frame.free[n]?.map Except.ok = _
  rw [hfetched.frame, List.getElem?_eq_getElem hn]
  rfl

/-- An instruction that makes a value of all that it takes. -/
theorem gathers [Casing] {f : List Value → Except Fault Value} (hfalls : i.Falls)
    (hgives : i.gives = 1) (hf : i.gather? = some f)
    (hok : ∀ args v, (∀ w ∈ args, w.Every (ClosureOk P)) → f args = .ok v →
      v.Every (ClosureOk P))
    (herror : ∀ args fault, f args = .error fault → fault.OfOperands) :
    Sat (exec i) m₁ (fun _ => Stepped P G m) (Failed P G m) := by
  refine h.yields hfetched hglobals hfits hlive hfalls hgives ?_
  intro args hargs hevery
  exact ⟨f args, .gather hf hargs, fun v => hok args v hevery, fun fault hfault =>
    ⟨(herror args fault hfault).known, (herror args fault hfault).forced⟩⟩

/-! ### Instructions that store and jump -/

omit hfetched hglobals hfits in
/-- The value that is taken, if it is one. -/
theorem split_one (htakes : i.takes = 1) :
    ∃ S v, m₁.live = S ++ [v] ∧ S.length = m.live.length - i.takes ∧
      m.frame.base + m.frame.fn.locals ≤ S.length ∧
      (∀ w ∈ S, w.Every (ClosureOk P)) ∧ v.Every (ClosureOk P) := by
  obtain ⟨S, args, hsplit, hargs, hlocals, hS, hevery⟩ := h.split
  obtain ⟨v, rfl⟩ := List.length_eq_one_iff.1 (hargs.trans htakes)
  refine ⟨S, v, hlive.trans hsplit, ?_, hlocals, hS, hevery v (by simp)⟩
  simp [hsplit, htakes]

theorem pops [Casing] (hi : i = ⟨.pop, []⟩) : Sat (exec i) m₁ (fun _ => Stepped P G m)
    (Failed P G m) := by
  subst hi
  obtain ⟨S, v, hsplit, hlength, -, hS, -⟩ := h.split_one hlive rfl
  refine pop_sat hfits hsplit ?_
  intro m₂ hagrees hfits₂ hlive₂ _
  refine h.goesOn ⟨nofun, nofun, nofun⟩ (hfetched.agrees hagrees)
    (hagrees.globals.trans hglobals) hfits₂ ?_ ?_
  · rw [hlive₂]
    exact hS
  · rw [hlive₂, hlength]
    rfl

theorem setsGlobal [Casing] {n : Nat} (hi : i = ⟨.setGlobal, [n]⟩) (hn : n < G) :
    Sat (exec i) m₁ (fun _ => Stepped P G m) (Failed P G m) := by
  subst hi
  obtain ⟨S, v, hsplit, hlength, -, hS, hv⟩ := h.split_one hlive rfl
  refine setGlobal_sat hfits hsplit ?_ ?_
  · intro m₂ hagrees hfits₂ hlive₂ _ _
    refine h.next ⟨nofun, nofun, nofun⟩ (hfetched.agrees hagrees).beside hfits₂ ?_ ?_ ?_ ?_
    · change ∀ w ∈ m₂.live, _
      rw [hlive₂]
      exact hS
    · change m₂.live.length = _
      rw [hlive₂, hlength]
      rfl
    · intro w hw
      obtain hw | rfl := Array.mem_or_eq_of_mem_setIfInBounds hw
      · rw [hglobals] at hw
        exact h.ok.globals w hw
      · exact hv
    · rw [Array.size_setIfInBounds, hglobals]
  · intro hsize
    rw [hglobals] at hsize ⊢
    exact h.failed hfetched hglobals ⟨rfl, Nat.lt_of_le_of_lt hsize hn⟩ trivial

theorem setsLocal [Casing] {n : Nat} (hi : i = ⟨.setLocal, [n]⟩) (hn : n < m.frame.fn.locals) :
    Sat (exec i) m₁ (fun _ => Stepped P G m) (Failed P G m) := by
  subst hi
  obtain ⟨S, v, hsplit, hlength, hlocals, hS, hv⟩ := h.split_one hlive rfl
  have hbase : m₁.frame.base = m.frame.base := by rw [hfetched.frame]
  refine setLocal_sat hfits hsplit (by omega) ?_
  intro m₂ hagrees hfits₂ hlive₂
  refine h.goesOn ⟨nofun, nofun, nofun⟩ (hfetched.agrees hagrees)
    (hagrees.globals.trans hglobals) hfits₂ ?_ ?_
  · rw [hlive₂]
    intro w hw
    obtain hw | rfl := List.mem_or_eq_of_mem_set hw
    · exact hS w hw
    · exact hv
  · rw [hlive₂, List.length_set, hlength]
    rfl

theorem jumps [Casing] {t : Nat} (hi : i = ⟨.jump, [t]⟩) :
    Sat (exec i) m₁ (fun _ => Stepped P G m) (Failed P G m) := by
  subst hi
  refine jump_sat (h.jumped rfl hfetched hglobals hfits ?_ ?_)
  · rw [hlive]
    exact h.ok.live
  · rw [hlive]
    rfl

theorem jumpsIfFalse [Casing] {t : Nat} (hi : i = ⟨.jumpIfFalse, [t]⟩) :
    Sat (exec i) m₁ (fun _ => Stepped P G m) (Failed P G m) := by
  subst hi
  obtain ⟨S, v, hsplit, hlength, -, hS, -⟩ := h.split_one hlive rfl
  refine jumpIfFalse_sat hfits hsplit ?_
  intro m₂ hagrees hfits₂ hlive₂
  have hfetched₂ := hfetched.agrees hagrees
  have hsame : m₂.globals = m.globals := hagrees.globals.trans hglobals
  subst hlive₂
  by_cases hv : v.truthy = true
  · rw [if_pos hv]
    exact h.goesOn ⟨nofun, nofun, nofun⟩ hfetched₂ hsame hfits₂ hS hlength
  · rw [if_neg hv]
    exact h.jumped rfl hfetched₂ hsame hfits₂ hS hlength

/-! ### Closures, calls and returns -/

theorem closes [Casing] {n k : Nat} {f : Function} (hi : i = ⟨.closure, [n, k]⟩)
    (hf : P[n]? = some (.function (some f))) (hfree : f.code.FreeBelow k) :
    Sat (exec i) m₁ (fun _ => Stepped P G m) (Failed P G m) := by
  subst hi
  obtain ⟨S, args, hsplit, hargs, -, hS, hevery⟩ := h.split
  obtain rfl : args.length = k := hargs
  have hfn : m₁.constants[n]? = some (.function (some f)) := by
    rw [hfetched.constants, h.ok.constants]
    exact hf
  have hfetched' : m.Fetched _ { m₁ with fresh := m₁.fresh + 1 } := hfetched.beside
  refine close_sat hfits (hlive.trans hsplit) rfl hfn ?_ ?_
  · intro m₂ hagrees hfits₂ hlive₂
    refine h.goesOn ⟨nofun, nofun, nofun⟩ (hfetched'.agrees hagrees)
      (hagrees.globals.trans hglobals) hfits₂ ?_ ?_
    · rw [hlive₂]
      exact List.forall_mem_append.2 ⟨hS, List.forall_mem_singleton.2
        (.closure ⟨Array.mem_of_getElem? hf, hfree⟩ hevery)⟩
    · rw [hlive₂, hsplit]
      simp [Instr.takes, Instr.gives]
  · intro m₂ hagrees hfull
    exact h.failedFull hfetched hfits (Nat.le_of_eq (by rw [hlive])) (hfetched'.agrees hagrees)
      (hagrees.globals.trans hglobals) hfull

/-- A closure is entered: the caller waits after the call. -/
theorem callsClosure [Casing] {id : Nat} {fn : Function} {S free args : List Value}
    (hi : i = ⟨.call, [args.length]⟩) (hsplit : m.live = S ++ .closure id (some fn) free :: args)
    (hS : ∀ v ∈ S, v.Every (ClosureOk P)) (hargs : ∀ v ∈ args, v.Every (ClosureOk P))
    (hclosure : ClosureOk P id fn free) (hfree : ∀ v ∈ free, v.Every (ClosureOk P)) :
    Sat (exec i) m₁ (fun _ => Stepped P G m) (Failed P G m) := by
  subst hi
  have hlocals : fn.locals ≤ maxOperand 1 := (h.pool.pooled _ hclosure.1).formed.1
  refine call_closure_sat hfits (hlive.trans hsplit) ?_
    (fun _ => h.failed hfetched hglobals trivial trivial)
    (fun _ _ => h.failed hfetched hglobals trivial trivial)
    fun hfull => h.failed hfetched hglobals trivial ?_
  swap
  · have hsize := hfetched.size
    change m.stack.size ≤ m.live.length + maxOperand 1
    rw [hsplit, List.length_append, List.length_cons]
    omega
  intro m₂ _ hroom hagrees hfits₂ hlive₂
  have hheight : m₂.live.length = S.length + 1 + fn.locals := by
    rw [hlive₂, List.length_append, List.length_cons, length_locals]
    omega
  have hcallers : (m₁.callers.push m₁.frame).toList.reverse =
      { m.frame with next := m.frame.next + Opcode.call.size } :: m.callers.toList.reverse := by
    rw [Array.toList_push, List.reverse_append, hfetched.callers, hfetched.frame]
    rfl
  refine h.reframed hfetched hglobals hagrees hfits₂ ?_ ?_ ?_ ?_
  · rw [hlive₂]
    exact List.forall_mem_append.2 ⟨hS, List.forall_mem_cons.2
      ⟨.closure hclosure hfree, every_locals hargs⟩⟩
  · intro _
    have hcaller := Frame.ok_next h.executes h.position h.flows h.lands ⟨nofun, nofun, nofun⟩
    rw [hcallers, hheight]
    refine ⟨Frame.ok_enter h.pool hclosure hfree (S.length + 1), Nat.succ_pos _,
      h.stacked.replace ?_ rfl⟩
    have hleft : m.live.length - (⟨.call, [args.length]⟩ : Instr).takes + 1 = S.length + 1 := by
      simp [hsplit, Instr.takes]
    rwa [← hleft]
  · rw [Array.size_push]
    rwa [hfetched.maxFrames] at hroom
  · rw [hcallers, hheight]
    refine .calls (g := ⟨fn, id, free, 0, S.length + 1⟩)
      (Nat.lt_add_of_pos_right (Opcode.size_pos _)) hclosure.1 ?_
    rw [hsplit, List.length_append, List.length_cons]
    change S.length + 1 ≤ _
    omega

theorem callsBuiltin [Casing] {b : Builtin} {S args : List Value} (hi : i = ⟨.call, [args.length]⟩)
    (hsplit : m.live = S ++ .builtin (.known b) :: args)
    (hS : ∀ v ∈ S, v.Every (ClosureOk P)) (hargs : ∀ v ∈ args, v.Every (ClosureOk P)) :
    Sat (exec i) m₁ (fun _ => Stepped P G m) (Failed P G m) := by
  subst hi
  have hfetched' : m.Fetched _ { m₁ with output := b.output args :: m₁.output } := hfetched.beside
  refine call_builtin_sat hfits (hlive.trans hsplit) ?_
  intro m₂ hagrees hfits₂ hlive₂
  refine h.goesOn ⟨nofun, nofun, nofun⟩ (hfetched'.agrees hagrees)
    (hagrees.globals.trans hglobals) hfits₂ ?_ ?_
  · rw [hlive₂]
    exact List.forall_mem_append.2 ⟨hS, List.forall_mem_singleton.2 (.apply b hargs)⟩
  · rw [hlive₂, hsplit]
    simp [Instr.takes, Instr.gives]

theorem calls [Casing] {n : Nat} (hi : i = ⟨.call, [n]⟩) :
    Sat (exec i) m₁ (fun _ => Stepped P G m) (Failed P G m) := by
  obtain ⟨S, callee, args, hsplit, rfl, -, hS, hcallee, hargs⟩ := h.split_call hi
  cases hcallee with
  | closure hclosure hfree =>
    exact h.callsClosure hfetched hglobals hfits hlive hi hsplit hS hargs hclosure hfree
  | builtin b => exact h.callsBuiltin hfetched hglobals hfits hlive hi hsplit hS hargs
  | _ =>
    subst hi
    exact call_other_sat hfits (hlive.trans hsplit) nofun nofun nofun
      (h.failed hfetched hglobals trivial trivial)

omit hlive in
/-- A return from the main code ends the run. -/
theorem leavesMain {v : Value} (hevery : ∀ w ∈ m₁.live, w.Every (ClosureOk P))
    (hheight : m₁.live.length ≤ m.live.length) (hcallers : m.callers.back? = none) :
    Sat (leave v) m₁ (fun _ => Stepped P G m) (Failed P G m) := by
  have hnone : m₁.callers.back? = none := by
    rw [hfetched.callers]
    exact hcallers
  refine leave_main_sat hfits hnone ?_ fun hfull =>
    h.failedFull hfetched hfits hheight hfetched hglobals (Nat.le_of_eq hfull.symm)
  intro m₂ hagrees hfits₂ hlive₂ _
  refine h.reframed hfetched hglobals hagrees hfits₂ ?_ ?_ ?_ ?_
  · rw [hlive₂]
    exact hevery
  · intro hrunning
    rw [running, hagrees.frame] at hrunning
    simp at hrunning
  · rw [hfetched.callers]
    exact h.ok.depth
  · rw [hlive₂, hfetched.callers, hfetched.frame]
    exact .goes h.next_lt (Nat.le_succ_of_le hheight)

omit hglobals hlive in
/-- A return from a function drops all that is above the values of the caller: the callee with its
locals, which are below what the function has pushed. -/
theorem returns_sat {Q : Unit → Machine → Prop} {E : Fault → Machine → Prop} {v : Value}
    {caller : Frame} {callers : Array Frame} (hpush : m.callers = callers.push caller)
    (hbase : m.frame.base ≤ m₁.live.length)
    (hok : ∀ m₂, { m₁ with callers := callers, frame := caller }.Agrees m₂ → m₂.Fits →
      m₂.live = m₁.live.take (m.frame.base - 1) ++ [v] →
      (m₁.live.take (m.frame.base - 1)).length + 1 = m.frame.base → Q () m₂) :
    Sat (leave v) m₁ Q E := by
  have hstacked := h.stacked
  rw [frames_of_push hpush] at hstacked
  have hpos : 0 < m.frame.base := hstacked.2.1
  have hlength : (m₁.live.take (m.frame.base - 1)).length + 1 = m.frame.base := by
    rw [List.length_take]
    omega
  have hdrop : m₁.live.drop (m.frame.base - 1) ≠ [] := by
    rw [ne_eq, List.drop_eq_nil_iff]
    omega
  have hpush₁ : m₁.callers = callers.push caller := hfetched.callers.trans hpush
  have hback : m₁.callers.back? = some caller := by rw [hpush₁, Array.back?_push]
  refine leave_sat hfits hback (List.take_append_drop (m.frame.base - 1) m₁.live).symm hdrop ?_ ?_
  · rw [hfetched.frame]
    exact hlength.symm
  · intro m₂ hagrees hfits₂ hlive₂
    rw [hpush₁, Array.pop_push] at hagrees
    exact hok m₂ hagrees hfits₂ hlive₂ hlength

omit hlive in
/-- A return from a function goes on in the caller, where the value stands for the call. -/
theorem leavesFunction {v : Value} {caller : Frame} (hv : v.Every (ClosureOk P))
    (hevery : ∀ w ∈ m₁.live, w.Every (ClosureOk P)) (hbase : m.frame.base ≤ m₁.live.length)
    (hcaller : m.callers.back? = some caller) :
    Sat (leave v) m₁ (fun _ => Stepped P G m) (Failed P G m) := by
  obtain ⟨callers, hpush⟩ := Array.back?_eq_some_iff.1 hcaller
  have hframes : m.frames = m.frame :: caller :: callers.toList.reverse := frames_of_push hpush
  refine h.returns_sat hfetched hfits hpush hbase ?_
  intro m₂ hagrees hfits₂ hlive₂ hlength
  have hheight : m₂.live.length = m.frame.base := by
    rw [hlive₂, List.length_append, List.length_singleton, hlength]
  refine h.reframed hfetched hglobals hagrees hfits₂ ?_ ?_ ?_ ?_
  · rw [hlive₂]
    exact List.forall_mem_append.2 ⟨fun w hw => hevery w (List.mem_of_mem_take hw),
      List.forall_mem_singleton.2 hv⟩
  · intro _
    have hstacked := h.stacked
    rw [hframes] at hstacked
    rw [hheight]
    exact hstacked.2.2
  · have hdepth := h.ok.depth
    rw [hpush, Array.size_push] at hdepth
    omega
  · rw [hframes, hheight]
    exact .returns

omit hlive in
theorem leaves {v : Value} (hv : v.Every (ClosureOk P))
    (hevery : ∀ w ∈ m₁.live, w.Every (ClosureOk P)) (hbase : m.frame.base ≤ m₁.live.length)
    (hheight : m₁.live.length ≤ m.live.length) :
    Sat (leave v) m₁ (fun _ => Stepped P G m) (Failed P G m) := by
  cases hcallers : m.callers.back? with
  | none => exact h.leavesMain hfetched hglobals hfits hevery hheight hcallers
  | some caller => exact h.leavesFunction hfetched hglobals hfits hv hevery hbase hcallers

/-- The instructions without operands. -/
theorem plain [Casing] {op : Opcode} (hi : i = ⟨op, []⟩) (hop : op.widths = [])
    (hself : op ≠ .currentClosure) :
    Sat (exec i) m₁ (fun _ => Stepped P G m) (Failed P G m) := by
  by_cases hpop : op = .pop
  · exact h.pops hfetched hglobals hfits hlive (hi.trans (by rw [hpop]))
  by_cases hvalue : op = .returnValue
  · subst hvalue hi
    obtain ⟨S, v, hsplit, hlength, hlocals, hS, hv⟩ := h.split_one hlive rfl
    refine .bind (.pop hfits hsplit ?_)
    intro m₂ hagrees hfits₂ hlive₂ _
    refine h.leaves (hfetched.agrees hagrees) (hagrees.globals.trans hglobals) hfits₂ hv ?_ ?_ ?_
    · rw [hlive₂]
      exact hS
    · rw [hlive₂]
      omega
    · rw [hlive₂]
      omega
  by_cases hret : op = .ret
  · subst hret hi
    refine h.leaves hfetched hglobals hfits .null ?_ ?_ (Nat.le_of_eq (by rw [hlive]))
    · rw [hlive]
      exact h.ok.live
    · have hheight := h.position.2
      rw [hlive]
      omega
  subst hi
  obtain ⟨hgives, hjump, -, -⟩ := Instr.gives_plain hop hpop hvalue hret
  refine h.yields hfetched hglobals hfits hlive ⟨hjump, hvalue, hret⟩ hgives ?_
  intro args hargs hevery
  exact Instr.yieldsOk_plain hop hself hgives hargs hevery

/-- A legal instruction is executed without a crash. -/
theorem execs [Casing] : Sat (exec i) m₁ (fun _ => Stepped P G m) (Failed P G m) := by
  cases h.legal with
  | @const n v _ hv hliteral =>
    have hread : (⟨.const, [n]⟩ : Instr).source? m₁ = some (.ok v) := by
      change m₁.constants[n]?.map Except.ok = _
      rw [hfetched.constants, h.ok.constants, hv]
      rfl
    exact h.loadsValue hfetched hglobals hfits hlive ⟨nofun, nofun, nofun⟩ rfl rfl hread
      hliteral.every
  | closure _ _ hf hfree => exact h.closes hfetched hglobals hfits hlive rfl hf hfree
  | global hop hn =>
    rcases hop with rfl | rfl
    · exact h.getsGlobal hfetched hglobals hfits hlive rfl hn
    · exact h.setsGlobal hfetched hglobals hfits hlive rfl hn
  | «local» hop hn =>
    rcases hop with rfl | rfl
    · exact h.getsLocal hfetched hglobals hfits hlive rfl hn
    · exact h.setsLocal hfetched hglobals hfits hlive rfl hn
  | free hn => exact h.getsFree hfetched hglobals hfits hlive rfl hn
  | self hinside =>
    refine h.loadsValue hfetched hglobals hfits hlive ⟨nofun, nofun, nofun⟩ rfl rfl rfl ?_
    rw [hfetched.frame]
    exact .closure (h.executes.closure hinside) h.executes.free
  | builtin b =>
    have hread : (⟨.getBuiltin, [b.slot]⟩ : Instr).source? m₁ = some (.ok (.builtin (.known b))) := by
      simp [Instr.source?, Builtin.ofSlot?_slot]
    exact h.loadsValue hfetched hglobals hfits hlive ⟨nofun, nofun, nofun⟩ rfl rfl hread (.builtin b)
  | count hop _ =>
    rcases hop with rfl | rfl
    · refine h.gathers hfetched hglobals hfits hlive ⟨nofun, nofun, nofun⟩ rfl rfl ?_ nofun
      rintro args _ hargs ⟨⟩
      exact .array hargs
    · refine h.gathers hfetched hglobals hfits hlive ⟨nofun, nofun, nofun⟩ rfl rfl ?_ ?_
      · intro args v hargs hv
        cases hpairs : Entry.pairUp [] args with
        | error fault => rw [hpairs] at hv; cases hv
        | ok entries =>
          rw [hpairs] at hv
          cases hv
          exact .file (Value.Every.pairUp (by simp) hargs hpairs)
      · intro args fault hfault
        cases hpairs : Entry.pairUp [] args with
        | error fault' =>
          rw [hpairs] at hfault
          cases hfault
          exact Fault.ofOperands_pairUp hpairs
        | ok entries => rw [hpairs] at hfault; cases hfault
  | jump hop _ =>
    rcases hop with rfl | rfl
    · exact h.jumps hfetched hglobals hfits hlive rfl
    · exact h.jumpsIfFalse hfetched hglobals hfits hlive rfl
  | call _ => exact h.calls hfetched hglobals hfits hlive rfl
  | plain hop hself => exact h.plain hfetched hglobals hfits hlive rfl hop hself

end Ready

/-- A machine that has an instruction left is ready to execute it. -/
theorem Ok.ready {P : Array Value} {G : Nat} {m : Machine} (h : m.Ok P G)
    (hpool : PoolOk P G) (hrunning : m.running = true) :
    ∃ i is depth inside, Ready P G m i is depth inside ∧
      m.frame.fn.code.fetch m.frame.next = some (.instr i) ∧
      (m.frame.next, .instr i) ∈ m.frame.fn.code.walk := by
  have hstacked := h.stacked hrunning
  obtain ⟨is, depth, inside, hexecutes, hat⟩ := hstacked.ok
  obtain ⟨i, hi, hfetch, hwalk, hflows, hlands⟩ := hat.instr hexecutes (by simpa [running] using hrunning)
  exact ⟨i, is, depth, inside,
    ⟨h, hpool, hstacked, hexecutes, hat, hexecutes.legal i hi, hflows, hlands⟩, hfetch,
    hwalk⟩

/-- A step of a safe machine does not crash, and leads to a safe machine or to a known fault. -/
theorem Ok.step [Casing] {P : Array Value} {G : Nat} {m : Machine} (h : m.Ok P G)
    (hpool : PoolOk P G) (hrunning : m.running = true) :
    Exec.Sat Machine.step m (fun _ => Stepped P G m) (Failed P G m) := by
  obtain ⟨i, is, depth, inside, hready, hfetch, -⟩ := h.ready hpool hrunning
  refine step_sat h.fits hfetch ?_ ?_
  · intro m₁ hagrees hfits hlive
    exact hready.execs ⟨hagrees.frame, hagrees.callers, hagrees.constants, hagrees.maxFrames,
      hagrees.limit, hagrees.size⟩ hagrees.globals hfits hlive
  · intro hlimit
    exact ⟨trivial, hlimit, h.globals, rfl, rfl, rfl, rfl⟩

end Machine

end StackScript
