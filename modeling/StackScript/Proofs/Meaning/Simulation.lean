import StackScript.Proofs.Meaning.Represent

/-!
# Code does what trees mean

A run of compiled code follows the evaluation of the tree that it was compiled
from. Whatever a run may end in is described by what the evaluation may end in:
if all goes well after the evaluation of a piece of a program, whichever machine
represents its result, then all goes well from the start of its code. Pieces
that are compiled one after another are put together in the same way.

A machine has limits that an evaluation does not have: the sizes of its stack
and of the global store, and the number of instructions. A run may be cut off by
them anywhere.

## Main definitions

* `Machine.Runs`: how a run may end.
* `Eval.Sat`: how an evaluation may end.
* `Piece`: a piece of the code of a call.
* `Pushes`: a piece that follows an evaluation and pushes its values.
-/

namespace StackScript

/-! ### Runs -/

namespace Machine

variable {R : Ending → Machine → Prop} {m : Machine}

/-- However long it is executed, the run ends as described by `R`. -/
def Runs [Casing] (R : Ending → Machine → Prop) (m : Machine) : Prop :=
  ∀ fuel, R (m.runFor fuel).1 (m.runFor fuel).2

/-- The run may end in the fault. -/
def Stops (R : Ending → Machine → Prop) (f : Fault) (m : Machine) : Prop :=
  ∀ e : RuntimeError, e.fault = f → R (.stopped (.fault e)) m

theorem Runs.finished [Casing] (hrunning : m.running = false) (h : R .finished m) : m.Runs R := by
  intro fuel
  have hrun : m.runFor fuel = (.finished, m) := by
    cases fuel <;> simp [runFor, hrunning]
  rwa [hrun]

theorem Runs.step [Casing] (hrunning : m.running = true) (hnow : R .unfinished m)
    (h : Exec.Sat Machine.step m (fun _ m' => m'.Runs R) (Stops R)) : m.Runs R := by
  intro fuel
  cases fuel with
  | zero => simpa [runFor, hrunning] using hnow
  | succ fuel =>
    rw [runFor, if_pos hrunning]
    cases hstep : Machine.step m with
    | ok a m' => exact h.of_ok hstep fuel
    | error s m' =>
      cases s with
      | crash => exact absurd hstep h.ne_crash
      | fault e => exact h.of_fault hstep e rfl

end Machine

/-! ### Evaluations -/

namespace Eval

variable {α β : Type} {st : Store} {Q : α → Store → Prop} {B : Break → Store → Prop}

/-- `Q` holds of the result of the evaluation, and `B` if it breaks off. -/
def Sat (x : Eval α) (st : Store) (Q : α → Store → Prop) (B : Break → Store → Prop) : Prop :=
  match x st with
  | .ok a st' => Q a st'
  | .error b st' => B b st'

theorem sat_bind {x : Eval α} {f : α → Eval β} {Q : β → Store → Prop} :
    Sat (x >>= f) st Q B ↔ Sat x st (fun a st' => Sat (f a) st' Q B) B := by
  simp only [Sat, Bind.bind, EStateM.bind]
  cases x st <;> rfl

theorem Sat.mono {x : Eval α} {Q' : α → Store → Prop} (h : Sat x st Q B)
    (hQ : ∀ a st', Q a st' → Q' a st') : Sat x st Q' B := by
  unfold Sat at h ⊢
  cases hx : x st with
  | ok a st' =>
    rw [hx] at h
    exact hQ a st' h
  | error b st' =>
    rw [hx] at h
    exact h

/-- Two things that hold of a result. -/
theorem Sat.and {x : Eval α} {Q' : α → Store → Prop} (h : Sat x st Q B)
    (h' : Sat x st Q' fun _ _ => True) : Sat x st (fun a st' => Q a st' ∧ Q' a st') B := by
  unfold Sat at h h' ⊢
  cases hx : x st with
  | ok a st' =>
    rw [hx] at h h'
    exact ⟨h, h'⟩
  | error b st' =>
    rw [hx] at h
    exact h

theorem Sat.true (x : Eval α) (st : Store) : Sat x st (fun _ _ => True) fun _ _ => True := by
  unfold Sat
  cases x st <;> trivial

@[simp] theorem sat_pure {a : α} : Sat (pure a) st Q B ↔ Q a st := Iff.rfl

@[simp] theorem sat_throw {b : Break} : Sat (throw b : Eval α) st Q B ↔ B b st := Iff.rfl

@[simp] theorem sat_get {Q : Store → Store → Prop} : Sat get st Q B ↔ Q st st := Iff.rfl

@[simp] theorem sat_modify {f : Store → Store} {Q : Unit → Store → Prop} :
    Sat (modify f) st Q B ↔ Q () (f st) := Iff.rfl

theorem sat_lift {r : Except Fault Value} {Q : Value → Store → Prop} :
    Sat (lift r) st Q B ↔
      match r with
      | .ok v => Q v st
      | .error f => B (.fault f) st := by
  cases r <;> rfl

/-- `Q` holds when the evaluation breaks off by a return, and `B` otherwise. -/
def Caught (Q : Value → Store → Prop) (B : Break → Store → Prop) : Break → Store → Prop
  | .returned v, st => Q v st
  | b, st => B b st

/-- The value of a return is a result. -/
theorem sat_catchReturn {x : Eval Value} {Q : Value → Store → Prop} :
    Sat (catchReturn x) st Q B ↔ Sat x st Q (Caught Q B) := by
  simp only [Sat, catchReturn]
  cases x st with
  | ok a st' => rfl
  | error b st' => cases b <;> rfl

end Eval

/-! ### Steps -/

/-- A limit of the machine has been reached. -/
def Fault.Cut : Fault → Prop
  | .stackOverflow | .instructionLimit _ | .globalRange _ _ => True
  | _ => False

/-- A run may be cut off anywhere. -/
def Tolerates (P : Array Value) (G : List Bytes) (R : Machine.Ending → Machine → Prop) : Prop :=
  ∀ st m, Mirrors P G st m → R .unfinished m ∧ ∀ f : Fault, f.Cut → m.Stops R f

namespace Call

variable {P : Array Value} {G : List Bytes} {R : Machine.Ending → Machine → Prop} {K : Call}
  {st : Store} {m : Machine} {next offset : Nat} {ops : List Value} {i : Instr} {s : List Instr}
  {B : Break → Store → Prop}

/-- How the run goes on, or ends, when the evaluation of the call breaks off. -/
structure Breaks [Casing] (P : Array Value) (G : List Bytes) (R : Machine.Ending → Machine → Prop)
    (K : Call) (B : Break → Store → Prop) : Prop where
  returned : ∀ v st, B (.returned v) st → ∀ (w : Value) m, w.Shows P G st.lambdas v →
    K.Inside P G st m → Exec.Sat (Exec.leave w) m (fun _ m' => m'.Runs R) (Machine.Stops R)
  fault : ∀ f st, B (.fault f) st → ∀ m, Mirrors P G st m → m.Stops R f
  tooDeep : ∀ st, B .tooDeep st → ∀ m, Mirrors P G st m → m.Stops R (.frameOverflow m.maxFrames)

/-- The machine goes on in the call with the same stack. -/
theorem Standing.move {m' : Machine} {next' : Nat} (h : K.Standing P G st m next ops)
    (hmirrors : Mirrors P G st m') (hfits : m'.Fits) (hframe : m'.frame = { m.frame with next := next' })
    (hcallers : m'.callers = m.callers) (hmax : m'.maxFrames = m.maxFrames)
    (hlive : m'.live = m.live) : K.Standing P G st m' next' ops where
  mirrors := hmirrors
  fits := hfits
  frame := by rw [hframe, h.frame]
  callers := hcallers.trans h.callers
  depth := hmax.trans h.depth
  grown := h.grown
  live := by rw [hlive]; exact h.live
  ops := h.ops

/-- The machine executes the instruction at which it stands, unless it is cut off. -/
theorem Standing.step [Casing] (h : K.Standing P G st m offset ops) (hT : Tolerates P G R)
    (hK : K.Ok P G) (hcode : K.CodeAt offset (i :: s))
    (hexec : ∀ m', K.Standing P G st m' (offset + i.op.size) ops →
      Exec.Sat (Exec.exec i) m' (fun _ m'' => m''.Runs R) (Machine.Stops R)) : m.Runs R := by
  obtain ⟨hlt, hfetch⟩ := hcode.fetch hK
  obtain ⟨hnow, -⟩ := hT st m h.mirrors
  have hcode' : m.frame.fn.code = K.fn.code := by rw [h.frame]
  have hnext : m.frame.next = offset := by rw [h.frame]
  have hfetch' : m.frame.fn.code.fetch m.frame.next = some (.instr i) := by rwa [hcode', hnext]
  have hmirrors (n : Nat) : Mirrors P G st (m.advance n) := h.mirrors.transfer rfl rfl rfl rfl
  refine .step ?_ hnow (Machine.step_sat h.fits hfetch' ?_ ?_)
  · rw [Machine.running, hcode', hnext]
    exact decide_eq_true hlt
  · intro m' hagrees hfits hlive
    refine hexec m' (h.move ((hmirrors _).of_agrees hagrees) hfits ?_ hagrees.callers
      hagrees.maxFrames hlive)
    rw [hagrees.frame, ← hnext]
    rfl
  · intro _
    exact (hT st _ (hmirrors _)).2 _ trivial

/-- An instruction that yields a value takes its operands from the stack and pushes the value. -/
theorem Standing.yields [Casing] {args : List Value} {r : Except Fault Value}
    (h : K.Standing P G st m next (ops ++ args)) (hT : Tolerates P G R) (hyields : i.Yields m args r)
    (hevery : ∀ w, r = .ok w → w.Every (ClosureShows P G st.lambdas))
    (hok : ∀ w m', r = .ok w → K.Standing P G st m' next (ops ++ [w]) → m'.Runs R)
    (herror : ∀ f m', r = .error f → Mirrors P G st m' → m'.Stops R f) :
    Exec.Sat (Exec.exec i) m (fun _ m' => m'.Runs R) (Machine.Stops R) := by
  obtain ⟨locals, hlive, hlocals⟩ := h.live
  have hlive' : m.live = (K.below ++ (locals ++ ops)) ++ args := by simp [hlive]
  refine Exec.yields_sat h.fits hlive' hyields ?_ ?_ ?_
  · intro w m' hw hagrees hfits hlive''
    refine hok w m' hw ⟨h.mirrors.of_agrees hagrees, hfits, ?_, ?_, ?_, h.grown, ?_, ?_⟩
    · exact hagrees.frame.trans h.frame
    · exact hagrees.callers.trans h.callers
    · exact hagrees.maxFrames.trans h.depth
    · exact ⟨locals, by simp [hlive''], hlocals⟩
    · intro u hu
      rcases List.mem_append.1 hu with hu | hu
      · exact h.ops u (List.mem_append_left args hu)
      · obtain rfl := List.mem_singleton.1 hu
        exact hevery u hw
  · intro f m' hf hagrees
    exact herror f m' hf (h.mirrors.of_agrees hagrees)
  · intro m' hagrees _
    exact (hT st m' (h.mirrors.of_agrees hagrees)).2 _ trivial

end Call

/-! ### Pieces of code -/

/-- The piece `seg` is emitted by `p` in the code of the call, between the names and constants `σ` and
`τ`. It binds the names `xs` after `names`. -/
structure Piece [Casing] (P : Array Value) (G : List Bytes) (R : Machine.Ending → Machine → Prop)
    (d : Nat)
    (K : Call) (B : Break → Store → Prop) (p : Emission) (xs : List Bytes) (offset : Nat) (σ : Context)
    (seg : List Instr) (τ : Context) (names : Names) : Prop where
  ok : K.Ok P G
  depth : K.depth = d
  breaks : K.Breaks P G R B
  emits : p offset σ seg τ
  context : σ.Ok
  known : names.Match σ.tables
  grows : τ.Grows K.final
  covers : K.Covers G (names.bindAll xs)

/-- The piece of code follows the evaluation `x`, in any call inside which there may be `d` others,
and pushes the values of its result. -/
def Pushes [Casing] {α : Type} (P : Array Value) (G : List Bytes)
    (R : Machine.Ending → Machine → Prop) (d : Nat)
    (p : Emission) (xs : List Bytes) (x : Option Current → Names → Eval α) (vals : α → List Value) :
    Prop :=
  ∀ K B offset σ seg τ names st m ops, Piece P G R d K B p xs offset σ seg τ names →
    K.CodeAt offset seg → K.Standing P G st m offset ops →
    (x K.current names).Sat st (fun a st' => ∀ ws m', ws.map Value.outline = vals a →
      K.Standing P G st' m' (offset + Instr.bytes seg) (ops ++ ws) → m'.Runs R) B →
    m.Runs R

section

variable {α β γ : Type} {P : Array Value} {G : List Bytes} {R : Machine.Ending → Machine → Prop}
  {d : Nat} {K : Call} {B : Break → Store → Prop} {p q : Emission} {xs ys : List Bytes} {offset : Nat}
  {σ τ : Context} {seg : List Instr} {names : Names}

/-- Another piece between the same names and constants. -/
theorem Piece.of_emits [Casing] (h : Piece P G R d K B p xs offset σ seg τ names) {s : List Instr}
    (hq : q offset σ s τ) : Piece P G R d K B q xs offset σ s τ names :=
  ⟨h.ok, h.depth, h.breaks, hq, h.context, h.known, h.grows, h.covers⟩

/-- One piece after another: the names that the first one binds are known to the second one. -/
theorem Piece.split [Casing] (h : Piece P G R d K B (p.seq q) (xs ++ ys) offset σ seg τ names)
    (hp : p.Lawful) (hq : q.Lawful) (hbinds : p.Binds xs) :
    ∃ s σ₁ t, seg = s ++ t ∧ Piece P G R d K B p xs offset σ s σ₁ names ∧
      Piece P G R d K B q ys (offset + Instr.bytes s) σ₁ t τ (names.bindAll xs) := by
  obtain ⟨s, σ₁, t, hs, ht, rfl⟩ := h.emits
  obtain ⟨hσ₁, -, -⟩ := hp _ _ _ _ hs h.context
  obtain ⟨-, hgrows₁, -⟩ := hq _ _ _ _ ht hσ₁
  have hcovers := h.covers
  rw [Names.bindAll_append] at hcovers
  exact ⟨s, σ₁, t, rfl,
    ⟨h.ok, h.depth, h.breaks, hs, h.context, h.known, hgrows₁.trans h.grows, hcovers.of_bindAll⟩,
    ⟨h.ok, h.depth, h.breaks, ht, hσ₁, hbinds _ _ _ _ _ hs h.known, h.grows, hcovers⟩⟩

/-- A piece that ends in an instruction. -/
theorem Piece.split_one [Casing] {i : Instr}
    (h : Piece P G R d K B (p.seq (Emission.one i)) xs offset σ seg τ names) :
    ∃ s, seg = s ++ [i] ∧ Piece P G R d K B p xs offset σ s τ names := by
  obtain ⟨s, _, _, hs, ⟨rfl, rfl⟩, rfl⟩ := h.emits
  exact ⟨s, rfl, h.of_emits hs⟩

namespace Pushes

variable {x : Option Current → Names → Eval α} {y : Option Current → Names → Eval β}
  {xvals : α → List Value} {yvals : β → List Value}

theorem seq [Casing] (hx : Pushes P G R d p xs x xvals) (hy : Pushes P G R d q ys y yvals)
    (hp : p.Lawful) (hq : q.Lawful) (hbinds : p.Binds xs) {f : α → β → γ} {g : γ → List Value}
    (hf : ∀ a b, g (f a b) = xvals a ++ yvals b) :
    Pushes P G R d (p.seq q) (xs ++ ys)
      (fun current names => do
        let a ← x current names
        let b ← y current (names.bindAll xs)
        return f a b) g := by
  intro K B offset σ seg τ names st m ops hpiece hcode hstanding h
  obtain ⟨s, σ₁, t, rfl, hfirst, hsecond⟩ := hpiece.split hp hq hbinds
  rw [Eval.sat_bind] at h
  refine hx K B offset σ s σ₁ names st m ops hfirst hcode.left hstanding (h.mono ?_)
  intro a st₁ ha ws₁ m₁ hws₁ hstanding₁
  rw [Eval.sat_bind] at ha
  refine hy K B _ σ₁ t τ _ st₁ m₁ _ hsecond hcode.right hstanding₁ (ha.mono ?_)
  intro b st₂ hb ws₂ m₂ hws₂ hstanding₂
  refine hb (ws₁ ++ ws₂) m₂ ?_ ?_
  · rw [List.map_append, hws₁, hws₂, hf]
  · rw [Instr.bytes_append, ← Nat.add_assoc, ← List.append_assoc]
    exact hstanding₂

/-- The same evaluation written in another way. -/
theorem congr [Casing] {x' : Option Current → Names → Eval α} (hx : Pushes P G R d p xs x xvals)
    (heq : ∀ current names, x' current names = x current names) :
    Pushes P G R d p xs x' xvals := by
  have hx' : x' = x := by
    funext current names
    exact heq current names
  rwa [hx']

theorem given [Casing] {Φ : Prop} (hx : Φ → Pushes P G R d p xs x xvals) :
    Pushes P G R d (Emission.given Φ p) xs x xvals := by
  intro K B offset σ seg τ names st m ops hpiece
  exact hx hpiece.emits.1 K B offset σ seg τ names st m ops (hpiece.of_emits hpiece.emits.2)

theorem nothing [Casing] {a : α} (ha : xvals a = []) :
    Pushes P G R d Emission.nothing [] (fun _ _ => pure a) xvals := by
  intro K B offset σ seg τ names st m ops hpiece hcode hstanding h
  obtain ⟨rfl, rfl⟩ := hpiece.emits
  refine h [] m ?_ ?_
  · rw [ha, List.map_nil]
  · rw [List.append_nil]
    exact hstanding

end Pushes

end

/-- The instruction computes from values what `g` computes from what they stand for, if this has the
property `Φ`. -/
def Applies {α : Type} (Φ : α → Prop) (i : Instr) (vals : α → List Value) (g : α → Eval Value) :
    Prop :=
  ∀ a ws m, Φ a → ws.map Value.outline = vals a →
    ∃ r, i.Yields m ws r ∧ g a = .lift (r.map Value.outline) ∧
      ∀ C w, (∀ u ∈ ws, u.Every C) → r = .ok w → w.Every C

/-- A piece whose values an instruction is applied to. -/
theorem Pushes.apply [Casing] {α : Type} {P : Array Value} {G : List Bytes}
    {R : Machine.Ending → Machine → Prop} {d : Nat} {p : Emission} {xs : List Bytes}
    {x : Option Current → Names → Eval α} {vals : α → List Value} {i : Instr} {g : α → Eval Value}
    {Φ : α → Prop} (hT : Tolerates P G R) (hx : Pushes P G R d p xs x vals)
    (hΦ : ∀ current names st, (x current names).Sat st (fun a _ => Φ a) fun _ _ => True)
    (hg : Applies Φ i vals g) :
    Pushes P G R d (p.seq (Emission.one i)) xs
      (fun current names => x current names >>= g) (fun v => [v]) := by
  intro K B offset σ seg τ names st m ops hpiece hcode hstanding h
  obtain ⟨s, rfl, hfirst⟩ := hpiece.split_one
  rw [Eval.sat_bind] at h
  refine hx K B offset σ s τ names st m ops hfirst hcode.left hstanding ((h.and (hΦ _ _ _)).mono ?_)
  rintro a st₁ ⟨ha, hΦa⟩ ws m₁ hws hstanding₁
  refine hstanding₁.step hT hpiece.ok hcode.right ?_
  intro m₂ hstanding₂
  obtain ⟨r, hyields, heq, hevery⟩ := hg a ws m₂ hΦa hws
  rw [heq, Eval.sat_lift] at ha
  refine hstanding₂.yields hT hyields ?_ ?_ ?_
  · intro w hw
    exact hevery _ w (fun u hu => hstanding₂.ops u (List.mem_append_right ops hu)) hw
  · rintro w m₃ rfl hstanding₃
    refine ha [w] m₃ rfl ?_
    rw [Instr.bytes_append, Instr.bytes_cons, Instr.bytes_nil, Nat.add_zero, ← Nat.add_assoc]
    exact hstanding₃
  · rintro f m₃ rfl hmirrors
    exact hpiece.breaks.fault f st₁ ha m₃ hmirrors

end StackScript
