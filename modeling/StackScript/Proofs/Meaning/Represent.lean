import StackScript.Proofs.Compile.WellFormed
import StackScript.Proofs.Machine.Effect
import StackScript.Proofs.Meaning.Binding
import StackScript.Proofs.Meaning.Outline

/-!
# Machines that represent stores

A machine in the middle of compiled code represents the store of an evaluation.
Its values have the store's values as outlines, and each closure in them is
compiled from the closure with the same identity. The slots of a call hold the
variables of the current call, and captured values are those of the calls around
the closure.

## Main definitions

* `Value.Shows`: a value of the machine and the value of the evaluation that it stands for.
* `Mirrors`: a machine and a store.
* `Call`, `Call.Standing`: a machine in the middle of the code of a call.

## Main results

* `Call.Standing.load`: the value of a name is found at its place.
-/

namespace StackScript

/-- What corresponds to an element stands at the same position. -/
theorem forall₂_getElem? {α β : Type} {R : α → β → Prop} {as : List α} {bs : List β}
    (h : List.Forall₂ R as bs) {k : Nat} {a : α} (ha : as[k]? = some a) :
    ∃ b, bs[k]? = some b ∧ R a b := by
  induction h generalizing k with
  | nil => cases ha
  | cons hab _ ih =>
    cases k with
    | zero =>
      obtain rfl := Option.some.inj ha
      exact ⟨_, rfl, hab⟩
    | succ k => exact ih ha

/-! ### Closures and values -/

/-- The closure is compiled to the function, with the captured values `free`: its body is emitted as
`s` between the names and constants `σ` around it and `τ` at its end. -/
structure Lambda.Compiled (P : Array Value) (G : List Bytes) (c : Lambda) (f : Function)
    (free : List Value) (σ : Context) (s : List Instr) (τ : Context) : Prop where
  context : σ.Ok
  names : c.names.Match σ.tables
  emits : c.body.Emits 0 (σ.enter c.name c.params) s τ
  constants : τ.constants.toList <+: P.toList
  globals : c.names.globals <+: G
  name : f.name = c.name
  code : f.code = .ofInstrs (Instr.close s)
  params : f.params = c.params.length
  locals : f.locals = τ.table.definitions
  few : τ.table.definitions ≤ maxOperand 1 ∧ τ.table.free.size ≤ maxOperand 1
  captured : List.Forall₂
    (fun (x : Symbol) (w : Value) => lookupLevels x.name c.names.levels c.around = some w.outline)
    τ.table.free.toList free

/-- The closure of the machine is compiled from the closure with its identity. -/
def ClosureShows (P : Array Value) (G : List Bytes) (lambdas : List Lambda) (id : Nat) (f : Function)
    (free : List Value) : Prop :=
  ∃ c, Lambda.find? lambdas id = some c ∧ ∃ σ s τ, c.Compiled P G f free σ s τ

/-- The value of the machine stands for the value of the evaluation. -/
def Value.Shows (P : Array Value) (G : List Bytes) (lambdas : List Lambda) (w v : Value) : Prop :=
  w.outline = v ∧ w.Every (ClosureShows P G lambdas)

section

variable {P : Array Value} {G : List Bytes} {lambdas lambdas' : List Lambda}

theorem Lambda.find?_prefix (h : lambdas <+: lambdas') {id : Nat} {c : Lambda}
    (hc : Lambda.find? lambdas id = some c) : Lambda.find? lambdas' id = some c := by
  cases id with
  | zero => cases hc
  | succ n =>
    obtain ⟨rest, rfl⟩ := h
    have hlt : n < lambdas.length := (List.getElem?_eq_some_iff.1 hc).1
    exact (List.getElem?_append_left hlt).trans hc

theorem ClosureShows.mono (h : lambdas <+: lambdas') {id : Nat} {f : Function} {free : List Value}
    (hf : ClosureShows P G lambdas id f free) : ClosureShows P G lambdas' id f free := by
  obtain ⟨c, hc, hcompiled⟩ := hf
  exact ⟨c, Lambda.find?_prefix h hc, hcompiled⟩

theorem Value.Every.grow {w : Value} (hw : w.Every (ClosureShows P G lambdas))
    (h : lambdas <+: lambdas') : w.Every (ClosureShows P G lambdas') :=
  hw.mono fun _ _ _ => ClosureShows.mono h

theorem Value.Shows.grow {w v : Value} (hw : w.Shows P G lambdas v) (h : lambdas <+: lambdas') :
    w.Shows P G lambdas' v :=
  ⟨hw.1, hw.2.grow h⟩

end

/-! ### Machines and stores -/

/-- The machine has what the store has. A global variable has the slot of its position among the
global names `G`; what has no name yet is null. -/
structure Mirrors (P : Array Value) (G : List Bytes) (st : Store) (m : Machine) : Prop where
  constants : m.constants = P
  fresh : m.fresh = st.lambdas.length + 1
  written : m.written = st.output
  globals : ∀ (k : Nat) (x : Bytes) (w : Value), G[k]? = some x → m.globals[k]? = some w →
    w.Shows P G st.lambdas (st.globals x)
  spare : ∀ (k : Nat) (w : Value), G.length ≤ k → m.globals[k]? = some w → w = .null
  unset : ∀ x, x ∉ G → st.globals x = .null

section

variable {P : Array Value} {G : List Bytes} {st : Store} {m m' : Machine}

/-- The stack and the frames do not count. -/
theorem Mirrors.transfer (h : Mirrors P G st m) (hconstants : m'.constants = m.constants)
    (hfresh : m'.fresh = m.fresh) (houtput : m'.output = m.output)
    (hglobals : m'.globals = m.globals) : Mirrors P G st m' where
  constants := hconstants.trans h.constants
  fresh := hfresh.trans h.fresh
  written := by rw [Machine.written, houtput]; exact h.written
  globals := by rw [hglobals]; exact h.globals
  spare := by rw [hglobals]; exact h.spare
  unset := h.unset

theorem Mirrors.of_agrees (h : Mirrors P G st m) (hagrees : m.Agrees m') : Mirrors P G st m' :=
  h.transfer hagrees.constants hagrees.fresh hagrees.output hagrees.globals

end

/-! ### Calls -/

/-- A call in progress, or the main code: what does not change while it is executed. -/
structure Call where
  fn : Function
  id : Nat
  free : List Value
  base : Nat
  callers : Array Frame
  /-- What is on the stack below the locals. -/
  below : List Value
  instrs : List Instr
  /-- Names and constants at the end of the code. -/
  final : Context
  /-- The names of the variables. -/
  slots : List Bytes
  /-- The functions around this one. -/
  levels : List Level
  current : Option Current
  /-- The closures when the call was made. -/
  heap : List Lambda
  /-- How many calls there may be inside this one. -/
  depth : Nat

namespace Call

/-- The code and the closure are in good order. -/
structure Ok (P : Array Value) (G : List Bytes) (K : Call) : Prop where
  code : K.fn.code = .ofInstrs K.instrs
  fits : ∀ i ∈ K.instrs, i.Fits
  constants : K.final.constants.toList <+: P.toList
  base : K.below.length = K.base
  globals : G.Nodup
  nodup : K.slots.Nodup
  self : ∀ c, K.current = some c →
    (Value.closure K.id (some K.fn) K.free).Shows P G K.heap c.self
  captured : ∀ c, K.current = some c → List.Forall₂
    (fun (x : Symbol) (w : Value) => lookupLevels x.name K.levels c.around = some w.outline)
    K.final.table.free.toList K.free

/-- The names belong to the call: all that are bound are known at its end. -/
def Covers (G : List Bytes) (K : Call) (names : Names) : Prop :=
  names.globals <+: G ∧
    match names.levels with
    | [] => K.current = none
    | l :: levels => l.bound <+: K.slots ∧ levels = K.levels ∧ K.current.isSome

/-- The machine is in the middle of the call. -/
structure Inside (P : Array Value) (G : List Bytes) (K : Call) (st : Store) (m : Machine) : Prop where
  mirrors : Mirrors P G st m
  fits : m.Fits
  frame : ∃ next, m.frame = ⟨K.fn, K.id, K.free, next, K.base⟩
  callers : m.callers = K.callers
  depth : m.maxFrames = K.callers.size + 1 + K.depth
  grown : K.heap <+: st.lambdas
  live : ∃ rest, m.live = K.below ++ rest

/-- The machine is about to execute the instruction at an offset, with the given operands on the
stack above the locals. -/
structure Standing (P : Array Value) (G : List Bytes) (K : Call) (st : Store) (m : Machine)
    (next : Nat) (ops : List Value) : Prop where
  mirrors : Mirrors P G st m
  fits : m.Fits
  frame : m.frame = ⟨K.fn, K.id, K.free, next, K.base⟩
  callers : m.callers = K.callers
  depth : m.maxFrames = K.callers.size + 1 + K.depth
  grown : K.heap <+: st.lambdas
  live : ∃ locals, m.live = K.below ++ (locals ++ ops) ∧
    List.Forall₂ (fun x (w : Value) => w.Shows P G st.lambdas (st.vars x)) K.slots locals
  ops : ∀ w ∈ ops, w.Every (ClosureShows P G st.lambdas)

variable {P : Array Value} {G : List Bytes} {K : Call} {st : Store} {m m' : Machine} {next : Nat}
  {ops : List Value} {names : Names}

theorem Standing.inside (h : K.Standing P G st m next ops) : K.Inside P G st m := by
  obtain ⟨locals, hlive, -⟩ := h.live
  exact ⟨h.mirrors, h.fits, ⟨next, h.frame⟩, h.callers, h.depth, h.grown, _, hlive⟩

/-- Fewer names belong to the call as well. -/
theorem Covers.of_bindAll {xs : List Bytes} (h : K.Covers G (names.bindAll xs)) :
    K.Covers G names := by
  induction xs generalizing names with
  | nil => exact h
  | cons x xs ih =>
    have hbind : K.Covers G (names.bind x) := ih h
    obtain ⟨globals, levels⟩ := names
    cases levels with
    | nil => exact ⟨(prefix_addName globals x).trans hbind.1, hbind.2⟩
    | cons l levels => exact ⟨hbind.1, (prefix_addName l.bound x).trans hbind.2.1, hbind.2.2⟩

/-! ### Code -/

/-- The instructions stand at the offset in the code of the call. -/
def CodeAt (K : Call) (offset : Nat) (seg : List Instr) : Prop :=
  ∃ before after, K.instrs = before ++ (seg ++ after) ∧ offset = Instr.bytes before

theorem CodeAt.left {offset : Nat} {s t : List Instr} (h : K.CodeAt offset (s ++ t)) :
    K.CodeAt offset s := by
  obtain ⟨before, after, hinstrs, hoffset⟩ := h
  exact ⟨before, t ++ after, by simp [hinstrs], hoffset⟩

theorem CodeAt.right {offset : Nat} {s t : List Instr} (h : K.CodeAt offset (s ++ t)) :
    K.CodeAt (offset + Instr.bytes s) t := by
  obtain ⟨before, after, hinstrs, hoffset⟩ := h
  exact ⟨before ++ s, after, by simp [hinstrs], by simp [hoffset]⟩

theorem CodeAt.tail {offset : Nat} {i : Instr} {s : List Instr} (h : K.CodeAt offset (i :: s)) :
    K.CodeAt (offset + i.op.size) s := by
  have hright := CodeAt.right (s := [i]) h
  simpa using hright

theorem CodeAt.fetch {offset : Nat} {i : Instr} {s : List Instr} (hK : K.Ok P G)
    (h : K.CodeAt offset (i :: s)) :
    offset < K.fn.code.size ∧ K.fn.code.fetch offset = some (.instr i) := by
  obtain ⟨before, after, hinstrs, rfl⟩ := h
  have hfits : i.Fits := hK.fits i (by simp [hinstrs])
  rw [hK.code, hinstrs]
  refine ⟨?_, Code.fetch_ofInstrs before _ hfits⟩
  have hsize := i.op.size_pos
  simp only [Code.size_ofInstrs, Instr.bytes_append, List.cons_append, Instr.bytes_cons]
  omega

/-! ### Places -/

/-- What stands in a slot is the variable with its name. -/
theorem Standing.local (h : K.Standing P G st m next ops) (hK : K.Ok P G) {k : Nat} {x : Bytes}
    (hx : K.slots[k]? = some x) :
    ∃ w, m.live[K.base + k]? = some w ∧ w.Shows P G st.lambdas (st.vars x) := by
  obtain ⟨locals, hlive, hlocals⟩ := h.live
  obtain ⟨w, hw, hshows⟩ := forall₂_getElem? hlocals hx
  refine ⟨w, ?_, hshows⟩
  rw [hlive, ← hK.base, List.getElem?_append_right (by omega), Nat.add_sub_cancel_left,
    List.getElem?_append_left (List.getElem?_eq_some_iff.1 hw).1, hw]

/-- A name that the innermost function has a place for is found there. -/
theorem Standing.load (h : K.Standing P G st m next ops) (hK : K.Ok P G) {l : Level}
    {levels : List Level} {globals : List Bytes} {t : Table} (hmatch : l.Match t)
    (hcovers : K.Covers G ⟨globals, l :: levels⟩) (hfree : t.free.toList <+: K.final.table.free.toList)
    {x : Bytes} {p : Place} (hx : t.find? x = some p) :
    ∃ w, p.load.source? m = some (.ok w) ∧ w.Every (ClosureShows P G st.lambdas) ∧
      lookupLevels x (l :: levels) (Current.activations K.current st.vars) = some w.outline := by
  obtain ⟨-, hbound, rfl, hcurrent⟩ := hcovers
  obtain ⟨c, hc⟩ := Option.isSome_iff_exists.1 hcurrent
  rw [hc, Current.activations, lookupLevels]
  have hown := hmatch.own x p hx
  cases p with
  | global k => cases hown
  | builtin slot => cases hown
  | «local» k =>
    have hk := (hmatch.slots x k).1 hx
    have hslot : K.slots[k]? = some x := by
      obtain ⟨rest, hrest⟩ := hbound
      rw [← hrest, List.getElem?_append_left (List.getElem?_eq_some_iff.1 hk).1]
      exact hk
    obtain ⟨w, hw, hshows⟩ := h.local hK hslot
    refine ⟨w, ?_, hshows.2, ?_⟩
    · simp only [Place.load, Instr.source?, h.frame, hw, Option.map_some]
    · rw [if_pos (List.mem_of_getElem? hk), hshows.1]
  | self =>
    obtain ⟨hmem, hname⟩ := (hmatch.self x).1 hx
    have hself := (hK.self c hc).grow h.grown
    refine ⟨_, ?_, hself.2, ?_⟩
    · simp only [Place.load, Instr.source?, h.frame]
    · rw [if_neg hmem, if_pos hname, hself.1]
  | free i =>
    obtain ⟨q, hq⟩ := hmatch.captured x i hx
    have hbinds : ¬ l.Binds x := hmatch.not_binds (by simp [hx]) (by simp [hx])
    rw [Level.Binds, not_or] at hbinds
    rw [if_neg hbinds.1, if_neg hbinds.2]
    have hsymbol : K.final.table.free.toList[i]? = some ⟨x, q⟩ := by
      obtain ⟨rest, hrest⟩ := hfree
      rw [← Array.getElem?_toList] at hq
      rw [← hrest, List.getElem?_append_left (List.getElem?_eq_some_iff.1 hq).1]
      exact hq
    obtain ⟨w, hw, hlookup⟩ := forall₂_getElem? (hK.captured c hc) hsymbol
    refine ⟨w, ?_, ?_, hlookup⟩
    · simp only [Place.load, Instr.source?, h.frame, hw, Option.map_some]
    · cases ((hK.self c hc).grow h.grown).2 with
      | closure _ hvalues => exact hvalues w (List.mem_of_getElem? hw)

end Call

end StackScript
