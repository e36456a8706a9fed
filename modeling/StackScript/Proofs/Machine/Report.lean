import StackScript.Proofs.Code.RoundTrip
import StackScript.Proofs.Machine.Control
import StackScript.Proofs.Machine.Retained

/-!
# Where faults are reported

A fault is reported with the place that every function in progress has reached:
the last byte it has read. An instruction is read as a whole before it is
executed, so the place is that of its last byte, and the mnemonic is that of this
byte, be it part of an operand. The place is the instruction's own only if it has
no operands, or if it was one too many and was not read beyond its first byte.
The functions that wait for a call are reported in the same way, at the operand
of the call.

## Main definitions

* `Instr.place`, `Instr.lastByte`: the place of an instruction, and of its last byte.
* `Exec.Blames`, `Exec.Stays`: faults are reported where the machine stands.
* `Machine.Awaits`: a function waits for a call that it has executed.

## Main results

* `Machine.Ok.step_blames`: where a step of a safe machine reports its fault.
* `Machine.Ok.awaits`: all functions but the innermost one wait for a call.
-/

namespace StackScript

/-! ### Places -/

namespace Instr

variable {i : Instr} {function : Bytes} {offset : Nat}

/-- Where an instruction stands, with its mnemonic. -/
def place (i : Instr) (function : Bytes) (offset : Nat) : FramePoint :=
  ⟨function, offset, some i.op.name⟩

/-- Where the last byte of an instruction stands, with the mnemonic that this byte has. -/
def lastByte (i : Instr) (function : Bytes) (offset : Nat) : FramePoint :=
  ⟨function, offset + i.op.size - 1, i.encode.getLast?.map Opcode.nameOfByte⟩

theorem nameOfByte_toByte (op : Opcode) : Opcode.nameOfByte op.toByte = op.name := by
  rw [Opcode.nameOfByte, Opcode.ofByte?_toByte]

/-- The last byte of an instruction has the place of the instruction if it is the only one. -/
theorem lastByte_eq_place_iff :
    i.lastByte function offset = i.place function offset ↔ i.op.widths = [] := by
  constructor
  · intro heq
    have hoffset : offset + i.op.size - 1 = offset := congrArg FramePoint.offset heq
    have hsize : i.op.size = 1 := by
      have := i.op.size_pos
      omega
    revert hsize
    cases i.op <;> decide
  · intro hwidths
    have hencode : i.encode = [i.op.toByte] := by
      rw [encode, Opcode.encode, hwidths, encodeOperands]
    have hsize : i.op.size = 1 := by rw [Opcode.size, hwidths, List.foldr_nil]
    rw [lastByte, place, hencode, hsize, Nat.add_sub_cancel, List.getLast?_singleton,
      Option.map_some, nameOfByte_toByte]

/-- The last byte of a call is the number of arguments. -/
theorem lastByte_call (function : Bytes) (offset args : Nat) :
    (⟨.call, [args]⟩ : Instr).lastByte function offset =
      ⟨function, offset + 1, some (Opcode.nameOfByte args.toUInt8)⟩ := by
  have hbyte : ((args : Int) / 256 ^ 0 % 256).toNat.toUInt8 = args.toUInt8 := by
    rw [pow_zero, Int.ediv_one, ← UInt8.toNat_inj, Nat.toUInt8_eq, Nat.toUInt8_eq,
      UInt8.toNat_ofNat', UInt8.toNat_ofNat']
    omega
  change (⟨function, _, some (Opcode.nameOfByte ((args : Int) / 256 ^ 0 % 256).toNat.toUInt8)⟩ :
    FramePoint) = _
  rw [hbyte]
  rfl

end Instr

namespace Frame

variable {f : Frame} {i : Instr}

/-- A byte of an instruction stands at its place in the code. -/
theorem byte_of_fetch (hfetch : f.fn.code.fetch f.next = some (.instr i)) {k : Nat}
    (hk : k < i.op.size) : f.fn.code[f.next + k]? = i.encode[k]? := by
  have hlength : k < i.encode.length := by rwa [Instr.length_encode]
  rw [← Array.getElem?_toList, ← List.getElem?_drop, ← Code.encode_of_fetch hfetch,
    List.getElem?_append_left hlength]

/-- A function that has read an instruction is at its last byte. -/
theorem point_of_read (hfetch : f.fn.code.fetch f.next = some (.instr i)) :
    { f with next := f.next + i.op.size }.point = i.lastByte f.name f.next := by
  have hpos := i.op.size_pos
  have hbyte : f.fn.code[f.next + i.op.size - 1]? = i.encode.getLast? := by
    rw [Nat.add_sub_assoc hpos, byte_of_fetch hfetch (Nat.sub_lt hpos Nat.one_pos),
      List.getLast?_eq_getElem?, Instr.length_encode]
  change (⟨f.name, f.next + i.op.size - 1, _⟩ : FramePoint) = _
  rw [hbyte]
  rfl

/-- A function that has counted an instruction is at its first byte. -/
theorem point_of_counted (hfetch : f.fn.code.fetch f.next = some (.instr i)) :
    { f with next := f.next + 1 }.point = i.place f.name f.next := by
  have hbyte : f.fn.code[f.next + 0]? = some i.op.toByte := byte_of_fetch hfetch i.op.size_pos
  change (⟨f.name, f.next + 0, (f.fn.code[f.next + 0]?).map Opcode.nameOfByte⟩ : FramePoint) = _
  rw [hbyte, Option.map_some, Instr.nameOfByte_toByte]
  rfl

end Frame

/-! ### Faults of an instruction -/

/-- The error was raised with these functions in progress, the innermost first. -/
def RuntimeError.At (e : RuntimeError) (frames : List Frame) : Prop :=
  e.trace = frames.map Frame.point ∧ e.trace.head? = some e.point

namespace Exec

variable {α β : Type} {m : Machine}

/-- A fault is reported where the machine stands. -/
def Blames (x : Exec α) (m : Machine) : Prop :=
  ∀ e m', x m = .error (.fault e) m' → e.At m.frames

/-- Faults are reported where the machine stands, and otherwise it still stands there. -/
structure Stays (x : Exec α) : Prop where
  blames : ∀ m, Blames x m
  frames : ∀ m a m', x m = .ok a m' → m'.frames = m.frames

theorem Blames.bind {x : Exec α} {f : α → Exec β} (hx : Stays x)
    (hf : ∀ a m', m'.frames = m.frames → Blames (f a) m') : Blames (x >>= f) m := by
  intro e m' h
  simp only [Bind.bind, EStateM.bind] at h
  cases hxm : x m with
  | ok a m₁ =>
    rw [hxm] at h
    have hframes := hx.frames m a m₁ hxm
    rw [← hframes]
    exact hf a m₁ hframes e m' h
  | error s m₁ =>
    rw [hxm] at h
    exact hx.blames m e m' (hxm.trans (by cases h; rfl))

theorem Blames.get {f : Machine → Exec β} (hf : Blames (f m) m) : Blames (MonadState.get >>= f) m :=
  hf

/-- Nothing happens after a fault. -/
theorem Blames.raise (fault : Fault) (f : α → Exec β) : Blames (raise fault >>= f) m := by
  intro e m' h
  cases h
  exact ⟨rfl, rfl⟩

namespace Stays

theorem bind {x : Exec α} {f : α → Exec β} (hx : Stays x) (hf : ∀ a, Stays (f a)) :
    Stays (x >>= f) where
  blames m := .bind hx fun a m' _ => (hf a).blames m'
  frames m b m' h := by
    simp only [Bind.bind, EStateM.bind] at h
    cases hxm : x m with
    | ok a m₁ =>
      rw [hxm] at h
      exact ((hf a).frames m₁ b m' h).trans (hx.frames m a m₁ hxm)
    | error s m₁ =>
      rw [hxm] at h
      cases h

theorem pure (a : α) : Stays (Pure.pure a) where
  blames _ _ _ h := by cases h
  frames _ _ _ h := by cases h; rfl

theorem get : Stays MonadState.get where
  blames _ _ _ h := by cases h
  frames _ _ _ h := by cases h; rfl

theorem modifyGet {f : Machine → α × Machine} (hf : ∀ m, (f m).2.frames = m.frames) :
    Stays (MonadState.modifyGet f) where
  blames _ _ _ h := by cases h
  frames m _ _ h := by cases h; exact hf m

theorem modify {f : Machine → Machine} (hf : ∀ m, (f m).frames = m.frames) :
    Stays (modify f) where
  blames _ _ _ h := by cases h
  frames m _ _ h := by cases h; exact hf m

theorem crash : Stays (crash : Exec α) where
  blames _ _ _ h := by cases h
  frames _ _ _ h := by cases h

theorem raise (fault : Fault) : Stays (raise fault : Exec α) where
  blames m e m' h := by
    cases h
    exact ⟨rfl, rfl⟩
  frames _ _ _ h := by cases h

theorem ite {p : Prop} [Decidable p] {x y : Exec α} (hx : Stays x) (hy : Stays y) :
    Stays (if p then x else y) := by
  split
  · exact hx
  · exact hy

theorem attempt (r : Except Fault α) : Stays (attempt r) := by
  cases r with
  | ok a => exact .pure a
  | error fault => exact .raise fault

theorem drop (n : Nat) : Stays (drop n) := .modify fun _ => rfl

theorem push (v : Value) : Stays (push v) :=
  .bind .get fun _ => .bind .get fun _ => .ite (.modify fun _ => rfl) (.raise _)

theorem pop : Stays pop := by
  refine .bind .get fun m => .ite .crash ?_
  split
  · exact .bind (.modify fun _ => rfl) fun _ => .pure _
  · exact .crash

theorem top (n : Nat) : Stays (top n) :=
  .bind .get fun _ => .ite (.pure _) .crash

theorem finish (r : Except Fault Value) : Stays (finish r) :=
  .bind (.attempt r) .push

/-- An operator with two operands. -/
theorem binary (f : Value → Value → Except Fault Value) :
    Stays (do let right ← Exec.pop; let left ← Exec.pop; Exec.finish (f left right)) :=
  .bind .pop fun _ => .bind .pop fun _ => .finish _

theorem close (number n : Nat) : Stays (close number n) := by
  refine .bind .get fun m => ?_
  split
  · exact .crash
  · exact .bind (.top n) fun _ => .bind (.drop n) fun _ =>
      .bind (.modifyGet fun _ => rfl) fun _ => .push _
  · exact .raise _

end Stays

/-- A closure is entered when nothing can fail any more. -/
theorem enter_blames (id : Nat) (fn : Function) (free : List Value) (n : Nat) (m : Machine) :
    Blames (enter id fn free n) m := by
  unfold enter
  dsimp only
  split
  · exact .raise _ _
  refine .bind .get fun m₁ m₂ _ => ?_
  split
  · exact .raise _ _
  split
  · exact .raise _ _
  · nofun

theorem call_blames [Casing] (n : Nat) (m : Machine) : Blames (call n) m := by
  refine .bind .get fun m₁ m₂ _ => ?_
  split
  · exact Stays.crash.blames _
  split
  · exact Stays.crash.blames _
  · exact enter_blames _ _ _ _ _
  · exact Stays.crash.blames _
  · exact Stays.crash.blames _
  · refine (Stays.bind (.top _) fun args => .bind (.modify ?_) fun _ => .push _).blames _
    exact fun _ => rfl
  · exact (Stays.raise _).blames _
  · exact (Stays.raise _).blames _

/-- An instruction reports its fault where it stands, unless it returns. -/
theorem exec_blames [Casing] {i : Instr} (h : ¬i.Returns) (m : Machine) : Blames (exec i) m := by
  have hstays {x : Exec Unit} (hx : Stays x) : Blames x m := hx.blames m
  unfold exec
  split
  · refine hstays (.bind .get fun m => ?_)
    split
    · exact .push _
    · exact .crash
  · exact hstays (.push _)
  · exact hstays (.push _)
  · exact hstays (.push _)
  · exact hstays (.bind .pop fun _ => .pure _)
  · exact hstays (.binary _)
  · exact hstays (.binary _)
  · exact hstays (.binary _)
  · exact hstays (.binary _)
  · exact hstays (.binary fun a b => .ok (.bool (a.same b)))
  · exact hstays (.binary fun a b => .ok (.bool (!a.same b)))
  · exact hstays (.binary _)
  · exact hstays (.bind .pop fun _ => .push _)
  · exact hstays (.bind .pop fun _ => .finish _)
  · nofun
  · refine .bind .pop fun v m' _ => ?_
    split
    · nofun
    · nofun
  · refine hstays (.bind .get fun m => .ite (.bind .pop fun v => .modify ?_) (.raise _))
    exact fun _ => rfl
  · refine hstays (.bind .get fun m => ?_)
    split
    · exact .push _
    · exact .raise _
  · exact hstays (.bind .pop fun v => .bind .get fun m => .ite (.modify fun _ => rfl) .crash)
  · refine hstays (.bind .get fun m => ?_)
    split
    · exact .push _
    · exact .crash
  · apply hstays
    split
    · exact .push _
    · exact .raise _
  · refine hstays (.bind .get fun m => ?_)
    split
    · exact .push _
    · exact .crash
  · exact hstays (.bind .get fun _ => .push _)
  · exact hstays (.bind (.top _) fun _ => .bind (.drop _) fun _ => .push _)
  · exact hstays (.bind (.top _) fun _ => .bind (.attempt _) fun _ =>
      .bind (.drop _) fun _ => .push _)
  · exact hstays (.binary _)
  · exact call_blames _ m
  · next hop => exact absurd (.inl hop) h
  · next hop => exact absurd (.inr hop) h
  · exact hstays (.close _ _)
  · exact hstays .crash

/-- A return from the main code that fails is reported in it. -/
theorem leave_blames (v : Value) (hmain : m.frames.length = 1) : Blames (leave v) m := by
  have hback : m.callers.back? = none := by
    rw [Machine.frames, List.length_cons, List.length_reverse, Array.length_toList] at hmain
    exact Array.back?_eq_none_iff.2 (Array.size_eq_zero_iff.1 (Nat.succ.inj hmain))
  have hjump (m : Machine) (o : Nat) : Blames (jumpTo o) m := by
    intro e m' h
    cases h
  refine .get ?_
  rw [hback]
  exact .bind (.push v) fun _ _ _ => .bind (.drop 1) fun _ m₂ _ => hjump m₂ _

end Exec

/-! ### Faults of a step -/

namespace Machine

variable {P : Array Value} {G : Nat} {m m₁ m' : Machine} {i : Instr} {e : RuntimeError}

open Exec

/-- What a safe machine executes is reported where it stands. A return is a fault of the function
that it leaves, since nothing can fail in the caller. -/
theorem Ready.exec_blames [Casing] {is : List Instr} {depth : Nat → Nat} {inside : Bool}
    (h : Ready P G m i is depth inside) (hfetched : m.Fetched i m₁) (hfits : m₁.Fits)
    (hlive : m₁.live = m.live) : Blames (exec i) m₁ := by
  by_cases hreturns : i.Returns
  · cases hcaller : m.callers.back? with
    | none =>
      have hmain : m₁.frames.length = 1 := by
        rw [hfetched.frames, Array.back?_eq_none_iff.1 hcaller]
        rfl
      obtain ⟨op, operands⟩ := i
      obtain rfl | rfl := hreturns
      · refine .bind .pop fun v m₂ hframes => leave_blames v ?_
        rw [hframes, hmain]
      · exact leave_blames .null hmain
    | some caller =>
      have hsat : Sat (exec i) m₁ (fun _ _ => True) fun _ _ => False := by
        refine h.leaves_with hfetched hfits hlive hreturns ?_
        intro v m₂ rest hfetched₂ hfits₂ hhands hrest hbase
        exact (h.acts_returns hfetched₂ hfits₂ rest hcaller hhands hrest hbase).mono
          (fun _ _ _ => trivial) fun _ _ => id
      intro e m' hexec
      exact (hsat.of_fault hexec).elim
  · exact Exec.exec_blames hreturns m₁

/-- The fault of a step is reported at the last byte of its instruction, or at the first one if the
instruction was one too many. -/
theorem Ok.step_blames [Casing] (h : m.Ok P G) (hpool : PoolOk P G) (hrunning : m.running = true)
    (hstep : Machine.step m = .error (.fault e) m') :
    ∃ i, m.frame.fn.code.fetch m.frame.next = some (.instr i) ∧
      e.point = (if m.Exhausted then i.place else i.lastByte) m.frame.name m.frame.next ∧
      e.trace = e.point :: m.callers.toList.reverse.map Frame.point ∧
      (m.Exhausted → e.fault = .instructionLimit m.limit) := by
  obtain ⟨i, is, depth, inside, hready, hfetch, -⟩ := h.ready hpool hrunning
  refine ⟨i, hfetch, ?_⟩
  by_cases hover : m.Exhausted
  · obtain ⟨b, hb⟩ := Code.exists_byte_of_fetch hfetch
    rw [step_counted hb, if_pos hover] at hstep
    cases hstep
    have hpoint := Frame.point_of_counted hfetch
    rw [if_pos hover]
    exact ⟨hpoint, rfl, fun _ => rfl⟩
  · obtain ⟨m₁, hexec, hagrees, hsp, hstack⟩ := step_eq_exec hover hfetch
    rw [hexec] at hstep
    have hfetched : m.Fetched i m₁ := ⟨hagrees.frame, hagrees.callers, hagrees.constants,
      hagrees.maxFrames, hagrees.limit, hagrees.size⟩
    have hfits : m₁.Fits := by
      rw [Fits, hsp, hstack]
      exact h.fits
    have hlive : m₁.live = m.live := by rw [Machine.live, hsp, hstack, Machine.live]
    obtain ⟨htrace, hhead⟩ := hready.exec_blames hfetched hfits hlive e m' hstep
    rw [hfetched.frames, List.map_cons, Frame.point_of_read hfetch] at htrace
    rw [htrace, List.head?_cons] at hhead
    have hpoint := Option.some.inj hhead
    rw [if_neg hover, htrace, hpoint]
    exact ⟨rfl, rfl, fun hexhausted => absurd hexhausted hover⟩

/-! ### Functions that wait -/

variable {n : Nat} {f : Frame} {below : List Frame}

/-- When the instruction with number `n` of a run is executed, the function waits for the call at an
offset: it has executed this call, with the functions below it as they are, and since then only
functions that were called in turn have executed instructions. -/
def Awaits [Casing] (m : Machine) (n : Nat) (f : Frame) (below : List Frame) (offset args : Nat) :
    Prop :=
  f.next = offset + Opcode.call.size ∧ ∃ j mj, j < n ∧ m.dispatch j = some mj ∧
    mj.frames = { f with next := offset } :: below ∧
    f.fn.code.fetch offset = some (.instr ⟨.call, [args]⟩) ∧
    ∀ l ml, j < l → l ≤ n → m.dispatch l = some ml → below.length + 1 < ml.frames.length

theorem Awaits.succ [Casing] {offset args : Nat} (h : m.Awaits n f below offset args)
    (hnext : m.dispatch (n + 1) = some m') (hlength : below.length + 1 < m'.frames.length) :
    m.Awaits (n + 1) f below offset args := by
  obtain ⟨hoffset, j, mj, hlt, hj, hframes, hfetch, hdeeper⟩ := h
  refine ⟨hoffset, j, mj, Nat.lt_succ_of_lt hlt, hj, hframes, hfetch, ?_⟩
  intro l ml hjl hln hl
  obtain hle | rfl := Nat.le_or_eq_of_le_succ hln
  · exact hdeeper l ml hjl hle hl
  · obtain rfl := Option.some.inj (hnext.symm.trans hl)
    exact hlength

/-- Every function in progress but the innermost one waits for a call. -/
theorem Ok.awaits [Casing] (h : m.Ok P G) (hpool : PoolOk P G) (hmain : m.callers = #[])
    (hn : m.dispatch n = some m') {inner : List Frame} (hinner : inner ≠ [])
    (hframes : m'.frames = inner ++ f :: below) : ∃ offset args, m.Awaits n f below offset args := by
  obtain ⟨g, inner, rfl⟩ := List.exists_cons_of_ne_nil hinner
  induction n generalizing m' g inner with
  | zero =>
    rw [Machine.dispatch] at hn
    split at hn
    · obtain rfl := Option.some.inj hn
      rw [frames, hmain] at hframes
      simp at hframes
    · cases hn
  | succ n ih =>
    obtain ⟨m₁, hm₁, hnext⟩ := Option.bind_eq_some_iff.1 hn
    obtain ⟨hok, hrunning, -⟩ := h.dispatch hpool hm₁
    obtain ⟨i, hfetch, -, hacts⟩ := hok.acts hpool hrunning hnext
    have hlength : below.length + 1 < m'.frames.length := by
      rw [hframes]
      simp only [List.length_append, List.length_cons]
      omega
    have hwaited {g inner} (hframes₁ : m₁.frames = g :: inner ++ f :: below) :
        ∃ offset args, m.Awaits (n + 1) f below offset args := by
      obtain ⟨offset, args, hawaits⟩ := ih hm₁ g inner (List.cons_ne_nil _ _) hframes₁
      exact ⟨offset, args, hawaits.succ hn hlength⟩
    generalize m₁.live = live at hacts
    generalize hframes₁ : m₁.frames = fs at hacts
    generalize m'.live = live' at hacts
    rw [hframes] at hacts
    generalize hfs : g :: inner ++ f :: below = fs' at hacts
    cases hacts with
    | falls =>
      obtain ⟨-, rfl⟩ := List.cons.inj hfs
      exact hwaited hframes₁
    | jumps =>
      obtain ⟨-, rfl⟩ := List.cons.inj hfs
      exact hwaited hframes₁
    | answers =>
      obtain ⟨-, rfl⟩ := List.cons.inj hfs
      exact hwaited hframes₁
    | returns =>
      rw [← hfs] at hframes₁
      exact hwaited hframes₁
    | @enters S args free id fn caller callers hi =>
      obtain ⟨-, hrest⟩ := List.cons.inj hfs
      cases inner with
      | cons b inner =>
        obtain ⟨-, rfl⟩ := List.cons.inj hrest
        exact hwaited hframes₁
      | nil =>
        obtain ⟨rfl, rfl⟩ := List.cons.inj hrest
        obtain ⟨hcaller, -⟩ := List.cons.inj hframes₁
        subst hi
        rw [hcaller] at hfetch
        refine ⟨caller.next, args.length, rfl, n, m₁, Nat.lt_succ_self n, hm₁, hframes₁, hfetch, ?_⟩
        intro l ml hnl hln hl
        obtain rfl : l = n + 1 := by omega
        obtain rfl := Option.some.inj (hn.symm.trans hl)
        exact hlength

/-- A function that waits for a call is reported at the operand of the call. -/
theorem Awaits.point_eq [Casing] {offset args : Nat} (h : m.Awaits n f below offset args) :
    f.point = ⟨f.name, offset + 1, some (Opcode.nameOfByte args.toUInt8)⟩ := by
  obtain ⟨hoffset, -, -, -, -, -, hfetch, -⟩ := h
  have hpoint : { f with next := offset + Opcode.call.size }.point =
      (⟨.call, [args]⟩ : Instr).lastByte f.name offset :=
    Frame.point_of_read (f := { f with next := offset }) hfetch
  rw [← Instr.lastByte_call, ← hpoint, ← hoffset]

end Machine

end StackScript
