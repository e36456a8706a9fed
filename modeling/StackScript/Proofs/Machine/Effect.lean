import StackScript.Proofs.Compile.Balance
import StackScript.Proofs.Machine.Live

/-!
# What instructions do

Most instructions take some values from the stack and push one that is computed
from them: none for those that load a value, one or two for operators, any
number for arrays and hashes. Each such family has one description. The
instructions that store, jump, call and return have one each.

## Main definitions

* `Instr.source?`, `Instr.unary?`, `Instr.binary?`, `Instr.gather?`: what is pushed.
* `Machine.advance`: the machine when an instruction has been fetched.

## Main results

* `Exec.yields_sat` and its siblings: the instruction when it is executed.
* `Machine.step_sat`: a step is the execution of the instruction that was fetched.
-/

namespace StackScript

namespace Instr

/-- The value that an instruction pushes without taking any. -/
def source? (m : Machine) (i : Instr) : Option (Except Fault Value) :=
  match i.op, i.operands with
  | .const, [n] => m.constants[n]?.map .ok
  | .null, _ => some (.ok .null)
  | .true, _ => some (.ok (.bool true))
  | .false, _ => some (.ok (.bool false))
  | .getGlobal, [n] =>
    match m.globals[n]? with
    | some v => some (.ok v)
    | none => some (.error (.globalRange n m.globals.size))
  | .getLocal, [n] => m.live[m.frame.base + n]?.map .ok
  | .getBuiltin, [n] =>
    match Builtin.ofSlot? n with
    | some b => some (.ok (.builtin (.known b)))
    | none => some (.error (.unknownBuiltin n))
  | .getFree, [n] => m.frame.free[n]?.map .ok
  | .currentClosure, _ => some (.ok (.closure m.frame.id (some m.frame.fn) m.frame.free))
  | _, _ => none

/-- What an instruction computes from one value. -/
def unary? (i : Instr) : Option (Value → Except Fault Value) :=
  match i.op with
  | .not => some fun v => .ok (.bool (!v.truthy))
  | .neg => some Value.negate
  | _ => none

/-- What an instruction computes from two values. -/
def binary? (i : Instr) : Option (Value → Value → Except Fault Value) :=
  match i.op with
  | .add | .sub | .mul | .div => some fun a b => a.arithmetic i.op b
  | .equal => some fun a b => .ok (.bool (a.same b))
  | .notEqual => some fun a b => .ok (.bool (!a.same b))
  | .greater => some Value.greater
  | .index => some Value.index
  | _ => none

/-- What an instruction makes of all the values it takes. -/
def gather? (i : Instr) : Option (List Value → Except Fault Value) :=
  match i.op, i.operands with
  | .array, [_] => some fun items => .ok (.array items)
  | .hash, [_] => some fun items => (Entry.pairUp [] items).map fun es => .hash (Entry.file es)
  | _, _ => none

/-- The instruction takes the values and pushes the result, or ends in the fault. -/
inductive Yields (m : Machine) (i : Instr) : List Value → Except Fault Value → Prop
  | source {r : Except Fault Value} : i.source? m = some r → Yields m i [] r
  | unary {f : Value → Except Fault Value} {v : Value} : i.unary? = some f → Yields m i [v] (f v)
  | binary {f : Value → Value → Except Fault Value} {a b : Value} : i.binary? = some f →
    Yields m i [a, b] (f a b)
  | gather {f : List Value → Except Fault Value} {args : List Value} : i.gather? = some f →
    args.length = i.takes → Yields m i args (f args)

end Instr

namespace Exec

variable {m : Machine} {i : Instr} {S : List Value} {r : Except Fault Value}
  {Q : Unit → Machine → Prop} {E : Fault → Machine → Prop}

/-- Push what was computed. -/
def finish (r : Except Fault Value) : Exec Unit := do
  push (← attempt r)

theorem finish_sat (hfits : m.Fits)
    (hok : ∀ v m', r = .ok v → m.Agrees m' → m'.Fits → m'.live = m.live ++ [v] → Q () m')
    (herror : ∀ f, r = .error f → E f m) (hfull : m.sp = m.stack.size → E .stackOverflow m) :
    Sat (finish r) m Q E := by
  refine .bind (.attempt ?_ herror)
  intro v hv
  refine .push hfits ?_ hfull
  intro m' hagrees hfits' hlive _
  exact hok v m' hv hagrees hfits' hlive

/-- An instruction that loads a value pushes it. -/
theorem exec_source [Casing] (h : i.source? m = some r) : exec i m = finish r m := by
  obtain ⟨op, operands⟩ := i
  unfold Instr.source? at h
  split at h
  · next n hop hoperands =>
    obtain rfl : op = _ := hop
    obtain rfl : operands = _ := hoperands
    obtain ⟨v, hv, rfl⟩ := Option.map_eq_some_iff.1 h
    change (match m.constants[n]? with | some v => push v | none => crash : Exec Unit) m = _
    rw [hv]
    rfl
  · next hop =>
    obtain rfl : op = _ := hop
    cases h
    rfl
  · next hop =>
    obtain rfl : op = _ := hop
    cases h
    rfl
  · next hop =>
    obtain rfl : op = _ := hop
    cases h
    rfl
  · next n hop hoperands =>
    obtain rfl : op = _ := hop
    obtain rfl : operands = _ := hoperands
    change (match m.globals[n]? with
      | some v => push v
      | none => raise (.globalRange n m.globals.size) : Exec Unit) m = _
    cases hv : m.globals[n]? with
    | some v => rw [hv] at h; cases h; rfl
    | none => rw [hv] at h; cases h; rfl
  · next n hop hoperands =>
    obtain rfl : op = _ := hop
    obtain rfl : operands = _ := hoperands
    obtain ⟨v, hv, rfl⟩ := Option.map_eq_some_iff.1 h
    change (match m.stack[m.frame.base + n]? with | some v => push v | none => crash : Exec Unit) m = _
    rw [getElem?_of_live hv]
    rfl
  · next n hop hoperands =>
    obtain rfl : op = _ := hop
    obtain rfl : operands = _ := hoperands
    change (match Builtin.ofSlot? n with
      | some b => push (.builtin (.known b))
      | none => raise (.unknownBuiltin n) : Exec Unit) m = _
    cases hb : Builtin.ofSlot? n with
    | some b => rw [hb] at h; cases h; rfl
    | none => rw [hb] at h; cases h; rfl
  · next n hop hoperands =>
    obtain rfl : op = _ := hop
    obtain rfl : operands = _ := hoperands
    obtain ⟨v, hv, rfl⟩ := Option.map_eq_some_iff.1 h
    change (match m.frame.free[n]? with | some v => push v | none => crash : Exec Unit) m = _
    rw [hv]
    rfl
  · next hop =>
    obtain rfl : op = _ := hop
    cases h
    rfl
  · cases h

theorem exec_unary [Casing] {f : Value → Except Fault Value} (h : i.unary? = some f) :
    exec i = (do let v ← pop; finish (f v)) := by
  obtain ⟨op, operands⟩ := i
  cases op <;> cases h <;> rfl

theorem exec_binary [Casing] {f : Value → Value → Except Fault Value} (h : i.binary? = some f) :
    exec i = (do let right ← pop; let left ← pop; finish (f left right)) := by
  obtain ⟨op, operands⟩ := i
  cases op <;> cases h <;> rfl

/-- A stack that is full when some values have been taken from it was full before. -/
theorem size_le_of_full {m' : Machine} (hagrees : m.Agrees m') (hfits : m.Fits) (hfits' : m'.Fits)
    (hle : m'.live.length ≤ m.live.length) (hsp : m'.sp = m'.stack.size) : m.stack.size ≤ m.sp := by
  rw [hfits.length_live, hfits'.length_live] at hle
  rwa [← hagrees.size, ← hsp]

/-- An array or a hash is made of the topmost values, which are then taken from the stack. -/
theorem gather_sat [Casing] {f : List Value → Except Fault Value} {args : List Value}
    (hfits : m.Fits)
    (hlive : m.live = S ++ args) (h : i.gather? = some f) (hargs : args.length = i.takes)
    (hok : ∀ v m', f args = .ok v → m.Agrees m' → m'.Fits → m'.live = S ++ [v] → Q () m')
    (herror : ∀ g, f args = .error g → E g m)
    (hfull : ∀ m', m.Agrees m' → m.stack.size ≤ m.sp → E .stackOverflow m') : Sat (exec i) m Q E := by
  have hpush {v : Value} (hv : f args = .ok v) :
      Sat (do drop i.takes; push v) m Q E := by
    refine .bind (.drop hfits hlive hargs ?_)
    intro m₁ hagrees₁ hfits₁ hlive₁
    refine .push hfits₁ ?_ fun hsp => hfull m₁ hagrees₁ ?_
    · intro m₂ hagrees₂ hfits₂ hlive₂ _
      exact hok v m₂ hv (hagrees₁.trans hagrees₂) hfits₂ (by rw [hlive₂, hlive₁])
    · exact size_le_of_full hagrees₁ hfits hfits₁ (by simp [hlive, hlive₁]) hsp
  obtain ⟨op, operands⟩ := i
  unfold Instr.gather? at h
  split at h
  · next n hop hoperands =>
    obtain rfl : op = _ := hop
    obtain rfl : operands = _ := hoperands
    cases h
    exact .bind (.top hfits hlive hargs (hpush rfl))
  · next n hop hoperands =>
    obtain rfl : op = _ := hop
    obtain rfl : operands = _ := hoperands
    cases h
    refine .bind (.top hfits hlive hargs (.bind (.attempt ?_ ?_)))
    · intro entries hentries
      exact hpush (congrArg (Except.map _) hentries)
    · intro g hg
      exact herror g (congrArg (Except.map _) hg)
  · cases h

/-- The execution of an instruction that yields a value. -/
theorem yields_sat [Casing] {args : List Value} (hfits : m.Fits) (hlive : m.live = S ++ args)
    (h : i.Yields m args r)
    (hok : ∀ v m', r = .ok v → m.Agrees m' → m'.Fits → m'.live = S ++ [v] → Q () m')
    (herror : ∀ f m', r = .error f → m.Agrees m' → E f m')
    (hfull : ∀ m', m.Agrees m' → m.stack.size ≤ m.sp → E .stackOverflow m') : Sat (exec i) m Q E := by
  -- Operands are popped one by one and leave room for the value; what is only loaded may find the
  -- stack full.
  cases h with
  | source h =>
    obtain rfl : m.live = S := by simpa using hlive
    have hfinish : Sat (finish r) m Q E :=
      finish_sat hfits hok (fun f hf => herror f m hf (.refl m))
        fun hsp => hfull m (.refl m) (Nat.le_of_eq hsp.symm)
    rwa [Sat, exec_source h]
  | unary h =>
    rw [exec_unary h]
    refine .bind (.pop hfits hlive ?_)
    intro m₁ hagrees₁ hfits₁ hlive₁ _
    refine finish_sat hfits₁ ?_ ?_ fun hsp => hfull m₁ hagrees₁ ?_
    · intro v m₂ hv hagrees₂ hfits₂ hlive₂
      exact hok v m₂ hv (hagrees₁.trans hagrees₂) hfits₂ (by rw [hlive₂, hlive₁])
    · intro g hg
      exact herror g m₁ hg hagrees₁
    · exact size_le_of_full hagrees₁ hfits hfits₁ (by simp [hlive, hlive₁]) hsp
  | @binary f a b h =>
    rw [exec_binary h]
    have hlive' : m.live = (S ++ [a]) ++ [b] := by simp [hlive]
    refine .bind (.pop hfits hlive' ?_)
    intro m₁ hagrees₁ hfits₁ hlive₁ _
    refine .bind (.pop hfits₁ hlive₁ ?_)
    intro m₂ hagrees₂ hfits₂ hlive₂ _
    have hagrees := hagrees₁.trans hagrees₂
    refine finish_sat hfits₂ ?_ ?_ fun hsp => hfull m₂ hagrees ?_
    · intro v m₃ hv hagrees₃ hfits₃ hlive₃
      exact hok v m₃ hv (hagrees.trans hagrees₃) hfits₃ (by rw [hlive₃, hlive₂])
    · intro g hg
      exact herror g m₂ hg hagrees
    · exact size_le_of_full hagrees hfits hfits₂ (by simp [hlive, hlive₂]) hsp
  | gather h hargs =>
    exact gather_sat hfits hlive h hargs hok (fun g hg => herror g m hg (.refl m)) hfull

/-! ### Instructions that store and jump -/

section Store

variable {v : Value} {operands : List Nat} {n : Nat}

theorem pop_sat [Casing] (hfits : m.Fits) (hlive : m.live = S ++ [v])
    (hok : ∀ m', m.Agrees m' → m'.Fits → m'.live = S → m'.lastPopped = v → Q () m') :
    Sat (exec ⟨.pop, operands⟩) m Q E := by
  refine .bind (.pop hfits hlive ?_)
  intro m' hagrees hfits' hlive' hlast
  exact .pure (hok m' hagrees hfits' hlive' hlast)

theorem setGlobal_sat [Casing] (hfits : m.Fits) (hlive : m.live = S ++ [v])
    (hok : ∀ m', m.Agrees m' → m'.Fits → m'.live = S → m'.lastPopped = v → n < m.globals.size →
      Q () { m' with globals := m.globals.setIfInBounds n v })
    (hrange : m.globals.size ≤ n → E (.globalRange n m.globals.size) m) :
    Sat (exec ⟨.setGlobal, [n]⟩) m Q E := by
  refine .bind (.get ?_)
  by_cases hn : n < m.globals.size
  · rw [if_pos hn]
    refine .bind (.pop hfits hlive ?_)
    intro m' hagrees hfits' hlive' hlast
    refine .modify ?_
    rw [hagrees.globals]
    exact hok m' hagrees hfits' hlive' hlast hn
  · rw [if_neg hn]
    exact .raise (hrange (Nat.not_lt.1 hn))

theorem setLocal_sat [Casing] (hfits : m.Fits) (hlive : m.live = S ++ [v])
    (hn : m.frame.base + n < S.length)
    (hok : ∀ m', m.Agrees m' → m'.Fits → m'.live = S.set (m.frame.base + n) v → Q () m') :
    Sat (exec ⟨.setLocal, [n]⟩) m Q E := by
  refine .bind (.pop hfits hlive ?_)
  intro m' hagrees hfits' hlive' _
  have hlen := hfits'.length_live
  have hbound : m.frame.base + n < m'.stack.size := by
    have hle : m'.sp ≤ m'.stack.size := hfits'
    rw [hlive'] at hlen
    omega
  refine .bind (.get ?_)
  rw [hagrees.frame, if_pos hbound]
  refine .modify (hok _ (hagrees.trans ⟨rfl, rfl, rfl, rfl, rfl, rfl, rfl, rfl, rfl, by simp⟩) ?_ ?_)
  · rw [Machine.Fits, Array.size_setIfInBounds]
    exact hfits'
  · simp only [Machine.live, Array.toList_setIfInBounds, hagrees.frame] at hlive' ⊢
    rw [← hlive', List.take_set]

theorem jump_sat [Casing] (hok : Q () { m with frame := { m.frame with next := n } }) :
    Sat (exec ⟨.jump, [n]⟩) m Q E :=
  .modify hok

theorem jumpIfFalse_sat [Casing] (hfits : m.Fits) (hlive : m.live = S ++ [v])
    (hok : ∀ m', m.Agrees m' → m'.Fits → m'.live = S →
      Q () (if v.truthy then m' else { m' with frame := { m'.frame with next := n } })) :
    Sat (exec ⟨.jumpIfFalse, [n]⟩) m Q E := by
  refine .bind (.pop hfits hlive ?_)
  intro m' hagrees hfits' hlive' _
  have hthen := hok m' hagrees hfits' hlive'
  cases hv : v.truthy with
  | true =>
    rw [if_pos hv] at hthen
    exact hthen
  | false =>
    rw [if_neg (by simp [hv])] at hthen
    exact hthen

theorem close_sat [Casing] {k : Nat} {fn : Option Function} {args : List Value} (hfits : m.Fits)
    (hlive : m.live = S ++ args) (hk : args.length = k)
    (hfn : m.constants[n]? = some (.function fn))
    (hok : ∀ m', { m with fresh := m.fresh + 1 }.Agrees m' → m'.Fits →
      m'.live = S ++ [.closure m.fresh fn args] → Q () m')
    (hfull : ∀ m', { m with fresh := m.fresh + 1 }.Agrees m' → m.stack.size ≤ m.sp →
      E .stackOverflow m') :
    Sat (exec ⟨.closure, [n, k]⟩) m Q E := by
  change Sat (close n k) m Q E
  refine .bind (.get ?_)
  rw [hfn]
  refine .bind (.top hfits hlive hk (.bind (.drop hfits hlive hk ?_)))
  intro m₁ hagrees₁ hfits₁ hlive₁
  have hagrees : { m with fresh := m.fresh + 1 }.Agrees { m₁ with fresh := m₁.fresh + 1 } :=
    ⟨hagrees₁.frame, hagrees₁.callers, hagrees₁.constants, hagrees₁.globals, hagrees₁.maxFrames,
      hagrees₁.limit, congrArg (· + 1) hagrees₁.fresh, hagrees₁.output, hagrees₁.instructions,
      hagrees₁.size⟩
  refine .bind (.modifyGet (.push (m := { m₁ with fresh := m₁.fresh + 1 }) hfits₁ ?_ fun hsp =>
    hfull _ hagrees ?_))
  · intro m₂ hagrees₂ hfits₂ hlive₂ _
    refine hok m₂ (hagrees.trans hagrees₂) hfits₂ ?_
    rw [hlive₂, hagrees₁.fresh]
    exact congrArg (· ++ _) hlive₁
  · exact size_le_of_full hagrees₁ hfits hfits₁ (by simp [hlive, hlive₁]) hsp

end Store

/-! ### Calls and returns -/

@[simp] theorem size_clear (stack : Array Value) (i n : Nat) : (clear stack i n).size = stack.size := by
  induction n generalizing stack i with
  | zero => rfl
  | succ n ih => rw [clear, ih, Array.size_setIfInBounds]

theorem toList_clear (stack : Array Value) (i n : Nat) (h : i + n ≤ stack.size) :
    (clear stack i n).toList =
      stack.toList.take i ++ (List.replicate n Value.null ++ stack.toList.drop (i + n)) := by
  induction n generalizing stack i with
  | zero => simp [clear]
  | succ n ih =>
    have hi : i < stack.toList.length := by
      rw [Array.length_toList]
      omega
    rw [clear, ih _ _ (by simp; omega), Array.toList_setIfInBounds, List.take_add_one,
      List.take_set_of_le (Nat.le_refl i), List.getElem?_set_self hi,
      List.drop_set_of_lt (by omega), List.replicate_succ]
    simp [Nat.add_comm, Nat.add_left_comm]

/-- What the locals of a function are when it is called. -/
def locals (fn : Function) (args : List Value) : List Value :=
  (args ++ List.replicate (fn.locals - args.length) Value.null).take fn.locals

theorem length_locals (fn : Function) (args : List Value) : (locals fn args).length = fn.locals := by
  simp only [locals, List.length_take, List.length_append, List.length_replicate]
  omega

section Call

variable {n : Nat} {callee : Value} {args : List Value} {id : Nat} {fn : Function}
  {free : List Value}

/-- A closure is entered: its locals stand where its arguments were. -/
theorem enter_sat (hfits : m.Fits) (hlive : m.live = S ++ args) (hn : args.length = n)
    (hok : ∀ m', n = fn.params → m.callers.size + 1 < m.maxFrames →
      { m with
        callers := m.callers.push m.frame
        frame := ⟨fn, id, free, 0, S.length⟩ }.Agrees m' → m'.Fits →
      m'.live = S ++ locals fn args → Q () m')
    (hparams : n ≠ fn.params → E (.wrongArguments fn.params n) m)
    (hframes : n = fn.params → m.maxFrames ≤ m.callers.size + 1 → E (.frameOverflow m.maxFrames) m)
    (hfull : m.stack.size < S.length + fn.locals → E .stackOverflow m) :
    Sat (enter id fn free n) m Q E := by
  obtain ⟨hsp, hS, hargs⟩ := live_take hfits hlive
  have hbase : m.sp - n = S.length := by omega
  have hle : m.sp ≤ m.stack.size := hfits
  unfold enter
  dsimp only
  by_cases hp : n = fn.params
  swap
  · rw [if_pos hp]
    exact .bind (.raise (hparams hp))
  rw [if_neg (by simpa using hp)]
  refine .bind (.get ?_)
  by_cases hf : m.maxFrames ≤ m.callers.size + 1
  · rw [if_pos hf]
    exact .bind (.raise (hframes hp hf))
  rw [if_neg hf]
  by_cases hroom : m.stack.size < m.sp - n + fn.locals
  · rw [if_pos hroom]
    rw [hbase] at hroom
    exact .bind (.raise (hfull hroom))
  rw [if_neg hroom]
  have hclear := toList_clear m.stack (m.sp - n + n) (fn.locals - n) (by omega)
  refine .modify (hok _ hp (Nat.not_le.1 hf) ?_ ?_ ?_)
  · refine ⟨?_, rfl, rfl, rfl, rfl, rfl, rfl, rfl, rfl, by simp⟩
    rw [hbase]
  · rw [Machine.Fits, size_clear]
    exact Nat.not_lt.1 hroom
  · rw [Machine.live, hclear, show m.sp - n + n = m.sp by omega]
    change (m.live ++ (List.replicate (fn.locals - n) Value.null ++ _)).take (m.sp - n + fn.locals) = _
    rw [hlive, hbase, ← List.append_assoc, List.append_assoc S, ← hn,
      List.take_append_of_le_length (by simp; omega), List.take_length_add_append]
    rfl

/-- The callee stands below its arguments. -/
theorem call_eq (hfits : m.Fits) (hlive : m.live = S ++ callee :: args) :
    m.sp = S.length + args.length + 1 ∧ m.stack[m.sp - 1 - args.length]? = some callee := by
  have hlen := hfits.length_live
  simp only [hlive, List.length_append, List.length_cons] at hlen
  refine ⟨by omega, getElem?_of_live ?_⟩
  rw [hlive, show m.sp - 1 - args.length = S.length by omega]
  simp

theorem call_closure_sat [Casing] (hfits : m.Fits)
    (hlive : m.live = S ++ .closure id (some fn) free :: args)
    (hok : ∀ m', args.length = fn.params → m.callers.size + 1 < m.maxFrames →
      { m with
        callers := m.callers.push m.frame
        frame := ⟨fn, id, free, 0, S.length + 1⟩ }.Agrees m' → m'.Fits →
      m'.live = S ++ .closure id (some fn) free :: locals fn args → Q () m')
    (hparams : args.length ≠ fn.params → E (.wrongArguments fn.params args.length) m)
    (hframes : args.length = fn.params → m.maxFrames ≤ m.callers.size + 1 →
      E (.frameOverflow m.maxFrames) m)
    (hfull : m.stack.size < S.length + 1 + fn.locals → E .stackOverflow m) :
    Sat (exec ⟨.call, [args.length]⟩) m Q E := by
  obtain ⟨hsp, hcallee⟩ := call_eq hfits hlive
  have hlive' : m.live = (S ++ [.closure id (some fn) free]) ++ args := by simp [hlive]
  have henter : Sat (enter id fn free args.length) m Q E := by
    refine enter_sat hfits hlive' rfl ?_ hparams hframes (by simpa using hfull)
    intro m' hp hf hagrees hfits' hlive''
    refine hok m' hp hf ?_ hfits' (by simp [hlive''])
    simpa using hagrees
  change Sat (call args.length) m Q E
  refine .bind (.get ?_)
  rw [if_neg (by omega), hcallee]
  exact henter

theorem call_builtin_sat [Casing] {b : Builtin} (hfits : m.Fits)
    (hlive : m.live = S ++ .builtin (.known b) :: args)
    (hok : ∀ m', { m with output := b.output args :: m.output }.Agrees m' → m'.Fits →
      m'.live = S ++ [b.value args] → Q () m') : Sat (exec ⟨.call, [args.length]⟩) m Q E := by
  obtain ⟨hsp, hcallee⟩ := call_eq hfits hlive
  have hlive' : m.live = (S ++ [.builtin (.known b)]) ++ args := by simp [hlive]
  obtain ⟨-, hS, -⟩ := live_take hfits hlive
  have hle : m.sp ≤ m.stack.size := hfits
  change Sat (call args.length) m Q E
  refine .bind (.get ?_)
  rw [if_neg (by omega), hcallee]
  refine .bind (.top hfits hlive' rfl (.bind (.modify (.push ?_ ?_ ?_))))
  · exact Nat.le_trans (Nat.le_trans (Nat.sub_le _ _) (Nat.sub_le _ _)) hfits
  · intro m' hagrees hfits' hlive'' _
    have hdrop : { m with output := b.output args :: m.output }.Agrees
        { m with sp := m.sp - args.length - 1, output := b.output args :: m.output } :=
      ⟨rfl, rfl, rfl, rfl, rfl, rfl, rfl, rfl, rfl, rfl⟩
    refine hok m' (hdrop.trans hagrees) hfits' ?_
    rw [hlive'']
    exact congrArg (· ++ _) hS
  · intro hfull
    change m.sp - args.length - 1 = m.stack.size at hfull
    omega

/-- Nothing but closures and builtin functions can be called. -/
theorem call_other_sat [Casing] (hfits : m.Fits) (hlive : m.live = S ++ callee :: args)
    (hclosure : ∀ id fn free, callee ≠ .closure id fn free) (hnative : ∀ b, callee ≠ .builtin b)
    (hhollow : callee ≠ .noClosure) (herror : E (.notCallable callee.typeName) m) :
    Sat (exec ⟨.call, [args.length]⟩) m Q E := by
  obtain ⟨hsp, hcallee⟩ := call_eq hfits hlive
  change Sat (call args.length) m Q E
  refine .bind (.get ?_)
  rw [if_neg (by omega), hcallee]
  cases callee with
  | closure id fn free => exact absurd rfl (hclosure id fn free)
  | builtin b => exact absurd rfl (hnative b)
  | noClosure => exact absurd rfl hhollow
  | _ => exact .raise herror

end Call

section Return

variable {v : Value}

/-- A return from the main code goes to its end. -/
theorem leave_main_sat (hfits : m.Fits) (hcallers : m.callers.back? = none)
    (hok : ∀ m', { m with frame := { m.frame with next := m.frame.fn.code.size } }.Agrees m' →
      m'.Fits → m'.live = m.live → m'.lastPopped = v → Q () m')
    (hfull : m.sp = m.stack.size → E .stackOverflow m) : Sat (leave v) m Q E := by
  refine .bind (.get ?_)
  rw [hcallers]
  refine .bind (.push hfits ?_ hfull)
  intro m₁ hagrees₁ hfits₁ hlive₁ _
  obtain ⟨hsp, hS, -⟩ := live_take hfits₁ hlive₁
  have htop : m₁.stack[m₁.sp - 1]? = some v := getElem?_of_live (by simp [hlive₁, hsp])
  refine .bind (.modify (.modify (hok _ ?_ ?_ ?_ ?_)))
  · exact ⟨by rw [hagrees₁.frame], hagrees₁.callers, hagrees₁.constants, hagrees₁.globals,
      hagrees₁.maxFrames, hagrees₁.limit, hagrees₁.fresh, hagrees₁.output, hagrees₁.instructions,
      hagrees₁.size⟩
  · exact Nat.le_trans (Nat.sub_le _ _) hfits₁
  · exact hS
  · rw [Machine.lastPopped]
    exact congrArg (Option.getD · .null) htop

/-- A return from a function drops its frame, its locals and the closure itself. -/
theorem leave_sat {caller : Frame} {rest : List Value} (hfits : m.Fits)
    (hcaller : m.callers.back? = some caller) (hlive : m.live = S ++ rest) (hrest : rest ≠ [])
    (hbase : m.frame.base = S.length + 1)
    (hok : ∀ m', { m with callers := m.callers.pop, frame := caller }.Agrees m' → m'.Fits →
      m'.live = S ++ [v] → Q () m') : Sat (leave v) m Q E := by
  obtain ⟨hsp, hS, -⟩ := live_take hfits hlive
  have hle : m.sp ≤ m.stack.size := hfits
  have hdrop : { m with callers := m.callers.pop, frame := caller }.Agrees
      { m with callers := m.callers.pop, frame := caller, sp := m.frame.base - 1 } :=
    ⟨rfl, rfl, rfl, rfl, rfl, rfl, rfl, rfl, rfl, rfl⟩
  have hbelow :
      { m with callers := m.callers.pop, frame := caller, sp := m.frame.base - 1 }.live = S := by
    rw [← hS, hbase]
    simp only [Machine.live]
    congr 1
    omega
  refine .bind (.get ?_)
  rw [hcaller]
  refine .bind (.modify (.push ?_ ?_ ?_))
  · rw [Machine.Fits, hbase]
    simp only [Nat.add_sub_cancel]
    omega
  · intro m' hagrees hfits' hlive' _
    exact hok m' (hdrop.trans hagrees) hfits' (by rw [hlive', hbelow])
  · intro hfull
    have hpos := List.length_pos_iff.2 hrest
    change m.frame.base - 1 = m.stack.size at hfull
    omega

end Return

end Exec

/-! ### Steps -/

namespace Machine

/-- The machine goes on at an offset and has counted an instruction. -/
def advance (m : Machine) (offset : Nat) : Machine :=
  { m with
    frame := { m.frame with next := offset }
    stats := { m.stats with instructions := m.stats.instructions + 1 } }

open Exec

/-- A step executes the instruction that stands at the offset reached, unless it is one too
many. -/
theorem step_sat [Casing] {m : Machine} {i : Instr} {Q : Unit → Machine → Prop}
    {E : Fault → Machine → Prop} (hfits : m.Fits)
    (hfetch : m.frame.fn.code.fetch m.frame.next = some (.instr i))
    (hexec : ∀ m', (m.advance (m.frame.next + i.op.size)).Agrees m' → m'.Fits → m'.live = m.live →
      Sat (exec i) m' Q E)
    (hlimit : 0 < m.limit → E (.instructionLimit m.limit) (m.advance (m.frame.next + 1))) :
    Sat step m Q E := by
  obtain ⟨b, hb⟩ := Code.exists_byte_of_fetch hfetch
  have hrest : ∀ m', (m.advance (m.frame.next + 1)).Agrees m' → m'.Fits → m'.live = m.live →
      Sat (do jumpTo (m.frame.next + i.op.size); exec i) m' Q E := by
    intro m' hagrees hfits' hlive
    refine .bind (.modify (hexec _ ?_ hfits' hlive))
    exact ⟨by rw [hagrees.frame]; rfl, hagrees.callers, hagrees.constants, hagrees.globals,
      hagrees.maxFrames, hagrees.limit, hagrees.fresh, hagrees.output, hagrees.instructions,
      hagrees.size⟩
  refine .bind (.get ?_)
  dsimp only
  rw [hb, hfetch]
  refine .bind ?_
  unfold count
  refine .bind (.modify (.bind (.get ?_)))
  dsimp only
  by_cases hover : 0 < m.limit ∧ m.limit < m.stats.instructions + 1
  · rw [if_pos hover]
    exact .bind (.raise (hlimit hover.1))
  · rw [if_neg hover]
    by_cases htracing : m.tracing = true
    · rw [if_pos htracing]
      exact .modify (hrest _ ⟨rfl, rfl, rfl, rfl, rfl, rfl, rfl, rfl, rfl, rfl⟩ hfits rfl)
    · rw [if_neg htracing]
      exact .pure (hrest _ ⟨rfl, rfl, rfl, rfl, rfl, rfl, rfl, rfl, rfl, rfl⟩ hfits rfl)

end Machine

end StackScript
