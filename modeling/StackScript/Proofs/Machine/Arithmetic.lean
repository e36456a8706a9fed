import StackScript.Proofs.Compile.LiteralCode
import StackScript.Proofs.Machine.Effect

/-!
# The code of integer expressions

An expression that is built from integers by operators is compiled to code without
jumps and calls. Its run is put together from the runs of its parts: each part
leaves one value on the stack, and an operator takes the values of its operands
away before it pushes its own. So a run needs as many places as there are values
that wait for the rest of the expression, and it is cut off only if the stack has
fewer.

## Main definitions

* `Machine.Proceeds`: where a run is after some instructions.
* `Expr.nodes`, `Expr.literals`, `Expr.height`: the instructions, the constants and the places on
  the stack that an expression needs.
* `Expr.Delivers`: the code of an expression pushes a value or ends in a fault.
* `Expr.Exact`: the exact value of an expression of integers.

## Main results

* `Expr.Delivers.unary`, `Expr.Delivers.binary`: operators.
* `Expr.Exact.delivers`: what is pushed is the exact value, wrapped around once.
* `Expr.delivers_quotient`: quotients of such values.
-/

namespace StackScript

open Instr

/-! ### Stretches of a run -/

namespace Machine

variable {m m' m'' : Machine} {j k n : Nat} {S T : List Value} {before after : List Instr} {i : Instr}
  {Q Q' : Machine → Prop} {E E' : Fault → Prop}

/-- After `k` instructions the run is at a machine with `Q`, or it has ended in a fault with `E`. -/
def Proceeds [Casing] (m : Machine) (k : Nat) (Q : Machine → Prop) (E : Fault → Prop) : Prop :=
  (∃ m', (∀ fuel, m.runFor (k + fuel) = m'.runFor fuel) ∧ Q m') ∨
    ∃ e m', (∀ fuel, k ≤ fuel → m.runFor fuel = (.stopped (.fault e), m')) ∧ E e.fault

theorem Proceeds.bind [Casing] (h : m.Proceeds j Q E) (hrest : ∀ m', Q m' → m'.Proceeds k Q' E) :
    m.Proceeds (j + k) Q' E := by
  obtain ⟨m₁, hrun, hQ⟩ | ⟨e, m₁, hrun, hE⟩ := h
  · obtain ⟨m₂, hrun₂, hQ'⟩ | ⟨e, m₂, hrun₂, hE⟩ := hrest m₁ hQ
    · refine .inl ⟨m₂, fun fuel => ?_, hQ'⟩
      rw [Nat.add_assoc, hrun, hrun₂]
    · refine .inr ⟨e, m₂, fun fuel hfuel => ?_, hE⟩
      obtain ⟨rest, rfl⟩ := Nat.exists_eq_add_of_le (Nat.le_of_add_right_le hfuel)
      rw [hrun, hrun₂ rest (Nat.le_of_add_le_add_left hfuel)]
  · exact .inr ⟨e, m₁, fun fuel hfuel => hrun fuel (Nat.le_of_add_right_le hfuel), hE⟩

theorem Proceeds.mono [Casing] (h : m.Proceeds k Q E) (hQ : ∀ m', Q m' → Q' m')
    (hE : ∀ f, E f → E' f) :
    m.Proceeds k Q' E' := by
  obtain ⟨m₁, hrun, h⟩ | ⟨e, m₁, hrun, h⟩ := h
  · exact .inl ⟨m₁, hrun, hQ m₁ h⟩
  · exact .inr ⟨e, m₁, hrun, hE _ h⟩

theorem proceeds_of_step [Casing] (hrunning : m.running = true)
    (h : Exec.Sat step m (fun _ => Q) fun f _ => E f) : m.Proceeds 1 Q E := by
  unfold Exec.Sat at h
  cases hstep : step m with
  | ok u m' =>
    rw [hstep] at h
    refine .inl ⟨m', fun fuel => ?_, h⟩
    rw [Nat.add_comm, runFor, if_pos hrunning, hstep]
  | error stop m' =>
    rw [hstep] at h
    cases stop with
    | crash => exact h.elim
    | fault e =>
      refine .inr ⟨e, m', fun fuel hfuel => ?_, h⟩
      obtain ⟨rest, rfl⟩ := Nat.exists_eq_add_of_le' hfuel
      rw [runFor, if_pos hrunning, hstep]

/-- The second machine has got `n` bytes further in the same code, and has these values on its
stack. -/
structure Passed (m m' : Machine) (n : Nat) (S : List Value) : Prop where
  frame : m'.frame = { m.frame with next := m.frame.next + n }
  constants : m'.constants = m.constants
  limit : m'.limit = m.limit
  size : m'.stack.size = m.stack.size
  fits : m'.Fits
  live : m'.live = S

theorem Passed.trans (h : m.Passed m' j S) (h' : m'.Passed m'' k T) : m.Passed m'' (j + k) T where
  frame := by rw [h'.frame, h.frame, Nat.add_assoc]
  constants := h'.constants.trans h.constants
  limit := h'.limit.trans h.limit
  size := h'.size.trans h.size
  fits := h'.fits
  live := h'.live

theorem Passed.agrees (h : m.Passed m' n S) (hagrees : m'.Agrees m'') (hfits : m''.Fits)
    (hlive : m''.live = T) : m.Passed m'' n T where
  frame := hagrees.frame.trans h.frame
  constants := hagrees.constants.trans h.constants
  limit := hagrees.limit.trans h.limit
  size := hagrees.size.trans h.size
  fits := hfits
  live := hlive

/-- The machine stands between the two parts of its code. -/
structure Stands (m : Machine) (before after : List Instr) : Prop where
  code : m.frame.fn.code = .ofInstrs (before ++ after)
  next : m.frame.next = bytes before
  fits : m.Fits

theorem Stands.passed {is : List Instr} (h : m.Stands before (is ++ after))
    (hpassed : m.Passed m' (bytes is) S) : m'.Stands (before ++ is) after where
  code := by rw [hpassed.frame, List.append_assoc]; exact h.code
  next := by rw [hpassed.frame, bytes_append, ← h.next]
  fits := hpassed.fits

/-- The next instruction of the code is executed, unless it is one too many. -/
theorem Stands.proceeds [Casing] (h : m.Stands before (i :: after)) (hi : i.Fits)
    (hexec : ∀ m', m.Passed m' i.op.size m.live →
      Exec.Sat (Exec.exec i) m' (fun _ => Q) fun f _ => E f)
    (hlimit : 0 < m.limit → E (.instructionLimit m.limit)) : m.Proceeds 1 Q E := by
  have hfetch : m.frame.fn.code.fetch m.frame.next = some (.instr i) := by
    rw [h.code, h.next]
    exact Code.fetch_ofInstrs before after hi
  obtain ⟨b, hb⟩ := Code.exists_byte_of_fetch hfetch
  refine proceeds_of_step (decide_eq_true (Array.getElem?_eq_some_iff.1 hb).1) ?_
  refine step_sat h.fits hfetch (fun m' hagrees hfits hlive => hexec m' ?_) hlimit
  exact ⟨hagrees.frame, hagrees.constants, hagrees.limit, hagrees.size, hfits, hlive⟩

/-- The fault is for want of `n` places on the stack, or of instructions that are allowed. -/
def Lacks (m : Machine) (n : Nat) (f : Fault) : Prop :=
  f = .stackOverflow ∧ m.stack.size < m.live.length + n ∨
    f = .instructionLimit m.limit ∧ 0 < m.limit

theorem lacks_limit (n : Nat) (h : 0 < m.limit) : m.Lacks n (.instructionLimit m.limit) :=
  .inr ⟨rfl, h⟩

theorem Lacks.mono {f : Fault} (h : m.Lacks k f) (hle : k ≤ n) : m.Lacks n f := by
  obtain ⟨rfl, hlt⟩ | hlimit := h
  · exact .inl ⟨rfl, Nat.lt_of_lt_of_le hlt (Nat.add_le_add_left hle _)⟩
  · exact .inr hlimit

/-- What a machine further on lacks was lacking before. -/
theorem Lacks.of_passed {f : Fault} (h : m'.Lacks k f) (hpassed : m.Passed m' j S)
    (hle : S.length + k ≤ m.live.length + n) : m.Lacks n f := by
  obtain ⟨rfl, hlt⟩ | ⟨rfl, hlt⟩ := h
  · rw [hpassed.size, hpassed.live] at hlt
    exact .inl ⟨rfl, Nat.lt_of_lt_of_le hlt hle⟩
  · rw [hpassed.limit] at hlt ⊢
    exact lacks_limit n hlt

end Machine

/-! ### Operators -/

namespace Exec

variable {m : Machine} {i : Instr} {S : List Value} {Q : Unit → Machine → Prop}
  {E : Fault → Machine → Prop}

/-- An operator with one operand has the place of the operand for its value. -/
theorem unary_sat [Casing] {f : Value → Except Fault Value} {v : Value} (h : i.unary? = some f)
    (hfits : m.Fits) (hlive : m.live = S ++ [v])
    (hok : ∀ w m', f v = .ok w → m.Agrees m' → m'.Fits → m'.live = S ++ [w] → Q () m')
    (herror : ∀ g m', f v = .error g → E g m') : Sat (exec i) m Q E := by
  rw [exec_unary h]
  refine .bind (.pop hfits hlive fun m₁ hagrees₁ hfits₁ hlive₁ _ => ?_)
  refine finish_sat hfits₁ ?_ (fun g hg => herror g m₁ hg) fun hfull => ?_
  · intro w m₂ hw hagrees₂ hfits₂ hlive₂
    exact hok w m₂ hw (hagrees₁.trans hagrees₂) hfits₂ (by rw [hlive₂, hlive₁])
  · have hle : m.sp ≤ m.stack.size := hfits
    rw [← hfits.length_live, hlive, List.length_append, List.length_singleton] at hle
    rw [← hfits₁.length_live, hlive₁, hagrees₁.size] at hfull
    omega

/-- An operator with two operands has their places for its value. -/
theorem binary_sat [Casing] {f : Value → Value → Except Fault Value} {a b : Value}
    (h : i.binary? = some f) (hfits : m.Fits) (hlive : m.live = S ++ [a, b])
    (hok : ∀ w m', f a b = .ok w → m.Agrees m' → m'.Fits → m'.live = S ++ [w] → Q () m')
    (herror : ∀ g m', f a b = .error g → E g m') : Sat (exec i) m Q E := by
  rw [exec_binary h]
  have hlive' : m.live = (S ++ [a]) ++ [b] := by rw [hlive, List.append_assoc]; rfl
  refine .bind (.pop hfits hlive' fun m₁ hagrees₁ hfits₁ hlive₁ _ => ?_)
  refine .bind (.pop hfits₁ hlive₁ fun m₂ hagrees₂ hfits₂ hlive₂ _ => ?_)
  refine finish_sat hfits₂ ?_ (fun g hg => herror g m₂ hg) fun hfull => ?_
  · intro w m₃ hw hagrees₃ hfits₃ hlive₃
    exact hok w m₃ hw ((hagrees₁.trans hagrees₂).trans hagrees₃) hfits₃ (by rw [hlive₃, hlive₂])
  · have hle : m.sp ≤ m.stack.size := hfits
    rw [← hfits.length_live, hlive, List.length_append, List.length_cons] at hle
    rw [← hfits₂.length_live, hlive₂, hagrees₂.size, hagrees₁.size] at hfull
    omega

end Exec

namespace Expr

/-! ### What an expression needs -/

/-- The number of instructions for an expression of operators. -/
def nodes : Expr → Nat
  | .unary _ _ right => right.nodes + 1
  | .binary _ _ left right => left.nodes + right.nodes + 1
  | _ => 1

/-- The number of constants for an expression of operators. -/
def literals : Expr → Nat
  | .unary _ _ right => right.literals
  | .binary _ _ left right => left.literals + right.literals
  | _ => 1

/-- The number of places on the stack for an expression of operators: the value of the left operand
waits for that of the right one. -/
def height : Expr → Nat
  | .unary _ _ right => right.height
  | .binary _ _ left right => max left.height (right.height + 1)
  | _ => 1

/-- The code of the expression, wherever it stands, pushes the value, or it ends in the fault; it may
be cut off for want of room. -/
structure Delivers [Casing] (e : Expr) (r : Except Fault Value) : Prop where
  grows : ∀ offset σ is τ, e.Emits offset σ is τ → σ.constants.toList <+: τ.constants.toList
  runs : ∀ offset σ is τ, e.Emits offset σ is τ → ∀ (before after : List Instr) (m : Machine),
    m.Stands before (is ++ after) → τ.constants.toList <+: m.constants.toList →
    m.Proceeds e.nodes (fun m' => ∃ v, r = .ok v ∧ m.Passed m' (bytes is) (m.live ++ [v])) fun f =>
      r = .error f ∨ m.Lacks e.height f

variable {e a b : Expr} {u v : Value} {op : Opcode}

/-- Code that pushes a value has no fault of its own. -/
theorem Delivers.pushes [Casing] {offset : Nat} {σ τ : Context} {is before after : List Instr}
    {m : Machine}
    (h : e.Delivers (.ok v)) (his : e.Emits offset σ is τ) (hstands : m.Stands before (is ++ after))
    (hconstants : τ.constants.toList <+: m.constants.toList) :
    m.Proceeds e.nodes (fun m' => m.Passed m' (bytes is) (m.live ++ [v])) (m.Lacks e.height) := by
  refine (h.runs _ _ _ _ his _ _ m hstands hconstants).mono ?_ ?_
  · rintro m' ⟨w, hw, hpassed⟩
    rwa [Except.ok.inj hw]
  · rintro f (hf | hlacks)
    · cases hf
    · exact hlacks

/-- An integer literal pushes its value. -/
theorem delivers_int [Casing] (loc : Loc) (literal : Bytes) (n : Int64) :
    (Expr.int loc literal n).Delivers (.ok (.int n)) := by
  constructor
  · rintro offset σ _ _ ⟨-, rfl, rfl⟩
    exact ⟨[.int n], Array.toList_push.symm⟩
  · rintro offset σ _ _ ⟨hroom, rfl, rfl⟩ before after m hstands ⟨rest, hconstants⟩
    have hvalue : m.constants[σ.constants.size]? = some (.int n) := by
      rw [← Array.getElem?_toList, ← hconstants]
      simp [Context.push]
    refine hstands.proceeds (.cons hroom .nil) (fun m₁ hpassed => ?_) fun hlimit =>
      .inr (Machine.lacks_limit _ hlimit)
    have hsource : (⟨.const, [σ.constants.size]⟩ : Instr).source? m₁ = some (.ok (.int n)) := by
      rw [source?, hpassed.constants]
      exact congrArg (Option.map _) hvalue
    refine Exec.yields_sat hpassed.fits (List.append_nil _).symm (.source hsource) ?_ ?_ ?_
    · intro v m₂ hv hagrees hfits hlive
      exact ⟨v, hv, hpassed.agrees hagrees hfits (by rw [hlive, hpassed.live])⟩
    · intro f _ hf
      cases hf
    · intro m₂ _ hfull
      rw [← hpassed.fits.length_live, hpassed.live, hpassed.size] at hfull
      exact .inr (.inl ⟨rfl, Nat.lt_succ_of_le hfull⟩)

theorem fits_unary {f : Value → Except Fault Value} (h : (⟨op, []⟩ : Instr).unary? = some f) :
    (⟨op, []⟩ : Instr).Fits := by
  cases op <;> first | exact .nil | cases h

theorem fits_binary {f : Value → Value → Except Fault Value}
    (h : (⟨op, []⟩ : Instr).binary? = some f) : (⟨op, []⟩ : Instr).Fits := by
  cases op <;> first | exact .nil | cases h

/-- An operator with one operand is applied to the value of the operand. -/
theorem Delivers.unary [Casing] {f : Value → Except Fault Value} {o : UnaryOp}
    (h : e.Delivers (.ok v))
    (ho : o.opcode? = some op) (hf : (⟨op, []⟩ : Instr).unary? = some f) (loc : Loc) :
    (Expr.unary loc o e).Delivers (f v) := by
  constructor
  · rintro offset σ _ _ ⟨is, τ, _, his, ⟨_, _, rfl, rfl⟩, rfl⟩
    exact h.grows _ _ _ _ his
  · rintro offset σ _ _ ⟨is, τ, _, his, ⟨op', hop, rfl, rfl⟩, rfl⟩ before after m hstands hconstants
    obtain rfl : op = op' := Option.some.inj (ho.symm.trans hop)
    rw [List.append_assoc] at hstands
    have hoperand := h.pushes his hstands hconstants
    refine (hoperand.mono (fun _ => id) fun _ => .inr).bind fun m₁ hpassed => ?_
    refine (hstands.passed hpassed).proceeds (fits_unary hf) (fun m₂ hpassed₂ => ?_) fun hlimit => ?_
    · refine Exec.unary_sat hf hpassed₂.fits (hpassed₂.live.trans hpassed.live) ?_ fun g _ hg => .inl hg
      intro w m₃ hw hagrees hfits hlive
      refine ⟨w, hw, ?_⟩
      rw [bytes_append]
      exact hpassed.trans (hpassed₂.agrees hagrees hfits hlive)
    · rw [hpassed.limit] at hlimit ⊢
      exact .inr (Machine.lacks_limit _ hlimit)

/-- The code of two operands leaves both values on the stack. -/
theorem Delivers.pushes_both [Casing] {offset : Nat} {σ τ τ' : Context}
    {s t before after : List Instr}
    {m : Machine} (ha : a.Delivers (.ok u)) (hb : b.Delivers (.ok v)) (hs : a.Emits offset σ s τ)
    (ht : b.Emits (offset + bytes s) τ t τ') (hstands : m.Stands before (s ++ (t ++ after)))
    (hconstants : τ'.constants.toList <+: m.constants.toList) :
    m.Proceeds (a.nodes + b.nodes) (fun m' => m.Passed m' (bytes s + bytes t) (m.live ++ [u, v]))
      (m.Lacks (max a.height (b.height + 1))) := by
  have hleft := ha.pushes hs hstands ((hb.grows _ _ _ _ ht).trans hconstants)
  refine (hleft.mono (fun _ => id) fun f hf => hf.mono (Nat.le_max_left _ _)).bind ?_
  intro m₁ hpassed
  have hright := hb.pushes ht (hstands.passed hpassed) (by rwa [hpassed.constants])
  refine hright.mono (fun m₂ hpassed₂ => ?_) fun f hf => hf.of_passed hpassed ?_
  · rw [hpassed.live, List.append_assoc] at hpassed₂
    exact hpassed.trans hpassed₂
  · rw [List.length_append, List.length_singleton]
    omega

/-- An operator with two operands is applied to their values. -/
theorem Delivers.binary [Casing] {f : Value → Value → Except Fault Value} {o : BinaryOp}
    (ha : a.Delivers (.ok u)) (hb : b.Delivers (.ok v)) (hless : o ≠ .less)
    (ho : o.opcode? = some op) (hf : (⟨op, []⟩ : Instr).binary? = some f) (loc : Loc) :
    (Expr.binary loc o a b).Delivers (f u v) := by
  constructor
  · intro offset σ is τ his
    rw [Expr.Emits, if_neg hless] at his
    obtain ⟨s, τ₁, _, hs, ⟨t, τ₂, _, ht, ⟨_, _, rfl, rfl⟩, rfl⟩, rfl⟩ := his
    exact (ha.grows _ _ _ _ hs).trans (hb.grows _ _ _ _ ht)
  · intro offset σ is τ his before after m hstands hconstants
    rw [Expr.Emits, if_neg hless] at his
    obtain ⟨s, τ₁, _, hs, ⟨t, τ₂, _, ht, ⟨op', hop, rfl, rfl⟩, rfl⟩, rfl⟩ := his
    obtain rfl : op = op' := Option.some.inj (ho.symm.trans hop)
    rw [List.append_assoc, List.append_assoc] at hstands
    have hoperands := ha.pushes_both hb hs ht hstands hconstants
    refine (hoperands.mono (fun _ => id) fun _ => .inr).bind fun m₁ hpassed => ?_
    have hstands₁ : m₁.Stands (before ++ (s ++ t)) (⟨op, []⟩ :: after) := by
      rw [← List.append_assoc] at hstands
      rw [← bytes_append] at hpassed
      exact hstands.passed hpassed
    refine hstands₁.proceeds (fits_binary hf) (fun m₂ hpassed₂ => ?_) fun hlimit => ?_
    · refine Exec.binary_sat hf hpassed₂.fits (hpassed₂.live.trans hpassed.live) ?_ fun g _ hg =>
        .inl hg
      intro w m₃ hw hagrees hfits hlive
      refine ⟨w, hw, ?_⟩
      rw [bytes_append, bytes_append, ← Nat.add_assoc]
      exact hpassed.trans (hpassed₂.agrees hagrees hfits hlive)
    · rw [hpassed.limit] at hlimit ⊢
      exact .inr (Machine.lacks_limit _ hlimit)

/-- An operator on two integers. -/
theorem Delivers.integers [Casing] {p q : Int64} {o : BinaryOp} (ha : a.Delivers (.ok (.int p)))
    (hb : b.Delivers (.ok (.int q))) (ho : o.opcode? = some op)
    (hop : op ∈ [Opcode.add, .sub, .mul, .div]) (loc : Loc) :
    (Expr.binary loc o a b).Delivers (Value.integerOp op p q) := by
  have hless : o ≠ .less := by
    rintro rfl
    cases ho
    exact absurd hop (by decide)
  refine ha.binary (f := fun u v => u.arithmetic op v) hb hless ho ?_ loc
  cases op <;> first | rfl | exact absurd hop (by decide)

/-! ### Exact values -/

/-- The expression is built from integer literals by minus signs, sums, differences and products, and
`z` is its value in the integers without bounds. -/
inductive Exact : Expr → Int → Prop
  | int (loc : Loc) (literal : Bytes) (n : Int64) : Exact (.int loc literal n) n.toInt
  | neg (loc : Loc) {e : Expr} {z : Int} : Exact e z → Exact (.unary loc .neg e) (-z)
  | add (loc : Loc) {a b : Expr} {x y : Int} : Exact a x → Exact b y →
    Exact (.binary loc .add a b) (x + y)
  | sub (loc : Loc) {a b : Expr} {x y : Int} : Exact a x → Exact b y →
    Exact (.binary loc .sub a b) (x - y)
  | mul (loc : Loc) {a b : Expr} {x y : Int} : Exact a x → Exact b y →
    Exact (.binary loc .mul a b) (x * y)

variable {x y z : Int}

/-- Wrapping around commutes with the operations, so it does not matter that every step wraps. -/
theorem Exact.delivers [Casing] (h : e.Exact z) : e.Delivers (.ok (.int (.ofInt z))) := by
  induction h with
  | int loc literal n =>
    rw [Int64.ofInt_toInt]
    exact delivers_int loc literal n
  | neg loc _ ih =>
    rw [Int64.ofInt_neg]
    exact ih.unary (o := .neg) (f := Value.negate) rfl rfl loc
  | add loc _ _ iha ihb =>
    rw [Int64.ofInt_add]
    exact iha.integers (o := .add) ihb rfl (by decide) loc
  | sub loc _ _ iha ihb =>
    rw [Int64.ofInt_sub]
    exact iha.integers (o := .sub) ihb rfl (by decide) loc
  | mul loc _ _ iha ihb =>
    rw [Int64.ofInt_mul]
    exact iha.integers (o := .mul) ihb rfl (by decide) loc

/-- A quotient is that of the wrapped values. -/
theorem delivers_quotient [Casing] (ha : a.Exact x) (hb : b.Exact y) (loc : Loc) :
    (Expr.binary loc .div a b).Delivers (if Int64.ofInt y = 0 then .error .divisionByZero
      else .ok (.int (.ofInt x / .ofInt y))) :=
  ha.delivers.integers (o := .div) hb.delivers rfl (by decide) loc

end Expr

/-! ### Room for constants -/

namespace Compile

variable {a b e : Expr} {n k : Nat} {op : Opcode}

theorem Adds.unary {o : UnaryOp} (h : Adds e.compile n) (ho : o.opcode? = some op) (loc : Loc) :
    Adds (Expr.unary loc o e).compile n := by
  rw [Expr.compile, ho]
  exact .bind h fun _ => adds_emit op []

theorem Adds.binary {o : BinaryOp} (ha : Adds a.compile n) (hb : Adds b.compile k)
    (hless : o ≠ .less) (ho : o.opcode? = some op) (loc : Loc) :
    Adds (Expr.binary loc o a b).compile (n + k) := by
  rw [Expr.compile, ho, if_neg hless]
  exact .bind ha fun _ => .bind hb fun _ => adds_emit op []

end Compile

/-- An expression of integers is compiled if there is room for its literals. -/
theorem Expr.Exact.adds {e : Expr} {z : Int} (h : e.Exact z) :
    Compile.Adds e.compile e.literals := by
  induction h with
  | int loc literal n => exact .bind (Compile.adds_constant _ _) fun _ => Compile.adds_emit _ _
  | neg loc _ ih => exact ih.unary rfl loc
  | add loc _ _ iha ihb => exact iha.binary ihb (by decide) rfl loc
  | sub loc _ _ iha ihb => exact iha.binary ihb (by decide) rfl loc
  | mul loc _ _ iha ihb => exact iha.binary ihb (by decide) rfl loc

end StackScript
