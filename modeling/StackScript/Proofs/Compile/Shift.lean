import StackScript.Proofs.Compile.Balance

/-!
# Code at another offset

What a node is compiled to depends on the offset where it starts in the targets
of its jumps only. Bodies of functions have offsets of their own. So the code of
a node at another offset is the same code with its jumps moved along, and it
leaves the same names and constants. At the same offset there is one code.

## Main definitions

* `Instr.shift`: an instruction that has been moved.
* `Emission.Uniform`: what is emitted does not depend on the offset but for that.

## Main results

* `tree_uniform`: expressions and statements are compiled uniformly.
* `all_emits_append`: the code of statements one after another.
-/

namespace StackScript

namespace Instr

/-- The instruction in code that starts `k` bytes later. -/
def shift (k : Nat) (i : Instr) : Instr :=
  match i.op, i.operands with
  | .jump, [t] => ⟨.jump, [t + k]⟩
  | .jumpIfFalse, [t] => ⟨.jumpIfFalse, [t + k]⟩
  | _, _ => i

variable {k : Nat} {i : Instr}

@[simp] theorem shift_op (k : Nat) (i : Instr) : (i.shift k).op = i.op := by
  obtain ⟨op, operands⟩ := i
  unfold shift
  split
  · next hop _ => exact hop.symm
  · next hop _ => exact hop.symm
  · rfl

theorem target?_nil (op : Opcode) : (⟨op, []⟩ : Instr).target? = none := by
  cases op <;> rfl

/-- Only jumps depend on where the code starts. -/
theorem shift_eq (h : i.target? = none) : i.shift k = i := by
  obtain ⟨op, operands⟩ := i
  unfold shift
  split
  · next hop hoperands =>
    obtain rfl : op = _ := hop
    obtain rfl : operands = _ := hoperands
    cases h
  · next hop hoperands =>
    obtain rfl : op = _ := hop
    obtain rfl : operands = _ := hoperands
    cases h
  · rfl

@[simp] theorem shift_zero (i : Instr) : i.shift 0 = i := by
  obtain ⟨op, operands⟩ := i
  unfold shift
  split
  · next hop hoperands =>
    obtain rfl : op = _ := hop
    obtain rfl : operands = _ := hoperands
    rfl
  · next hop hoperands =>
    obtain rfl : op = _ := hop
    obtain rfl : operands = _ := hoperands
    rfl
  · rfl

theorem map_shift_zero (is : List Instr) : is.map (shift 0) = is := by
  rw [List.map_congr_left fun i _ => shift_zero i, List.map_id']

@[simp] theorem bytes_map_shift (k : Nat) (is : List Instr) :
    bytes (is.map (shift k)) = bytes is := by
  simp [bytes, Function.comp_def]

theorem returns_shift (k : Nat) (i : Instr) : (i.shift k).Returns ↔ i.Returns := by
  simp [Returns]

theorem keepValue_map_shift (k : Nat) (is : List Instr) :
    keepValue (is.map (shift k)) = (keepValue is).map (shift k) := by
  obtain rfl | ⟨is, i, rfl⟩ := List.eq_nil_or_concat is
  · rfl
  · rw [List.concat_eq_append]
    simp only [keepValue, List.map_append, List.map_cons, List.map_nil, List.getLast?_append,
      List.getLast?_singleton, Option.some_or, List.dropLast_concat, shift_op, returns_shift]
    split
    · rfl
    · split
      · simp
      · simp only [List.map_append, List.map_cons, List.map_nil]
        rfl

theorem load_shift (k : Nat) (place : Place) : place.load.shift k = place.load :=
  shift_eq (by cases place <;> rfl)

theorem store_shift (k : Nat) (place : Place) : place.store.shift k = place.store :=
  shift_eq (by cases place <;> rfl)

end Instr

open Instr

namespace Emission

/-- Whatever is emitted at another offset is the same with its jumps moved, and leaves the same
names and constants. -/
def Uniform (p : Emission) : Prop :=
  ∀ k offset σ seg τ seg' τ', p offset σ seg τ → p (offset + k) σ seg' τ' →
    seg' = seg.map (shift k) ∧ τ' = τ

variable {p q r : Emission}

/-- At an offset there is one thing to emit. -/
theorem Uniform.unique (hp : p.Uniform) {offset : Nat} {σ τ τ' : Context} {seg seg' : List Instr}
    (h : p offset σ seg τ) (h' : p offset σ seg' τ') : seg' = seg ∧ τ' = τ := by
  have hzero := hp 0 offset σ seg τ seg' τ' h h'
  rwa [map_shift_zero] at hzero

theorem Uniform.seq (hp : p.Uniform) (hq : q.Uniform) : (p.seq q).Uniform := by
  rintro k offset σ _ τ _ τ' ⟨s, σ₁, t, hs, ht, rfl⟩ ⟨s', σ₁', t', hs', ht', rfl⟩
  obtain ⟨rfl, rfl⟩ := hp _ _ _ _ _ _ _ hs hs'
  rw [bytes_map_shift, Nat.add_right_comm] at ht'
  obtain ⟨rfl, rfl⟩ := hq _ _ _ _ _ _ _ ht ht'
  exact ⟨(List.map_append ..).symm, rfl⟩

theorem uniform_one {i : Instr} (h : i.target? = none) : (one i).Uniform := by
  rintro k offset σ _ τ _ τ' ⟨rfl, rfl⟩ ⟨rfl, rfl⟩
  simp [shift_eq h]

theorem uniform_nothing : nothing.Uniform := by
  rintro k offset σ _ τ _ τ' ⟨rfl, rfl⟩ ⟨rfl, rfl⟩
  exact ⟨rfl, rfl⟩

theorem Uniform.all {ps : List Emission} (h : ∀ p ∈ ps, p.Uniform) : (Emission.all ps).Uniform := by
  induction ps with
  | nil => exact uniform_nothing
  | cons p ps ih =>
    rw [List.forall_mem_cons] at h
    exact h.1.seq (ih h.2)

theorem Uniform.given (hp : p.Uniform) (P : Prop) : (Emission.given P p).Uniform :=
  fun _ _ _ _ _ _ _ h h' => hp _ _ _ _ _ _ _ h.2 h'.2

theorem uniform_operator {op : Option Opcode}
    (h : ∀ code ∈ op, (⟨code, []⟩ : Instr).target? = none) : (operator op).Uniform := by
  rintro k offset σ _ τ _ τ' ⟨code, rfl, rfl, rfl⟩ ⟨code', hcode, rfl, rfl⟩
  obtain rfl := Option.some.inj hcode
  simp [shift_eq (h code rfl)]

theorem uniform_const (v : Value) : (const v).Uniform := by
  rintro k offset σ _ τ _ τ' ⟨-, rfl, rfl⟩ ⟨-, rfl, rfl⟩
  exact ⟨rfl, rfl⟩

theorem uniform_ident (name : Bytes) : (ident name).Uniform := by
  rintro k offset σ _ τ _ τ' ⟨place, hplace, rfl, hτ⟩ ⟨place', hplace', rfl, hτ'⟩
  obtain ⟨rfl, htables⟩ := Prod.mk.inj (Option.some.inj (hplace.symm.trans hplace'))
  obtain ⟨htable, houter⟩ := List.cons.inj htables
  refine ⟨by simp [load_shift], ?_⟩
  cases τ
  cases τ'
  simp_all

theorem Uniform.branch (hp : p.Uniform) : (Emission.branch p).Uniform := by
  rintro k offset σ _ τ _ τ' ⟨s, hs, rfl⟩ ⟨s', hs', rfl⟩
  obtain ⟨rfl, rfl⟩ := hp _ _ _ _ _ _ _ hs hs'
  exact ⟨keepValue_map_shift k s, rfl⟩

theorem Uniform.cond (hp : p.Uniform) (hq : q.Uniform) (hr : r.Uniform) :
    (Emission.cond p q r).Uniform := by
  rintro k offset σ _ τ _ τ'
    ⟨s, σ₁, t, σ₂, u, yesAt, elseAt, endAt, hs, ht, hu, hyes, helse, hend, -, rfl⟩
    ⟨s', σ₁', t', σ₂', u', yesAt', elseAt', endAt', hs', ht', hu', hyes', helse', hend', -, rfl⟩
  obtain ⟨rfl, rfl⟩ := hp _ _ _ _ _ _ _ hs hs'
  rw [bytes_map_shift] at hyes'
  obtain rfl : yesAt' = yesAt + k := by omega
  obtain ⟨rfl, rfl⟩ := hq _ _ _ _ _ _ _ ht ht'
  rw [bytes_map_shift] at helse'
  obtain rfl : elseAt' = elseAt + k := by omega
  obtain ⟨rfl, rfl⟩ := hr _ _ _ _ _ _ _ hu hu'
  rw [bytes_map_shift] at hend'
  obtain rfl : endAt' = endAt + k := by omega
  refine ⟨?_, rfl⟩
  simp only [List.map_append, List.map_cons]
  rfl

theorem Uniform.bind (hp : p.Uniform) (name : Bytes) : (Emission.bind name p).Uniform := by
  rintro k offset σ _ τ _ τ' ⟨-, s, hs, rfl⟩ ⟨-, s', hs', rfl⟩
  obtain ⟨rfl, rfl⟩ := hp _ _ _ _ _ _ _ hs hs'
  simp [store_shift]

/-- The body of a function starts at the start of its own code. -/
theorem Uniform.function (hp : p.Uniform) (name : Bytes) (params : List Ident) :
    (Emission.function name params p).Uniform := by
  rintro k offset σ _ _ _ _ ⟨s, τ, table, outer, hs, houter, -, -, -, rfl, rfl⟩
    ⟨s', τ', table', outer', hs', houter', -, -, -, rfl, rfl⟩
  obtain ⟨rfl, rfl⟩ := hp.unique hs hs'
  obtain ⟨rfl, rfl⟩ := List.cons.inj (houter.symm.trans houter')
  refine ⟨?_, rfl⟩
  have hclosure {n m : Nat} : (⟨.closure, [n, m]⟩ : Instr).shift k = ⟨.closure, [n, m]⟩ := rfl
  simp [load_shift, hclosure]

end Emission

open Emission

theorem body_uniform {body : List Stmt} (h : ∀ s ∈ body, s.Emits.Uniform) :
    (Emission.all (body.map Stmt.Emits)).Uniform :=
  .all (by simpa using h)

theorem items_uniform {items : List Expr} (h : ∀ e ∈ items, e.Emits.Uniform) :
    (Emission.all (items.map Expr.Emits)).Uniform :=
  .all (by simpa using h)

theorem pairs_uniform {pairs : List (Expr × Expr)}
    (h : ∀ p ∈ pairs, p.1.Emits.Uniform ∧ p.2.Emits.Uniform) :
    (Emission.all (pairs.map fun p => p.1.Emits.seq p.2.Emits)).Uniform := by
  apply Uniform.all
  intro q hq
  obtain ⟨p, hp, rfl⟩ := List.mem_map.1 hq
  exact (h p hp).1.seq (h p hp).2

theorem else_uniform {no : Option Block} (h : ∀ s ∈ Block.elseBody no, s.Emits.Uniform) :
    (emitsElse no).Uniform := by
  cases no with
  | none => exact uniform_one rfl
  | some b =>
    rw [emitsElse, Block.emits_eq]
    exact (body_uniform h).branch

/-- What a tree is compiled to is the same at every offset, but for the targets of jumps. -/
theorem tree_uniform : TreeSteps (fun e => e.Emits.Uniform) (fun s => s.Emits.Uniform) where
  ident id := uniform_ident id.name
  int loc literal value := uniform_const _
  string loc value := uniform_const _
  bool loc value := by cases value <;> exact uniform_one rfl
  unary loc op right hright := hright.seq (uniform_operator fun code hcode =>
    (op.opcode?_takes code hcode).1)
  binary loc op left right hleft hright := by
    have hop := uniform_operator fun code hcode => (op.opcode?_takes code hcode).1
    rw [Expr.Emits]
    split
    · exact hright.seq (hleft.seq hop)
    · exact hleft.seq (hright.seq hop)
  cond loc test yes no htest hyes hno := by
    rw [Expr.Emits, Block.emits_eq]
    exact htest.cond (body_uniform hyes).branch (else_uniform hno)
  function loc name params body hbody := by
    rw [Expr.Emits, Block.emits_eq]
    exact ((body_uniform hbody).function name params).given _
  call loc callee args hcallee hargs := by
    rw [Expr.Emits, emitsItems_eq]
    exact (hcallee.seq ((items_uniform hargs).seq (uniform_one rfl))).given _
  array loc items hitems := by
    rw [Expr.Emits, emitsItems_eq]
    exact ((items_uniform hitems).seq (uniform_one rfl)).given _
  hash loc pairs hpairs := by
    rw [Expr.Emits, emitsPairs_inOrder]
    have hordered := pairs_uniform fun p hp => hpairs p (Expr.mem_inOrder.1 hp)
    exact (hordered.seq (uniform_one rfl)).given _
  index loc left index hleft hindex := hleft.seq (hindex.seq (uniform_one rfl))
  missing := by
    intro _ _ _ _ _ _ _ h
    cases h
  bind loc id value hvalue := hvalue.bind id.name
  retNone loc := uniform_one rfl
  ret loc value hvalue := hvalue.seq (uniform_one rfl)
  expr loc value hvalue := hvalue.seq (uniform_one rfl)
  block body hbody := by
    rw [Stmt.Emits, Block.emits_eq]
    exact body_uniform hbody
  missingStmt := by
    intro _ _ _ _ _ _ _ h
    cases h

/-- The code of statements after others is their own code, moved behind that of the others. -/
theorem all_emits_append {first second : List Stmt} {σ τ τ' τ'' : Context} {s t is : List Instr}
    (hfirst : Emission.all (first.map Stmt.Emits) 0 σ s τ)
    (hsecond : Emission.all (second.map Stmt.Emits) 0 τ t τ')
    (hboth : Emission.all ((first ++ second).map Stmt.Emits) 0 σ is τ'') :
    is = s ++ t.map (shift (bytes s)) ∧ τ'' = τ' := by
  have huniform (body : List Stmt) : (Emission.all (body.map Stmt.Emits)).Uniform :=
    body_uniform fun e _ => tree_uniform.stmt_all e
  rw [List.map_append, Emission.all_append] at hboth
  obtain ⟨s', τ₁, t', hs', ht', rfl⟩ := hboth
  obtain ⟨rfl, rfl⟩ := (huniform first).unique hfirst hs'
  obtain ⟨rfl, rfl⟩ := huniform second _ _ _ _ _ _ _ hsecond ht'
  exact ⟨rfl, rfl⟩

end StackScript
