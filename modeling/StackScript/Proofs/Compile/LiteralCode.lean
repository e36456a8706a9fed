import Mathlib.Algebra.BigOperators.Group.List.Basic
import StackScript.Proofs.Compile.Paths
import StackScript.Proofs.Compile.Realization
import StackScript.Proofs.Meaning.Literals
import StackScript.Proofs.Tree.Parsed

/-!
# The code of literals

A literal needs room for its parts, and for nothing else. Each of its numbers is
a constant of its own, and the values on the stack are those of parts that have
been evaluated. So its compilation and its run have no cause to fail as long as
there is room for the parts.

## Main definitions

* `Value.parts`: the number of values that a value is made of.
* `Compile.Adds`: a compilation that adds so many constants at most.
* `Instr.climb`: how far instructions raise the stack at most.

## Main results

* `Expr.Builds.adds`: a literal with few parts is compiled.
* `Code.Laid.reaches_le`: the stack is no higher than the instructions before raise it.
* `Expr.Builds.climbs`: the code of a literal raises the stack by its parts at most.
-/

namespace StackScript

/-! ### Parts -/

namespace Value

mutual

/-- The number of values that a value is made of, keys included. -/
def parts : Value → Nat
  | .array items => 1 + partsItems items
  | .hash entries => 1 + partsEntries entries
  | _ => 1

/-- The parts of the elements of an array. -/
def partsItems : List Value → Nat
  | [] => 0
  | v :: rest => v.parts + partsItems rest

/-- The parts of the entries of a hash. -/
def partsEntries : List (HashKey × Value × Value) → Nat
  | [] => 0
  | (_, key, value) :: rest => key.parts + value.parts + partsEntries rest

end

@[simp] theorem parts_array (items : List Value) :
    (Value.array items).parts = 1 + (items.map parts).sum := by
  have hitems : partsItems items = (items.map parts).sum := by
    induction items with
    | nil => rfl
    | cons v items ih => rw [partsItems, ih, List.map_cons, List.sum_cons]
  rw [parts, hitems]

@[simp] theorem parts_hash (entries : List Entry) :
    (Value.hash entries).parts = 1 + (entries.map fun e => e.2.1.parts + e.2.2.parts).sum := by
  have hentries : partsEntries entries = (entries.map fun e => e.2.1.parts + e.2.2.parts).sum := by
    induction entries with
    | nil => rfl
    | cons e entries ih => rw [partsEntries, ih, List.map_cons, List.sum_cons]
  rw [parts, hentries]

theorem parts_pos (v : Value) : 1 ≤ v.parts := by
  cases v with
  | array items => simp
  | hash entries => simp
  | _ => exact Nat.le_refl 1

theorem length_le_sum_parts (items : List Value) : items.length ≤ (items.map parts).sum := by
  have hle := List.length_le_sum_of_one_le (items.map parts) fun n hn => by
    obtain ⟨v, -, rfl⟩ := List.mem_map.1 hn
    exact v.parts_pos
  rwa [List.length_map] at hle

/-- The parts of all keys and values. -/
def sumParts (entries : List Entry) : Nat := (entries.map fun e => e.2.1.parts + e.2.2.parts).sum

theorem parts_file {entries : List Entry} (h : Entry.Distinct entries) :
    (Value.hash (Entry.file entries)).parts = 1 + sumParts entries := by
  rw [parts_hash, Entry.file_of_distinct h]
  exact congrArg (1 + ·) ((List.mergeSort_perm _ _).map _).sum_eq

theorem sumParts_perm {entries entries' : List Entry} (h : entries.Perm entries') :
    sumParts entries = sumParts entries' :=
  (h.map _).sum_eq

theorem length_le_sumParts (entries : List Entry) : entries.length ≤ sumParts entries := by
  have hle := List.length_le_sum_of_one_le (entries.map fun e => e.2.1.parts + e.2.2.parts)
    fun n hn => by
      obtain ⟨e, -, rfl⟩ := List.mem_map.1 hn
      exact Nat.le_trans e.2.1.parts_pos (Nat.le_add_right _ _)
  rwa [List.length_map] at hle

end Value

/-! ### Constants -/

namespace Compile

variable {α β : Type} {x : Compile α} {f : α → Compile β} {n k : Nat}

/-- The fault is that a number does not fit in an operand. -/
def Overflow (e : CompileError) : Prop := ∃ what, e.cause = .operandOverflow what

/-- The compilation adds `n` constants at most. It does not fail if there is room for that many. -/
def Adds (x : Compile α) (n : Nat) : Prop := ∀ c,
  Sat x c (fun _ c' => c'.constants.size ≤ c.constants.size + n)
    fun e _ => Overflow e ∧ maxOperand 2 + 1 < c.constants.size + n

theorem Adds.mono (h : Adds x n) (hle : n ≤ k) : Adds x k := by
  intro c
  refine (h c).mono (fun _ c' hc => ?_) fun e c' hc => ⟨hc.1, ?_⟩
  · exact Nat.le_trans hc (Nat.add_le_add_left hle _)
  · exact Nat.lt_of_lt_of_le hc.2 (Nat.add_le_add_left hle _)

theorem Adds.bind (hx : Adds x n) (hf : ∀ a, Adds (f a) k) : Adds (x >>= f) (n + k) := by
  intro c
  refine (hx c).bind (fun a c₁ hxc => (hf a c₁).mono ?_ ?_) fun e c₁ hxc => ⟨hxc.1, by omega⟩
  · intro _ c₂ hfc
    omega
  · rintro e c₂ ⟨hover, hfc⟩
    exact ⟨hover, by omega⟩

theorem Adds.pure (a : α) : Adds (Pure.pure a : Compile α) 0 := fun _ => Nat.le_refl _

theorem adds_emit (op : Opcode) (operands : List Nat) : Adds (emit op operands) 0 :=
  fun _ => Nat.le_refl _

/-- A constant has the number of those before it. -/
theorem adds_constant (pos : Pos) (make : Nat → Value) : Adds (constant pos make) 1 := by
  intro c
  refine .step rfl (.step rfl (.check ?_ fun hover => ⟨⟨_, rfl⟩, Nat.succ_lt_succ hover⟩))
  refine Nat.le_of_eq ?_
  rw [Compiler.constants_addConstant, Array.size_push]

/-- A number of things fits in an operand if there is room for each of them. -/
theorem Adds.check (pos : Pos) (what : Quantity) (hk : k < n) (hx : Adds x n) :
    Adds (check pos k 2 what >>= fun _ => x) n := by
  unfold Compile.check
  split
  · exact hx
  · intro c
    exact ⟨⟨what, rfl⟩, by omega⟩

theorem adds_items {items : List (Expr × Value)} (h : ∀ p ∈ items, Adds p.1.compile p.2.parts) :
    Adds (compileItems (items.map (·.1))) ((items.map (·.2)).map Value.parts).sum := by
  induction items with
  | nil => exact .pure _
  | cons p items ih =>
    obtain ⟨hp, hitems⟩ := List.forall_mem_cons.1 h
    exact .bind hp fun _ => ih hitems

theorem adds_runAll {pairs : List ((Expr × Expr) × Entry)}
    (hkeys : ∀ p ∈ pairs, Adds p.1.1.compile p.2.2.1.parts)
    (hvalues : ∀ p ∈ pairs, Adds p.1.2.compile p.2.2.2.parts) :
    Adds (runAll ((pairs.map (·.1)).map fun p => (p.1.render, do p.1.compile; p.2.compile)))
      (Value.sumParts (pairs.map (·.2))) := by
  induction pairs with
  | nil => exact .pure _
  | cons p pairs ih =>
    obtain ⟨hkey, hkeys⟩ := List.forall_mem_cons.1 hkeys
    obtain ⟨hvalue, hvalues⟩ := List.forall_mem_cons.1 hvalues
    exact .bind (.bind hkey fun _ => hvalue) fun _ => ih hkeys hvalues

end Compile

namespace Expr

variable {e : Expr} {v : Value}

theorem Builds.renderable (h : e.Builds v) : e.renderable = true := by
  induction h with
  | int | bool => rfl
  | neg _ _ ih => exact ih
  | array _ _ ih =>
    refine Parse.renderableItems_iff.2 fun e he => ?_
    obtain ⟨p, hp, rfl⟩ := List.mem_map.1 he
    exact ih p hp
  | hash _ _ _ _ _ ihkeys ihvalues =>
    refine Parse.renderablePairs_iff.2 fun q hq => ?_
    obtain ⟨p, hp, rfl⟩ := List.mem_map.1 hq
    exact ⟨ihkeys p hp, ihvalues p hp⟩

open Compile in
/-- A literal is compiled if there is room for a constant for each of its parts. -/
theorem Builds.adds (h : e.Builds v) : Adds e.compile v.parts := by
  induction h with
  | int => exact .bind (adds_constant _ _) fun _ => adds_emit _ _
  | neg _ _ ih => exact .bind ih fun _ => adds_emit _ _
  | bool => exact fun _ => Nat.le_add_right _ _
  | @array loc items _ ih =>
    have hlength := Value.length_le_sum_parts (items.map (·.2))
    rw [List.length_map] at hlength
    rw [Expr.compile, Value.parts_array, List.length_map]
    refine .check _ _ (by omega) ?_
    exact (Adds.bind (adds_items ih) fun _ => adds_emit _ _).mono (Nat.le_add_left _ _)
  | @hash loc pairs _ hkeys _ hdistinct ihkeys ihvalues =>
    obtain ⟨sorted, hperm, hsorted⟩ := Expr.exists_inOrder pairs
    have hsum := Value.sumParts_perm (hperm.map (·.2))
    have hlength := Value.length_le_sumParts (pairs.map (·.2))
    rw [List.length_map] at hlength
    have hordered : ¬(2 ≤ pairs.length ∧
        (pairs.map (·.1)).any (fun p => !p.1.renderable) = true) := by
      rintro ⟨-, hany⟩
      obtain ⟨q, hq, hhole⟩ := List.any_eq_true.1 hany
      obtain ⟨p, hp, rfl⟩ := List.mem_map.1 hq
      simp [(hkeys p hp).renderable] at hhole
    have hpairs := adds_runAll (fun p hp => ihkeys p (hperm.subset hp)) fun p hp =>
      ihvalues p (hperm.subset hp)
    rw [hsum, ← hsorted, ← Expr.mergeSort_keyed] at hpairs
    rw [Expr.compile, Value.parts_file hdistinct, List.length_map]
    refine .check _ _ (by omega) ?_
    rw [if_neg hordered, compilePairs_eq, List.reverse_nil, List.nil_append]
    exact (Adds.bind hpairs fun _ => adds_emit _ _).mono (Nat.le_add_left _ _)

end Expr

/-! ### The height of the stack -/

namespace Instr

/-- How far the instructions raise the stack, if what others take is not counted. -/
def climb (is : List Instr) : Nat := (is.map fun i => i.gives - i.takes).sum

@[simp] theorem climb_append (is js : List Instr) : climb (is ++ js) = climb is + climb js := by
  rw [climb, List.map_append, List.sum_append]
  rfl

@[simp] theorem climb_singleton (i : Instr) : climb [i] = i.gives - i.takes := by
  rw [climb, List.map_singleton, List.sum_singleton]

/-- More of the same instructions raise the stack at least as far. -/
theorem climb_le_of_bytes {is s t : List Instr} (hs : s <+: is) (ht : t <+: is)
    (h : bytes s ≤ bytes t) : climb s ≤ climb t := by
  obtain ⟨u, rfl⟩ | ⟨u, rfl⟩ := List.prefix_or_prefix_of_prefix hs ht
  · rw [climb_append]
    exact Nat.le_add_right _ _
  · cases u with
    | nil => exact Nat.le_of_eq (by rw [List.append_nil])
    | cons i u =>
      have hsize := Opcode.size_pos i.op
      simp only [bytes_append, bytes_cons] at h
      omega

end Instr

open Instr in
/-- Where the code goes on, the stack is no higher than the instructions before that place raise
it. -/
theorem Code.Laid.goes_le {code : Code} {is before : List Instr} {a b : Nat × Nat}
    (h : code.Laid is) (hbefore : before <+: is) (ha : a.1 = bytes before)
    (hle : a.2 ≤ climb before) (hgoes : code.Goes a b) :
    ∃ before', before' <+: is ∧ b.1 = bytes before' ∧ b.2 ≤ climb before' := by
  obtain ⟨depth, -, -, hflow⟩ := h.settled
  cases hgoes with
  | @falls o d i hi hfalls htakes =>
    obtain ⟨s, u, his, ho⟩ := h.mem_walk.1 hi
    have hclimb := climb_le_of_bytes hbefore ⟨i :: u, his.symm⟩ (Nat.le_of_eq (ha.symm.trans ho))
    refine ⟨s ++ [i], ⟨u, by simp [his]⟩, by simp [ho], ?_⟩
    rw [climb_append, climb_singleton]
    simp only at hle ⊢
    omega
  | @jumps o d t i hi ht htakes =>
    obtain ⟨s, u, his, ho⟩ := h.mem_walk.1 hi
    obtain ⟨hlt, ⟨s', j, u', his', ht'⟩, -⟩ := (hflow s i u his).jumps t ht
    rw [Nat.zero_add] at hlt ht'
    have hclimb := climb_le_of_bytes hbefore ⟨j :: u', his'.symm⟩ (by simp only at ha; omega)
    refine ⟨s', ⟨j :: u', his'.symm⟩, ht', ?_⟩
    simp only at hle ⊢
    omega

open Instr in
/-- The stack is never higher than the code raises it. -/
theorem Code.Laid.reaches_le {code : Code} {is : List Instr} {o d : Nat} (h : code.Laid is)
    (hreaches : code.Reaches o d) : d ≤ climb is := by
  -- The induction is on the path; what is before the offset bounds the height there.
  suffices hpath : ∀ b, code.Path (0, 0) b →
      ∃ before, before <+: is ∧ b.1 = bytes before ∧ b.2 ≤ climb before by
    obtain ⟨before, ⟨after, rfl⟩, -, hle⟩ := hpath _ hreaches
    rw [climb_append]
    exact Nat.le_trans hle (Nat.le_add_right _ _)
  intro b hb
  induction hb with
  | refl => exact ⟨[], List.nil_prefix, rfl, Nat.zero_le _⟩
  | tail _ hgoes ih =>
    obtain ⟨before, hbefore, hoffset, hle⟩ := ih
    exact h.goes_le hbefore hoffset hle hgoes

/-! ### Literals -/

namespace Emission

variable {p q : Emission} {n k : Nat}

/-- What is emitted raises the stack by `n` at most, and adds no function to the constants. -/
def Climbs (p : Emission) (n : Nat) : Prop := ∀ offset σ is τ, p offset σ is τ →
  Instr.climb is ≤ n ∧ ∀ f, .function f ∈ τ.constants → .function f ∈ σ.constants

theorem climbs_one (i : Instr) (h : i.gives - i.takes ≤ n) : (one i).Climbs n := by
  rintro offset σ _ _ ⟨rfl, rfl⟩
  exact ⟨by rwa [Instr.climb_singleton], fun _ => id⟩

theorem climbs_const (k : Int64) : (const (.int k)).Climbs 1 := by
  rintro offset σ _ _ ⟨-, rfl, rfl⟩
  refine ⟨by rw [Instr.climb_singleton]; exact Nat.le_refl 1, fun f hf => ?_⟩
  obtain hf | hf := Array.mem_push.1 hf
  · exact hf
  · cases hf

theorem Climbs.seq (hp : p.Climbs n) (hq : q.Climbs k) : (p.seq q).Climbs (n + k) := by
  rintro offset σ _ τ ⟨s, σ', t, hs, ht, rfl⟩
  obtain ⟨hclimb, hfunctions⟩ := hp _ _ _ _ hs
  obtain ⟨hclimb', hfunctions'⟩ := hq _ _ _ _ ht
  refine ⟨?_, fun f hf => hfunctions f (hfunctions' f hf)⟩
  rw [Instr.climb_append]
  exact Nat.add_le_add hclimb hclimb'

theorem climbs_nothing : nothing.Climbs 0 := by
  rintro offset σ _ _ ⟨rfl, rfl⟩
  exact ⟨Nat.le_refl 0, fun _ => id⟩

theorem Climbs.given {P : Prop} (h : p.Climbs n) : (given P p).Climbs n := by
  rintro offset σ is τ ⟨-, hp⟩
  exact h offset σ is τ hp

theorem climbs_all {α : Type} {xs : List α} {emits : α → Emission} {size : α → Nat}
    (h : ∀ x ∈ xs, (emits x).Climbs (size x)) : (all (xs.map emits)).Climbs (xs.map size).sum := by
  induction xs with
  | nil => exact climbs_nothing
  | cons x xs ih =>
    obtain ⟨hx, hxs⟩ := List.forall_mem_cons.1 h
    exact hx.seq (ih hxs)

end Emission

open Emission in
/-- The code of a literal raises the stack by its parts at most. -/
theorem Expr.Builds.climbs {e : Expr} {v : Value} (h : e.Builds v) : e.Emits.Climbs v.parts := by
  induction h with
  | int _ _ n => exact climbs_const n
  | bool _ b => exact climbs_one _ (by cases b <;> decide)
  | neg _ _ ih =>
    refine Climbs.seq (k := 0) ih ?_
    rintro offset σ _ _ ⟨code, hcode, rfl, rfl⟩
    cases hcode
    exact ⟨Nat.le_refl 0, fun _ => id⟩
  | @array loc items _ ih =>
    rw [Expr.Emits, Value.parts_array, emitsItems_eq, List.map_map, List.map_map, Nat.add_comm]
    exact .given ((climbs_all ih).seq (climbs_one _ (Nat.sub_le _ _)))
  | @hash loc pairs _ _ _ hdistinct ihkeys ihvalues =>
    obtain ⟨sorted, hperm, hsorted⟩ := Expr.exists_inOrder pairs
    rw [Expr.Emits, Value.parts_file hdistinct, ← Value.sumParts_perm (hperm.map (·.2)),
      emitsPairs_inOrder, hsorted, List.map_map, Value.sumParts, List.map_map, Nat.add_comm]
    refine .given ((climbs_all fun p hp => ?_).seq (climbs_one _ (Nat.sub_le _ _)))
    exact (ihkeys p (hperm.subset hp)).seq (ihvalues p (hperm.subset hp))

/-! ### Programs that are literals -/

theorem Program.adds_literal (loc : Loc) {e : Expr} {v : Value} (h : e.Builds v) :
    Compile.Adds (Program.ofBody [.expr loc e]).compile v.parts :=
  .bind (.bind h.adds fun _ => Compile.adds_emit _ _) fun _ => .pure _

theorem Program.climbs_literal (loc : Loc) {e : Expr} {v : Value} (h : e.Builds v) :
    (Program.ofBody [.expr loc e]).Emits.Climbs v.parts :=
  .seq (h.climbs.seq (Emission.climbs_one ⟨.pop, []⟩ (Nat.le_refl 0))) Emission.climbs_nothing

end StackScript
