import Mathlib.Logic.Relation
import StackScript.Proofs.Compile.WellFormed

/-!
# Paths through compiled code

A function executes instructions of its code one after another, whatever it
calls in between. A path follows the offsets and the number of values that are
on the stack above the locals. Jumps go forward, so a path that starts in a
stretch of the code and has not gone past its end is still in it. Hence the
depths of a balanced stretch are those of every path through it, and an offset
is reached from the start of the code with one number of values only.

## Main definitions

* `Code.Path`, `Code.Reaches`: paths from an offset, and from the start.
* `Code.depth`: the number of values with which an offset is reached.
* `Code.Encodes`, `Code.Laid`: the instructions of code, and code that is balanced.

## Main results

* `Code.Laid.path_stretch`: a path through a balanced stretch.
* `Code.Laid.depth_eq`: the depth at an offset does not depend on the path.
-/

namespace StackScript

open Instr

namespace Code

/-- An instruction leads from its offset to the one where the same function goes on, and from the
number of values above the locals to another one. -/
inductive Goes (code : Code) : Nat × Nat → Nat × Nat → Prop
  | falls {o d : Nat} {i : Instr} : (o, .instr i) ∈ code.walk → i.Falls → i.takes ≤ d →
    Goes code (o, d) (o + i.op.size, d - i.takes + i.gives)
  | jumps {o d t : Nat} {i : Instr} : (o, .instr i) ∈ code.walk → i.target? = some t →
    i.takes ≤ d → Goes code (o, d) (t, d - i.takes)

/-- Instructions one after another. -/
def Path (code : Code) : Nat × Nat → Nat × Nat → Prop := Relation.ReflTransGen code.Goes

/-- A path from the start of the code leads to the offset with so many values. -/
def Reaches (code : Code) (o d : Nat) : Prop := code.Path (0, 0) (o, d)

open Classical in
/-- The number of values above the locals at an offset, if a path leads there. -/
noncomputable def depth (code : Code) (o : Nat) : Nat :=
  if h : ∃ d, code.Reaches o d then h.choose else 0

/-- The code is that of the instructions, which fit in it. -/
structure Encodes (code : Code) (is : List Instr) : Prop where
  eq : code = .ofInstrs is
  fits : ∀ i ∈ is, i.Fits

/-- Code of balanced instructions. -/
structure Laid (code : Code) (is : List Instr) : Prop extends Encodes code is where
  settled : Settled 0 is 0 0

theorem eq_of_located {offset : Nat} {is js : List Instr} (h : located offset is = located offset js) :
    is = js := by
  induction is generalizing offset js with
  | nil =>
    cases js with
    | nil => rfl
    | cons j js => cases h
  | cons i is ih =>
    cases js with
    | nil => cases h
    | cons j js =>
      obtain ⟨hhead, hrest⟩ := List.cons.inj h
      obtain rfl : i = j := (Prod.mk.inj hhead).2
      rw [ih hrest]

/-- Code has its instructions only. -/
theorem Encodes.unique {code : Code} {is js : List Instr} (h : code.Encodes is)
    (h' : code.Encodes js) : is = js := by
  have hwalk : (located 0 is).map found = (located 0 js).map found := by
    rw [← walk_ofInstrs h.fits, ← walk_ofInstrs h'.fits, ← h.eq, ← h'.eq]
  have hfound : Function.Injective found := by
    intro a b heq
    obtain ⟨hoffset, hinstr⟩ := Prod.mk.inj heq
    exact Prod.ext hoffset (Fetched.instr.inj hinstr)
  exact eq_of_located (List.map_injective_iff.2 hfound hwalk)

namespace Laid

variable {code : Code} {is js before seg after : List Instr} {i : Instr} {o : Nat}
  {a b : Nat × Nat} {depth : Nat → Nat}

theorem of_encodes (h : code.Laid is) (h' : code.Encodes js) : code.Laid js := by
  rwa [← h.toEncodes.unique h']

theorem mem_walk (h : code.Laid is) :
    (o, .instr i) ∈ code.walk ↔ ∃ before after, is = before ++ i :: after ∧ o = bytes before := by
  rw [h.eq, mem_walk_ofInstrs h.fits]
  constructor
  · rintro ⟨before, j, after, heq, ho, hj⟩
    obtain rfl := Fetched.instr.inj hj
    exact ⟨before, after, heq, ho⟩
  · rintro ⟨before, after, heq, ho⟩
    exact ⟨before, i, after, heq, ho, rfl⟩

/-- There is one instruction at an offset. -/
theorem instr_eq (h : code.Laid is) (hi : (o, .instr i) ∈ code.walk) {j : Instr}
    (his : is = before ++ j :: after) (ho : o = bytes before) : i = j := by
  obtain ⟨before', after', his', ho'⟩ := h.mem_walk.1 hi
  have hfetch := fetch_ofInstrs before after (h.fits j (by simp [his]))
  have hfetch' := fetch_ofInstrs before' after' (h.fits i (by simp [his']))
  rw [← his, ← ho] at hfetch
  rw [← his', ← ho', hfetch] at hfetch'
  exact (Fetched.instr.inj (Option.some.inj hfetch')).symm

/-- Every instruction leads forward. -/
theorem lt_of_goes (h : code.Laid is) (hgoes : code.Goes a b) : a.1 < b.1 := by
  cases hgoes with
  | falls => exact Nat.lt_add_of_pos_right (Opcode.size_pos _)
  | jumps hi ht _ =>
    obtain ⟨before, after, his, rfl⟩ := h.mem_walk.1 hi
    obtain ⟨depth, -, -, hflow⟩ := h.settled
    have hlt := ((hflow before _ after his).jumps _ ht).1
    rwa [Nat.zero_add] at hlt

/-- No instruction leads past the end of the code. -/
theorem le_of_goes (h : code.Laid is) (hgoes : code.Goes a b) : b.1 ≤ bytes is := by
  cases hgoes with
  | falls hi =>
    obtain ⟨before, after, rfl, rfl⟩ := h.mem_walk.1 hi
    simp only [bytes_append, bytes_cons]
    omega
  | jumps hi ht _ =>
    obtain ⟨before, after, his, rfl⟩ := h.mem_walk.1 hi
    obtain ⟨depth, -, -, hflow⟩ := h.settled
    have hland := ((hflow before _ after his).jumps _ ht).2.1.lt
    rw [Nat.zero_add] at hland
    exact Nat.le_of_lt hland

theorem le_of_reaches (h : code.Laid is) {d : Nat} (hd : code.Reaches o d) : o ≤ bytes is := by
  obtain hzero | ⟨a, -, hgoes⟩ := Relation.ReflTransGen.cases_tail hd
  · rw [(Prod.mk.inj hzero).1]
    exact Nat.zero_le _
  · exact h.le_of_goes hgoes

/-! ### Stretches -/

variable (h : code.Laid is) (his : is = before ++ (seg ++ after))
  (hflow : Flowing depth (Lands (bytes before) seg) (bytes before) seg)

include h his hflow

/-- An instruction of a stretch agrees with its depths, and the next one is in it or at its end. -/
theorem flows_stretch (hland : Lands (bytes before) seg o) (hlt : o < bytes before + bytes seg)
    (hi : (o, .instr i) ∈ code.walk) :
    i.Flows depth (Lands (bytes before) seg) o ∧ Lands (bytes before) seg (o + i.op.size) := by
  obtain ⟨s, u, rfl, ho⟩ := hland
  obtain ⟨j, u, rfl⟩ : ∃ j rest, u = j :: rest := by
    cases u with
    | nil =>
      rw [List.append_nil] at hlt
      omega
    | cons j rest => exact ⟨j, rest, rfl⟩
  have hsplit : is = (before ++ s) ++ j :: (u ++ after) := by simp [his]
  obtain rfl := h.instr_eq hi hsplit (by rw [ho, bytes_append])
  have hflows := hflow s i u rfl
  rw [← ho] at hflows
  refine ⟨hflows, s ++ [i], u, by simp, ?_⟩
  simp [ho, Nat.add_assoc]

/-- An instruction of a stretch leads to an instruction of it or to its end. -/
theorem goes_stretch (hland : Lands (bytes before) seg a.1) (hdepth : depth a.1 = a.2)
    (hlt : a.1 < bytes before + bytes seg) (hgoes : code.Goes a b) :
    Lands (bytes before) seg b.1 ∧ depth b.1 = b.2 := by
  cases hgoes with
  | @falls o d i hi hfalls htakes =>
    obtain ⟨hflows, hnext⟩ := h.flows_stretch his hflow hland hlt hi
    exact ⟨hnext, by rw [hflows.falls hfalls, hdepth]⟩
  | @jumps o d t i hi ht htakes =>
    obtain ⟨hflows, -⟩ := h.flows_stretch his hflow hland hlt hi
    obtain ⟨-, hland, hd⟩ := hflows.jumps t ht
    exact ⟨hland, by rw [hd, hdepth]⟩

/-- A path that starts in a stretch and has not left it has the depths of the stretch. -/
theorem path_stretch (hland : Lands (bytes before) seg a.1) (hdepth : depth a.1 = a.2)
    (hpath : code.Path a b) (hle : b.1 ≤ bytes before + bytes seg) :
    Lands (bytes before) seg b.1 ∧ depth b.1 = b.2 := by
  induction hpath with
  | refl => exact ⟨hland, hdepth⟩
  | tail _ hgoes ih =>
    have hlt := h.lt_of_goes hgoes
    obtain ⟨hland', hdepth'⟩ := ih (by omega)
    exact h.goes_stretch his hflow hland' hdepth' (by omega) hgoes

/-! ### Depths -/

omit his hflow

/-- A path from the start of a balanced stretch to its end. -/
theorem path_balanced {d d' : Nat} (his : is = before ++ (seg ++ after)) {n : Nat}
    (hbalanced : Balanced (bytes before) seg d (d + n))
    (hpath : code.Path (bytes before, d) (bytes before + bytes seg, d')) : d' = d + n := by
  obtain ⟨depth, hstart, hend, hflow⟩ := hbalanced
  have hd' : depth (bytes before + bytes seg) = d' :=
    (h.path_stretch his hflow (a := (bytes before, d)) ⟨[], seg, rfl, rfl⟩ hstart hpath
      (Nat.le_refl _)).2
  rw [← hd', hend]

theorem reaches_unique {d d' : Nat} (hd : code.Reaches o d) (hd' : code.Reaches o d') : d = d' := by
  obtain ⟨depth, hstart, -, hflow⟩ := h.settled.balanced
  have his : is = [] ++ (is ++ []) := by simp
  have hdepth {d : Nat} (hd : code.Reaches o d) : depth o = d :=
    (h.path_stretch his hflow ⟨[], is, rfl, rfl⟩ hstart hd
      (Nat.le_trans (h.le_of_reaches hd) (Nat.le_add_left _ _))).2
  rw [← hdepth hd, hdepth hd']

theorem reaches_end {d : Nat} (hd : code.Reaches (bytes is) d) : d = 0 := by
  have his : is = [] ++ (is ++ []) := by simp
  have hpath : code.Path (bytes [], 0) (bytes [] + bytes is, d) := by
    rw [bytes_nil, Nat.zero_add]
    exact hd
  have hbalanced : Balanced (bytes []) is 0 (0 + 0) := h.settled.balanced
  exact h.path_balanced his hbalanced hpath

theorem depth_eq {d : Nat} (hd : code.Reaches o d) : code.depth o = d := by
  have hex : ∃ d, code.Reaches o d := ⟨d, hd⟩
  rw [Code.depth, dif_pos hex]
  exact h.reaches_unique hex.choose_spec hd

end Laid

end Code

end StackScript
