import StackScript.Builtin
import StackScript.Symbol

/-!
# Tables that share their surroundings

Several tables may lie inside the same one, and a name that is resolved in one
of them is captured in tables that the others see too. A forest holds all tables
under numbers, each with the number of the table around it, which is smaller.
-/

namespace StackScript

/-- The table of a program that has no names but those of the builtin functions. -/
def Table.global : Table :=
  Builtin.all.foldl (fun t b => (t.defineBuiltin b.slot b.name).2) (.empty false)

/-- A table with the number of the table around it. -/
structure Forest.Node where
  table : Table
  outer : Option Nat
  deriving Inhabited

/-- All tables, by number. -/
abbrev Forest := Array Forest.Node

namespace Forest

/-- The table with a number, and a table without names if there is none. -/
def node (f : Forest) (i : Nat) : Node := f[i]?.getD default

/-- Add a table and yield its number. -/
def add (f : Forest) (n : Node) : Nat × Forest := (f.size, f.push n)

/-- Add a table inside another one. -/
def enclose (f : Forest) (i : Nat) : Nat × Forest := f.add ⟨.empty true, some i⟩

/-- Add a copy of a table. The copy lies in the same table. -/
def clone (f : Forest) (i : Nat) : Nat × Forest := f.add (f.node i)

/-- The numbers of a table and of those around it, from the inside out. -/
def chain (f : Forest) (i : Nat) : List Nat :=
  match f[i]? with
  | none => []
  | some n =>
    match n.outer with
    | none => [i]
    | some o => if o < i then i :: chain f o else [i]
termination_by i

/-- Replace a table. -/
def set (f : Forest) (i : Nat) (t : Table) : Forest := f.modify i fun n => { n with table := t }

/-- Change a table by an operation that yields a place. -/
def update (f : Forest) (i : Nat) (op : Table → Place × Table) : Place × Forest :=
  let (place, t) := op (f.node i).table
  (place, f.set i t)

/-- Replace several tables. -/
def setAll (f : Forest) (pairs : List (Nat × Table)) : Forest :=
  pairs.foldl (fun f (j, t) => f.set j t) f

/-- The place of a name seen from a table, and the captures that this needs. -/
def resolve (f : Forest) (i : Nat) (name : Bytes) : Option (Place × Forest) :=
  let numbers := f.chain i
  match StackScript.resolve name (numbers.map fun j => (f.node j).table) with
  | none => none
  | some (place, tables) => some (place, f.setAll (numbers.zip tables))

/-! ### Chains -/

/-- The chain of a table depends on what lies around it and those before it only. -/
theorem chain_congr {f g : Forest} {j : Nat}
    (h : ∀ i ≤ j, g[i]?.map Node.outer = f[i]?.map Node.outer) : g.chain j = f.chain j := by
  induction j using Nat.strongRecOn with
  | ind j ih =>
    have hj := h j (Nat.le_refl j)
    rw [chain, chain]
    cases hf : f[j]? with
    | none =>
      rw [hf] at hj
      rw [Option.map_eq_none_iff.1 hj]
    | some n =>
      rw [hf] at hj
      obtain ⟨m, hg, hm⟩ := Option.map_eq_some_iff.1 hj
      rw [hg]
      simp only [hm]
      split
      · rfl
      · next o _ =>
        split
        · next ho => rw [ih o ho fun i hi => h i (Nat.le_trans hi (Nat.le_of_lt ho))]
        · rfl

theorem chain_set (f : Forest) (i : Nat) (t : Table) (j : Nat) :
    (f.set i t).chain j = f.chain j := by
  refine chain_congr fun k _ => ?_
  rw [set, Array.getElem?_modify]
  split
  · rw [Option.map_map]
    rfl
  · rfl

theorem chain_update (f : Forest) (i : Nat) (op : Table → Place × Table) (j : Nat) :
    (f.update i op).2.chain j = f.chain j :=
  f.chain_set i _ j

theorem chain_setAll (f : Forest) (pairs : List (Nat × Table)) (j : Nat) :
    (f.setAll pairs).chain j = f.chain j := by
  induction pairs generalizing f with
  | nil => rfl
  | cons pair pairs ih => exact (ih _).trans (f.chain_set pair.1 pair.2 j)

theorem chain_resolve {f g : Forest} {i : Nat} {name : Bytes} {place : Place}
    (h : f.resolve i name = some (place, g)) (j : Nat) : g.chain j = f.chain j := by
  simp only [resolve] at h
  split at h
  · cases h
  · cases h
    exact chain_setAll _ _ j

theorem chain_push (f : Forest) (n : Node) {j : Nat} (hj : j < f.size) :
    chain (f.push n) j = f.chain j := by
  refine chain_congr fun i hi => ?_
  rw [Array.getElem?_push, if_neg (Nat.ne_of_lt (Nat.lt_of_le_of_lt hi hj))]

theorem lt_size_of_chain {f : Forest} {i : Nat} {is : List Nat} (h : f.chain i = i :: is) :
    i < f.size := by
  by_cases hi : i < f.size
  · exact hi
  · rw [chain, Array.getElem?_eq_none (Nat.not_lt.1 hi)] at h
    cases h

/-- The chain of a table that is put inside another one. -/
theorem chain_enclose {f : Forest} {i : Nat} (hi : i < f.size) :
    (f.enclose i).2.chain (f.enclose i).1 = (f.enclose i).1 :: f.chain i := by
  change chain (f.push ⟨.empty true, some i⟩) f.size = f.size :: f.chain i
  rw [chain, Array.getElem?_push_size]
  simp [hi, chain_push]

/-- The chain of a copy of a table that lies in no other one. -/
theorem chain_clone {f : Forest} {i : Nat} (hi : (f.node i).outer = none) :
    (f.clone i).2.chain (f.clone i).1 = [(f.clone i).1] := by
  change chain (f.push (f.node i)) f.size = [f.size]
  rw [chain, Array.getElem?_push_size]
  simp [hi]

/-- The chain of the next table outside. -/
theorem chain_tail {f : Forest} {i j : Nat} {is : List Nat} (h : f.chain i = i :: j :: is) :
    f.chain j = j :: is := by
  rw [chain] at h
  split at h
  · cases h
  · split at h
    · cases h
    · next o _ =>
      split at h
      · have htail : f.chain o = j :: is := (List.cons.inj h).2
        have hhead : o = j := by
          rw [chain] at htail
          split at htail
          · cases htail
          · split at htail
            · exact (List.cons.inj htail).1
            · split at htail <;> exact (List.cons.inj htail).1
        rwa [hhead] at htail
      · cases h

end Forest

end StackScript
