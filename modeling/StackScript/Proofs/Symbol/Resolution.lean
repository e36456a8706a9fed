import StackScript.Proofs.Symbol.Chain

/-!
# Resolving a name in a forest

Tables are added to a forest and changed in it. Whatever has been done, each
table lies in one with a smaller number, so that the tables around a table form a
chain. A name is resolved to what the innermost table of the chain that has it
says. If this is a variable of a function, every table on the way gets the name
as one more captured value, and nothing else is changed.

## Main definitions

* `Table.CapturesOne`: a table with one more captured value.
* `Relayed`: a place is handed on from table to table.
* `Forest.Grown`: the forests that the operations on tables lead to.
* `Forest.ancestor`: the tables around a table.
* `Forest.FoundAt`: the innermost table that has a name.

## Main results

* `resolve_relays`: resolving a name in a list of tables.
* `Forest.Grown.nested`: each table lies in one with a smaller number.
* `Forest.resolve_along_chain`: resolving a name in a forest.
-/

namespace StackScript

/-! ### Lists of tables -/

/-- The second table has captured one more value, which has the given place in the next table
outside. It is bound to the name there, and all else is as in the first table. -/
structure Table.CapturesOne (name : Bytes) (outside : Place) (t u : Table) : Prop where
  enclosed : u.enclosed = t.enclosed
  definitions : u.definitions = t.definitions
  free : u.free = t.free.push ⟨name, outside⟩
  find? : ∀ x, u.find? x = if name = x then some (.free t.free.size) else t.find? x

theorem Table.capturesOne_capture (t : Table) (name : Bytes) (outside : Place) :
    t.CapturesOne name outside (t.capture ⟨name, outside⟩).2 :=
  ⟨rfl, rfl, rfl, t.capture_find? ⟨name, outside⟩⟩

/-- The place where a name was found is handed on inwards from table to table. Each captures what
the next one outside has, and the last place is that in the innermost table. -/
inductive Relayed (name : Bytes) (found : Place) : Place → List Table → List Table → Prop
  | here : Relayed name found found [] []
  | inward {p : Place} {t u : Table} {ts us : List Table} : Relayed name found p ts us →
    t.CapturesOne name p u → Relayed name found (.free t.free.size) (t :: ts) (u :: us)

namespace Relayed

variable {name : Bytes} {found p : Place} {ts us : List Table}

theorem length_eq (h : Relayed name found p ts us) : us.length = ts.length := by
  induction h with
  | here => rfl
  | inward _ _ ih => rw [List.length_cons, List.length_cons, ih]

theorem isShared_eq (h : Relayed name found p ts us) (hfound : found.isShared = false) :
    p.isShared = false := by
  cases h with
  | here => exact hfound
  | inward => rfl

theorem place_eq {t : Table} (h : Relayed name found p (t :: ts) us) : p = .free t.free.size := by
  cases h with
  | inward => rfl

/-- Each table has captured the place that the name has in the next one. -/
theorem captures (h : Relayed name found p ts us) {owner : Table}
    (howner : owner.find? name = some found) (outer : List Table) :
    (∃ u rest, us ++ owner :: outer = u :: rest ∧ u.find? name = some p) ∧
      ∀ j t, ts[j]? = some t → ∃ u v q, (us ++ owner :: outer)[j]? = some u ∧
        (us ++ owner :: outer)[j + 1]? = some v ∧ v.find? name = some q ∧
        t.CapturesOne name q u := by
  induction h with
  | here => exact ⟨⟨owner, outer, rfl, howner⟩, nofun⟩
  | @inward p t u ts us _ hcaptures ih =>
    obtain ⟨⟨v, rest, hnext, hv⟩, hrest⟩ := ih
    refine ⟨⟨u, us ++ owner :: outer, rfl, ?_⟩, fun j t' hj => ?_⟩
    · rw [hcaptures.find?, if_pos rfl]
    · cases j with
      | zero =>
        obtain rfl : t = t' := by simpa using hj
        exact ⟨u, v, p, rfl, by simp [hnext], hv, hcaptures⟩
      | succ j => exact hrest j t' (by simpa using hj)

end Relayed

section Resolve

variable {name : Bytes} {found : Place} {owner : Table} {inner : List Table}

theorem resolve_none {ts : List Table} (h : ∀ t ∈ ts, t.find? name = none) :
    resolve name ts = none := by
  induction ts with
  | nil => rfl
  | cons t ts ih =>
    obtain ⟨ht, hts⟩ := List.forall_mem_cons.1 h
    rw [resolve, ht]
    simp only [ih hts]

/-- A place that all functions share is not captured. -/
theorem resolve_shared (hinner : ∀ t ∈ inner, t.find? name = none)
    (howner : owner.find? name = some found) (hshared : found.isShared = true)
    (outer : List Table) :
    resolve name (inner ++ owner :: outer) = some (found, inner ++ owner :: outer) := by
  induction inner with
  | nil => simp only [List.nil_append, resolve, howner]
  | cons t inner ih =>
    obtain ⟨ht, hinner⟩ := List.forall_mem_cons.1 hinner
    rw [List.cons_append, resolve, ht]
    simp only [ih hinner, hshared, if_true]

/-- Any other place is handed on through all tables before the one where it was found. -/
theorem resolve_relays (hinner : ∀ t ∈ inner, t.find? name = none)
    (howner : owner.find? name = some found) (hshared : found.isShared = false)
    (outer : List Table) :
    ∃ p us, resolve name (inner ++ owner :: outer) = some (p, us ++ owner :: outer) ∧
      Relayed name found p inner us := by
  induction inner with
  | nil => exact ⟨found, [], by simp only [List.nil_append, resolve, howner], .here⟩
  | cons t inner ih =>
    obtain ⟨ht, hinner⟩ := List.forall_mem_cons.1 hinner
    -- The tables further out have captured the name before this one does.
    obtain ⟨p, us, hresolve, hrelayed⟩ := ih hinner
    refine ⟨_, _ :: us, ?_, .inward hrelayed (t.capturesOne_capture name p)⟩
    rw [List.cons_append, resolve, ht]
    simp only [hresolve, hrelayed.isShared_eq hshared]
    rfl

end Resolve

/-! ### Forests -/

namespace Forest

variable {f g : Forest} {i j k n o : Nat} {name : Bytes}

/-- The forests that the operations on tables lead to, from the empty one. -/
inductive Grown : Forest → Prop
  | empty : Grown #[]
  | new {f : Forest} : Grown f → Grown (f.add ⟨.empty false, none⟩).2
  | global {f : Forest} : Grown f → Grown (f.add ⟨.global, none⟩).2
  | enclose {f : Forest} {i : Nat} : Grown f → i < f.size → Grown (f.enclose i).2
  | clone {f : Forest} {i : Nat} : Grown f → i < f.size → Grown (f.clone i).2
  | define {f : Forest} (i : Nat) (name : Bytes) : Grown f →
    Grown (f.update i fun t => t.define name).2
  | builtin {f : Forest} (i : Nat) (slot : Int) (name : Bytes) : Grown f →
    Grown (f.update i fun t => t.defineBuiltin slot name).2
  | function {f : Forest} (i : Nat) (name : Bytes) : Grown f →
    Grown (f.update i fun t => t.defineSelf name).2
  | resolve {f g : Forest} {i : Nat} {name : Bytes} {p : Place} : Grown f →
    f.resolve i name = some (p, g) → Grown g

/-- The number of the table that is so many tables further out. -/
def ancestor (f : Forest) : Nat → Nat → Option Nat
  | i, 0 => some i
  | i, k + 1 => (f.node i).outer.bind fun o => ancestor f o k

/-- Each table lies in one with a smaller number. -/
def Nested (f : Forest) : Prop := ∀ i o, (f.node i).outer = some o → o < i

/-! ### Changing tables -/

theorem size_set (f : Forest) (i : Nat) (t : Table) : (f.set i t).size = f.size := by
  rw [set, Array.size_modify]

theorem node_of_lt (h : n < f.size) : f[n]? = some (f.node n) := by
  rw [node, Array.getElem?_eq_getElem h, Option.getD_some]

theorem node_of_not_lt (h : ¬n < f.size) : f.node n = default := by
  rw [node, Array.getElem?_eq_none (Nat.not_lt.1 h), Option.getD_none]

/-- A forest is known by its tables. -/
theorem ext (hsize : g.size = f.size) (h : ∀ n, g.node n = f.node n) : g = f := by
  apply Array.ext_getElem?
  intro n
  by_cases hn : n < f.size
  · rw [node_of_lt hn, node_of_lt (hsize ▸ hn), h]
  · rw [Array.getElem?_eq_none (Nat.not_lt.1 hn), Array.getElem?_eq_none (by omega)]

theorem node_set (f : Forest) (i : Nat) (t : Table) (n : Nat) :
    (f.set i t).node n = if i = n ∧ n < f.size then ⟨t, (f.node n).outer⟩ else f.node n := by
  by_cases hn : n < f.size
  · simp only [node, set, Array.getElem?_modify, Array.getElem?_eq_getElem hn, hn, and_true]
    split <;> rfl
  · rw [if_neg (fun h => hn h.2), node_of_not_lt hn, node_of_not_lt (by rwa [size_set])]

theorem outer_set (f : Forest) (i : Nat) (t : Table) (n : Nat) :
    ((f.set i t).node n).outer = (f.node n).outer := by
  rw [node_set]
  split <;> rfl

theorem setAll_cons (f : Forest) (i : Nat) (t : Table) (pairs : List (Nat × Table)) :
    f.setAll ((i, t) :: pairs) = (f.set i t).setAll pairs := rfl

theorem size_setAll (f : Forest) (pairs : List (Nat × Table)) : (f.setAll pairs).size = f.size := by
  induction pairs generalizing f with
  | nil => rfl
  | cons pair pairs ih => rw [setAll_cons, ih, size_set]

theorem outer_setAll (f : Forest) (pairs : List (Nat × Table)) (n : Nat) :
    ((f.setAll pairs).node n).outer = (f.node n).outer := by
  induction pairs generalizing f with
  | nil => rfl
  | cons pair pairs ih => rw [setAll_cons, ih, outer_set]

theorem node_setAll_of_not_mem {pairs : List (Nat × Table)} (h : ∀ pair ∈ pairs, pair.1 ≠ n) :
    (f.setAll pairs).node n = f.node n := by
  induction pairs generalizing f with
  | nil => rfl
  | cons pair pairs ih =>
    obtain ⟨hpair, hpairs⟩ := List.forall_mem_cons.1 h
    rw [setAll_cons, ih hpairs, node_set, if_neg fun hn => hpair hn.1]

/-- If each table is replaced once, it is what it was replaced by. -/
theorem table_setAll {pairs : List (Nat × Table)} (hnodup : (pairs.map (·.1)).Nodup) {t : Table}
    (hpair : (n, t) ∈ pairs) (hn : n < f.size) : ((f.setAll pairs).node n).table = t := by
  induction pairs generalizing f with
  | nil => cases hpair
  | cons pair pairs ih =>
    obtain ⟨hfresh, hnodup⟩ := List.nodup_cons.1 hnodup
    rw [setAll_cons]
    obtain rfl | hpair := List.mem_cons.1 hpair
    · rw [node_setAll_of_not_mem, node_set, if_pos ⟨rfl, hn⟩]
      rintro pair hmem rfl
      exact hfresh (List.mem_map.2 ⟨pair, hmem, rfl⟩)
    · exact ih hnodup hpair (by rwa [size_set])

/-! ### The chain of a table -/

theorem le_of_mem_chain (h : n ∈ f.chain i) : n ≤ i := by
  fun_induction chain f i with
  | case1 => cases h
  | case2 i | case4 i => exact Nat.le_of_eq (List.mem_singleton.1 h)
  | case3 i _ _ o _ ho ih =>
    obtain rfl | h := List.mem_cons.1 h
    · exact Nat.le_refl n
    · exact Nat.le_trans (ih h) (Nat.le_of_lt ho)

/-- No table lies in itself. -/
theorem nodup_chain (f : Forest) (i : Nat) : (f.chain i).Nodup := by
  fun_induction chain f i with
  | case1 => exact List.nodup_nil
  | case2 i | case4 i => exact List.pairwise_singleton _ i
  | case3 i _ _ o _ ho ih =>
    exact List.nodup_cons.2 ⟨fun hmem => Nat.not_le.2 ho (le_of_mem_chain hmem), ih⟩

theorem lt_of_mem_chain (h : n ∈ f.chain i) : n < f.size := by
  fun_induction chain f i with
  | case1 => cases h
  | case2 i _ hi | case4 i _ hi =>
    obtain rfl := List.mem_singleton.1 h
    exact (Array.getElem?_eq_some_iff.1 hi).1
  | case3 i _ hi o _ _ ih =>
    obtain rfl | h := List.mem_cons.1 h
    · exact (Array.getElem?_eq_some_iff.1 hi).1
    · exact ih h

/-! ### Growing -/

theorem Nested.set (h : f.Nested) (i : Nat) (t : Table) : (f.set i t).Nested := by
  intro n o ho
  rw [outer_set] at ho
  exact h n o ho

theorem Nested.setAll (h : f.Nested) (pairs : List (Nat × Table)) : (f.setAll pairs).Nested := by
  intro n o ho
  rw [outer_setAll] at ho
  exact h n o ho

theorem Nested.add (h : f.Nested) {node : Node} (hnode : ∀ o ∈ node.outer, o < f.size) :
    (f.add node).2.Nested := by
  intro n o ho
  rw [Forest.add, Forest.node, Array.getElem?_push] at ho
  split at ho
  · next hn => exact hn ▸ hnode o ho
  · exact h n o ho

theorem resolve_eq (f : Forest) (i : Nat) (name : Bytes) :
    f.resolve i name = (StackScript.resolve name ((f.chain i).map fun j => (f.node j).table)).map
      fun r => (r.1, f.setAll ((f.chain i).zip r.2)) := by
  rw [resolve]
  split
  · next h => rw [h]; rfl
  · next h => rw [h]; rfl

/-- Whatever has been done to a forest, its tables lie in tables with smaller numbers. -/
theorem Grown.nested (h : f.Grown) : f.Nested := by
  induction h with
  | empty =>
    intro i o ho
    cases ho
  | new _ ih | global _ ih => exact ih.add nofun
  | @enclose f i _ hi ih =>
    refine ih.add fun o ho => ?_
    obtain rfl := Option.some.inj ho
    exact hi
  | @clone f i _ hi ih =>
    exact ih.add fun o ho => Nat.lt_trans (ih i o ho) hi
  | define _ _ _ ih | builtin _ _ _ _ ih | function _ _ _ ih => exact ih.set _ _
  | @resolve f g i name p _ hresolve ih =>
    rw [resolve_eq] at hresolve
    obtain ⟨r, -, hr⟩ := Option.map_eq_some_iff.1 hresolve
    obtain ⟨-, rfl⟩ := Prod.mk.inj hr
    exact ih.setAll _

/-! ### The tables around a table -/

theorem Nested.chain_eq (h : f.Nested) (hi : i < f.size) :
    f.chain i = i :: (f.node i).outer.elim [] f.chain := by
  rw [chain, node_of_lt hi]
  cases ho : (f.node i).outer with
  | none => simp [ho]
  | some o => simp [ho, h i o ho]

/-- The chain of a table is made of the tables around it. -/
theorem Nested.getElem?_chain (h : f.Nested) (hi : i < f.size) (k : Nat) :
    (f.chain i)[k]? = f.ancestor i k := by
  induction k generalizing i with
  | zero =>
    rw [h.chain_eq hi]
    rfl
  | succ k ih =>
    rw [h.chain_eq hi, List.getElem?_cons_succ, ancestor]
    cases ho : (f.node i).outer with
    | none => rfl
    | some o => exact ih (Nat.lt_trans (h i o ho) hi)

/-! ### Resolving a name -/

/-- The innermost table that has the name is so many tables further out and has it at this place. -/
structure FoundAt (f : Forest) (i : Nat) (name : Bytes) (k : Nat) (found : Place) : Prop where
  here : ∃ n, f.ancestor i k = some n ∧ (f.node n).table.find? name = some found
  first : ∀ j < k, ∀ n, f.ancestor i j = some n → (f.node n).table.find? name = none

/-- If any table of a chain has a name, there is an innermost one. -/
theorem exists_foundAt {found : Place} (hk : f.ancestor i k = some n)
    (hfound : (f.node n).table.find? name = some found) :
    ∃ k found, f.FoundAt i name k found := by
  induction k using Nat.strongRecOn generalizing n found with
  | ind k ih =>
    by_cases hfirst : ∀ j < k, ∀ n, f.ancestor i j = some n → (f.node n).table.find? name = none
    · exact ⟨k, found, ⟨n, hk, hfound⟩, hfirst⟩
    · simp only [not_forall] at hfirst
      obtain ⟨j, hj, m, hm, hsome⟩ := hfirst
      obtain ⟨found', hfound'⟩ := Option.ne_none_iff_exists'.1 hsome
      exact ih j hj hm hfound'

/-- The tables of a chain, up to the innermost one that has the name and after it. -/
theorem FoundAt.split {found : Place} (h : f.FoundAt i name k found) (hf : f.Nested)
    (hi : i < f.size) :
    ∃ inner n outer, f.chain i = inner ++ n :: outer ∧ inner.length = k ∧
      (f.node n).table.find? name = some found ∧
      ∀ m ∈ inner, (f.node m).table.find? name = none := by
  obtain ⟨⟨n, hn, hfound⟩, hfirst⟩ := h
  rw [← hf.getElem?_chain hi] at hn
  obtain ⟨hk, hn⟩ := List.getElem?_eq_some_iff.1 hn
  refine ⟨(f.chain i).take k, n, (f.chain i).drop (k + 1), ?_, ?_, hfound, fun m hm => ?_⟩
  · rw [← hn, ← List.drop_eq_getElem_cons hk, List.take_append_drop]
  · rw [List.length_take]
    omega
  · obtain ⟨j, hj⟩ := List.getElem?_of_mem hm
    rw [List.getElem?_take] at hj
    split at hj
    · next hjk =>
      rw [hf.getElem?_chain hi] at hj
      exact hfirst j hjk m hj
    · cases hj

/-- Replacing tables by themselves changes nothing. -/
theorem setAll_self (f : Forest) (numbers : List Nat) :
    f.setAll (numbers.zip (numbers.map fun j => (f.node j).table)) = f := by
  induction numbers with
  | nil => rfl
  | cons j numbers ih =>
    have hset : f.set j (f.node j).table = f := by
      refine ext (size_set f j _) fun n => ?_
      rw [node_set]
      split
      · next hj => rw [hj.1]
      · rfl
    rw [List.map_cons, List.zip_cons_cons, setAll_cons, hset, ih]

/-- Where nothing is captured nothing is changed. -/
theorem FoundAt.resolve_unchanged {found : Place} (h : f.FoundAt i name k found) (hf : f.Nested)
    (hi : i < f.size) (hk : k = 0 ∨ found.isShared = true) :
    f.resolve i name = some (found, f) := by
  obtain ⟨inner, n, outer, hchain, hlength, hfound, hinner⟩ := h.split hf hi
  have hresolve : StackScript.resolve name ((f.chain i).map fun j => (f.node j).table) =
      some (found, (f.chain i).map fun j => (f.node j).table) := by
    rw [hchain, List.map_append, List.map_cons]
    obtain rfl | hshared := hk
    · obtain rfl := List.eq_nil_of_length_eq_zero hlength
      simp only [List.map_nil, List.nil_append, StackScript.resolve, hfound]
    · exact resolve_shared (by simpa using hinner) hfound hshared _
  rw [resolve_eq, hresolve, Option.map_some, setAll_self]

/-- The tables of a chain are replaced, each by the one at its place in a list. -/
theorem table_setAll_chain {tables : List Table} (hlength : tables.length = (f.chain i).length)
    {t : Table} (hn : (f.chain i)[j]? = some n) (ht : tables[j]? = some t) :
    ((f.setAll ((f.chain i).zip tables)).node n).table = t := by
  have hpair : (n, t) ∈ (f.chain i).zip tables :=
    List.mem_of_getElem? (List.getElem?_zip_eq_some.2 ⟨hn, ht⟩)
  have hnodup : (((f.chain i).zip tables).map (·.1)).Nodup := by
    rw [List.map_fst_zip (Nat.le_of_eq hlength.symm)]
    exact nodup_chain f i
  exact table_setAll hnodup hpair (lt_of_mem_chain (List.mem_of_getElem? hn))

theorem map_table_setAll_chain {tables : List Table}
    (hlength : tables.length = (f.chain i).length) :
    ((f.chain i).map fun n => ((f.setAll ((f.chain i).zip tables)).node n).table) = tables := by
  refine List.ext_getElem (by rw [List.length_map, hlength]) fun j hj hj' => ?_
  rw [List.getElem_map]
  exact table_setAll_chain hlength (List.getElem?_eq_getElem _) (List.getElem?_eq_getElem hj')

theorem Nested.node_setAll_chain (hf : f.Nested) (hi : i < f.size) {tables : List Table}
    (hlength : tables.length = (f.chain i).length) {t : Table} (hn : f.ancestor i j = some n)
    (ht : tables[j]? = some t) :
    (f.setAll ((f.chain i).zip tables)).node n = ⟨t, (f.node n).outer⟩ := by
  rw [← hf.getElem?_chain hi] at hn
  have htable := table_setAll_chain hlength hn ht
  have houter := outer_setAll f ((f.chain i).zip tables) n
  rw [← htable, ← houter]

theorem Nested.node_setAll_of_not_chain (hf : f.Nested) (hi : i < f.size) (tables : List Table)
    (hn : ∀ j, f.ancestor i j ≠ some n) :
    (f.setAll ((f.chain i).zip tables)).node n = f.node n := by
  refine node_setAll_of_not_mem fun pair hpair hfst => ?_
  obtain ⟨j, hj⟩ := List.getElem?_of_mem (List.of_mem_zip hpair).1
  rw [hf.getElem?_chain hi, hfst] at hj
  exact hn j hj

/-- What resolving a name does to a forest if a variable of an enclosing function is found: each
table before the one that has the name captures what the next one has then, and all else is as it
was. -/
structure CapturedAlong (f g : Forest) (i : Nat) (name : Bytes) (k : Nat) : Prop where
  size : g.size = f.size
  captures : ∀ j < k, ∀ n o, f.ancestor i j = some n → f.ancestor i (j + 1) = some o →
    (g.node n).outer = (f.node n).outer ∧ ∃ p, (g.node o).table.find? name = some p ∧
      (f.node n).table.CapturesOne name p (g.node n).table
  unchanged : ∀ n, (∀ j < k, f.ancestor i j ≠ some n) → g.node n = f.node n

theorem FoundAt.resolve_captured {found : Place} (h : f.FoundAt i name k found) (hf : f.Nested)
    (hi : i < f.size) (hk : k ≠ 0) (hshared : found.isShared = false) :
    ∃ g, f.resolve i name = some (.free (f.node i).table.free.size, g) ∧
      f.CapturedAlong g i name k := by
  obtain ⟨inner, n, outer, hchain, rfl, hfound, hinner⟩ := h.split hf hi
  have hinner' : ∀ t ∈ inner.map fun j => (f.node j).table, t.find? name = none := by
    simpa using hinner
  obtain ⟨p, us, hresolve, hrelayed⟩ :=
    resolve_relays hinner' hfound hshared (outer.map fun j => (f.node j).table)
  have hus : us.length = inner.length := by rw [hrelayed.length_eq, List.length_map]
  have hp : p = .free (f.node i).table.free.size := by
    have hchain' := hf.chain_eq hi
    rw [hchain] at hchain'
    cases inner with
    | nil => exact absurd rfl hk
    | cons j inner =>
      obtain ⟨rfl, -⟩ := List.cons.inj hchain'
      exact hrelayed.place_eq
  obtain ⟨tables, htables⟩ : ∃ tables, tables =
    us ++ (f.node n).table :: outer.map fun j => (f.node j).table := ⟨_, rfl⟩
  have hlength : tables.length = (f.chain i).length := by
    rw [htables, hchain]
    simp [hus]
  refine ⟨f.setAll ((f.chain i).zip tables), ?_, size_setAll f _, ?_, ?_⟩
  · rw [resolve_eq, hchain, List.map_append, List.map_cons, hresolve, htables, hp]
    rfl
  · intro j hj m o hm ho
    have htable : (inner.map fun j => (f.node j).table)[j]? = some (f.node m).table := by
      rw [← hf.getElem?_chain hi, hchain, List.getElem?_append_left hj] at hm
      rw [List.getElem?_map, hm]
      rfl
    obtain ⟨-, hcaptures⟩ := hrelayed.captures hfound (outer.map fun j => (f.node j).table)
    obtain ⟨u, v, q, hu, hv, hq, hone⟩ := hcaptures j _ htable
    rw [← htables] at hu hv
    rw [hf.node_setAll_chain hi hlength hm hu, hf.node_setAll_chain hi hlength ho hv]
    exact ⟨rfl, q, hq, hone⟩
  · intro m hm
    by_cases hmem : ∃ j, f.ancestor i j = some m
    · obtain ⟨j, hj⟩ := hmem
      have hle : inner.length ≤ j := Nat.le_of_not_lt fun hlt => hm j hlt hj
      have htable : tables[j]? = some (f.node m).table := by
        have hj' := hj
        rw [← hf.getElem?_chain hi, hchain, List.getElem?_append_right hle] at hj'
        rw [htables, List.getElem?_append_right (by omega), hus,
          ← List.map_cons (f := fun j => (f.node j).table), List.getElem?_map, hj']
        rfl
      exact hf.node_setAll_chain hi hlength hj htable
    · exact hf.node_setAll_of_not_chain hi tables fun j hj => hmem ⟨j, hj⟩

/-- A name that was captured is found in the table itself. -/
theorem CapturedAlong.foundAt {found : Place} (h : f.CapturedAlong g i name k)
    (hfound : f.FoundAt i name k found) (hf : f.Nested) (hi : i < f.size) (hk : k ≠ 0) :
    g.FoundAt i name 0 (.free (f.node i).table.free.size) := by
  obtain ⟨n, hn, -⟩ := hfound.here
  rw [← hf.getElem?_chain hi] at hn
  obtain ⟨hlt, -⟩ := List.getElem?_eq_some_iff.1 hn
  have hnext : f.ancestor i 1 = some (f.chain i)[1] := by
    rw [← hf.getElem?_chain hi, List.getElem?_eq_getElem]
  obtain ⟨-, p, -, hcaptures⟩ := h.captures 0 (Nat.pos_of_ne_zero hk) i _ rfl hnext
  refine ⟨⟨i, rfl, ?_⟩, nofun⟩
  rw [hcaptures.find?, if_pos rfl]

theorem FoundAt.resolve_ne_none {found : Place} (h : f.FoundAt i name k found) (hf : f.Nested)
    (hi : i < f.size) : f.resolve i name ≠ none := by
  by_cases hcase : k = 0 ∨ found.isShared = true
  · rw [h.resolve_unchanged hf hi hcase]
    exact Option.some_ne_none _
  · obtain ⟨hk, hshared⟩ := not_or.1 hcase
    obtain ⟨g, hresolve, -⟩ := h.resolve_captured hf hi hk (by simpa using hshared)
    rw [hresolve]
    exact Option.some_ne_none _

/-- A name is not resolved if no table of the chain has it. -/
theorem Nested.resolve_eq_none_iff (hf : f.Nested) (hi : i < f.size) :
    f.resolve i name = none ↔
      ∀ k n, f.ancestor i k = some n → (f.node n).table.find? name = none := by
  constructor
  · intro hnone k n hk
    by_contra hfind
    obtain ⟨found, hfind⟩ := Option.ne_none_iff_exists'.1 hfind
    obtain ⟨k', found', hfound⟩ := exists_foundAt hk hfind
    exact hfound.resolve_ne_none hf hi hnone
  · intro hnone
    rw [resolve_eq, resolve_none, Option.map_none]
    intro t ht
    obtain ⟨n, hn, rfl⟩ := List.mem_map.1 ht
    obtain ⟨k, hk⟩ := List.getElem?_of_mem hn
    rw [hf.getElem?_chain hi] at hk
    exact hnone k n hk

/-- A name is resolved to what the innermost table that has it says, or not at all if there is none.
A place that all functions share and a place in the table itself are taken as they are. Any other
place is captured by each table on the way in, from the next one outside, and the result is the
captured value of the table itself. Nothing else is changed, and resolving the name once more has
the same result and changes nothing. -/
theorem resolve_along_chain (hf : f.Grown) (hi : i < f.size) (name : Bytes) :
    (f.resolve i name = none ↔
      ∀ k n, f.ancestor i k = some n → (f.node n).table.find? name = none) ∧
    ∀ k found, f.FoundAt i name k found →
      (k = 0 ∨ found.isShared = true → f.resolve i name = some (found, f)) ∧
      (k ≠ 0 → found.isShared = false →
        ∃ g, f.resolve i name = some (.free (f.node i).table.free.size, g) ∧
          f.CapturedAlong g i name k ∧
          g.resolve i name = some (.free (f.node i).table.free.size, g)) := by
  have hnested := hf.nested
  refine ⟨hnested.resolve_eq_none_iff hi, fun k found hfound => ?_⟩
  refine ⟨hfound.resolve_unchanged hnested hi, fun hk hshared => ?_⟩
  obtain ⟨g, hresolve, halong⟩ := hfound.resolve_captured hnested hi hk hshared
  refine ⟨g, hresolve, halong, ?_⟩
  have hagain := halong.foundAt hfound hnested hi hk
  exact hagain.resolve_unchanged (hf.resolve hresolve).nested (halong.size ▸ hi) (.inl rfl)

/-- A variable of a function is resolved from a function inside a function inside it. -/
theorem resolve_along_chain_twice :
    ∃ f : Forest, f.Grown ∧ f.size = 4 ∧ f.FoundAt 3 "a" 2 (.local 0) ∧
      ∃ g, f.resolve 3 "a" = some (.free 0, g) ∧ f.CapturedAlong g 3 "a" 2 ∧
        g.resolve 3 "a" = some (.free 0, g) := by
  have hgrown₁ : Grown (enclose (add #[] ⟨.empty false, none⟩).2 0).2 :=
    .enclose (.new .empty) (by decide)
  obtain ⟨f, hf⟩ : ∃ f, f = (enclose (enclose (update
    (enclose (add #[] ⟨.empty false, none⟩).2 0).2 1 fun t => t.define "a").2 1).2 2).2 := ⟨_, rfl⟩
  have hgrown : f.Grown := by
    rw [hf]
    exact .enclose (.enclose (.define 1 "a" hgrown₁) (by decide)) (by decide)
  obtain ⟨hsize, hnode₁, hnode₂, hnode₃⟩ : f.size = 4 ∧
      f.node 1 = ⟨((Table.empty true).define "a").2, some 0⟩ ∧
      f.node 2 = ⟨.empty true, some 1⟩ ∧ f.node 3 = ⟨.empty true, some 2⟩ := by
    rw [hf]
    exact ⟨rfl, rfl, rfl, rfl⟩
  have hslot : ((Table.empty true).define "a").1 = .local 0 := by
    rw [Table.define, Table.empty_find?]
    rfl
  have hfound : f.FoundAt 3 "a" 2 (.local 0) := by
    refine ⟨⟨1, ?_, ?_⟩, fun j hj n hn => ?_⟩
    · simp [ancestor, hnode₃, hnode₂]
    · rw [hnode₁, Table.define_find?, if_pos rfl, hslot]
    · obtain rfl | rfl : j = 0 ∨ j = 1 := by omega
      · obtain rfl : 3 = n := Option.some.inj hn
        rw [hnode₃, Table.empty_find?]
      · obtain rfl : 2 = n := by simpa [ancestor, hnode₃] using hn
        rw [hnode₂, Table.empty_find?]
  obtain ⟨g, hresolve, halong, hagain⟩ :=
    ((resolve_along_chain hgrown (by omega) "a").2 2 (.local 0) hfound).2 (by decide) rfl
  rw [hnode₃] at hresolve hagain
  exact ⟨f, hgrown, hsize, hfound, g, hresolve, halong, hagain⟩

end Forest

end StackScript
