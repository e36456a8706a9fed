import StackScript.Proofs.Symbol.Resolution

/-!
# Consistent tables

A name that is bound anew may have had a slot before, or a captured value, which
then has no name any more. A copy of a table lies in the same table as the
original, and a name that is resolved in one of them is captured in tables around
both. None of this brings the books out of order: names have slots of their own,
a captured value is listed under its name, and it is listed under the same name
in the table that it was captured from.

## Main definitions

* `Table.Orderly`: what holds of a table by itself.
* `Table.Original`: where a captured value may come from.
* `Forest.Node.Consistent`: what holds of a table among others.
* `Table.Rebinds`: a table in which one name is bound anew.

## Main results

* `Table.Orderly.rebinds`, `Table.Orderly.captures`: single tables stay in order.
* `Forest.grown_consistent`: all tables of a forest are consistent, whatever has
  been done to them.
-/

namespace StackScript

namespace Table

variable {t u : Table} {name x y : Bytes} {p : Place} {k : Nat}

/-- The names of the captured values, in the order of their numbers. -/
def freeNames (t : Table) : List Bytes := t.free.toList.map (·.name)

/-- Names have slots of their own, which have been given out, and a captured value is listed under
the name that it is bound to. No name is listed twice, and those that are listed are bound. -/
structure Orderly (t : Table) : Prop where
  slot_lt : ∀ x k, t.find? x = some (t.slot k) → k < t.definitions
  slot_inj : ∀ x y k, t.find? x = some (t.slot k) → t.find? y = some (t.slot k) → x = y
  captured : ∀ x i, t.find? x = some (.free i) → t.freeNames[i]? = some x
  nodup : t.freeNames.Nodup
  bound : ∀ x ∈ t.freeNames, t.find? x ≠ none

/-- A value that is captured under a name from the given table is a variable of the function or the
function itself, or it has been captured there, under the same name. -/
inductive Original (outer : Table) (name : Bytes) : Place → Prop
  | local (slot : Nat) : Original outer name (.local slot)
  | self : Original outer name .self
  | free {i : Nat} (h : outer.freeNames[i]? = some name) : Original outer name (.free i)

/-! ### Binding a name anew -/

/-- The second table has the name at the given place, and otherwise what the first one has. The place
is not a captured value, and if it is a slot, the name has it already or nothing does. -/
structure Rebinds (name : Bytes) (p : Place) (t u : Table) : Prop where
  enclosed : u.enclosed = t.enclosed
  free : u.free = t.free
  definitions : t.definitions ≤ u.definitions
  find? : ∀ x, u.find? x = if name = x then some p else t.find? x
  not_free : ∀ i, p ≠ .free i
  slot : ∀ k, p = t.slot k → t.find? name = some p ∨ t.definitions ≤ k ∧ k < u.definitions

theorem slot_ne_free (t : Table) (k i : Nat) : t.slot k ≠ .free i := by
  unfold slot
  split <;> exact Place.noConfusion

theorem rebinds_define (t : Table) (name : Bytes) :
    t.Rebinds name (t.define name).1 (t.define name).2 := by
  obtain ⟨k, hk, hslot⟩ := t.define_slot name
  refine ⟨by simp, by simp, (t.le_define name).definitions, t.define_find? name, ?_, ?_⟩
  · intro i
    rw [hk]
    exact t.slot_ne_free k i
  · intro j hj
    rw [hk] at hj ⊢
    obtain rfl := slot_inj hj
    obtain ⟨hold, -⟩ | ⟨rfl, hcount⟩ := hslot
    · exact .inl hold
    · exact .inr ⟨Nat.le_refl _, by omega⟩

theorem rebinds_defineBuiltin (t : Table) (slot : Int) (name : Bytes) :
    t.Rebinds name (.builtin slot) (t.defineBuiltin slot name).2 := by
  refine ⟨rfl, rfl, Nat.le_refl _, t.defineBuiltin_find? slot name, nofun, fun k hk => ?_⟩
  unfold Table.slot at hk
  split at hk <;> cases hk

theorem rebinds_defineSelf (t : Table) (name : Bytes) :
    t.Rebinds name .self (t.defineSelf name).2 := by
  refine ⟨rfl, rfl, Nat.le_refl _, t.defineSelf_find? name, nofun, fun k hk => ?_⟩
  unfold Table.slot at hk
  split at hk <;> cases hk

theorem Rebinds.freeNames (h : t.Rebinds name p u) : u.freeNames = t.freeNames := by
  rw [Table.freeNames, Table.freeNames, h.free]

/-! ### Tables stay in order -/

theorem orderly_empty (enclosed : Bool) : (empty enclosed).Orderly := by
  have hfind {x : Bytes} {p : Place} (h : (empty enclosed).find? x = some p) : False := by
    rw [empty_find?] at h
    cases h
  exact ⟨fun _ _ h => (hfind h).elim, fun _ _ _ h => (hfind h).elim, fun _ _ h => (hfind h).elim,
    List.nodup_nil, nofun⟩

/-- A name that had a slot, or a captured value, may lose it, but no other name gets it. -/
theorem Orderly.rebinds (h : t.Orderly) (hu : t.Rebinds name p u) : u.Orderly := by
  have hslot (k : Nat) : u.slot k = t.slot k := slot_congr hu.enclosed k
  have hother {y : Bytes} {k : Nat} (hp : p = t.slot k) (hy : t.find? y = some (t.slot k)) :
      name = y := by
    obtain hname | ⟨hle, -⟩ := hu.slot k hp
    · exact h.slot_inj name y k (hp ▸ hname) hy
    · exact absurd (h.slot_lt y k hy) (Nat.not_lt.2 hle)
  refine ⟨?_, ?_, ?_, ?_, ?_⟩
  · intro x k hx
    rw [hu.find?, hslot] at hx
    split at hx
    · have hp := Option.some.inj hx
      obtain hname | ⟨-, hlt⟩ := hu.slot k hp
      · exact Nat.lt_of_lt_of_le (h.slot_lt name k (hp ▸ hname)) hu.definitions
      · exact hlt
    · exact Nat.lt_of_lt_of_le (h.slot_lt x k hx) hu.definitions
  · intro x y k hx hy
    rw [hu.find?, hslot] at hx hy
    split at hx <;> split at hy
    · next hnx hny => rw [← hnx, ← hny]
    · next hnx _ => exact hnx ▸ hother (Option.some.inj hx) hy
    · next _ hny => exact hny ▸ (hother (Option.some.inj hy) hx).symm
    · exact h.slot_inj x y k hx hy
  · intro x i hx
    rw [hu.find?] at hx
    split at hx
    · exact absurd (Option.some.inj hx) (hu.not_free i)
    · rw [hu.freeNames]
      exact h.captured x i hx
  · rw [hu.freeNames]
    exact h.nodup
  · intro x hx
    rw [hu.freeNames] at hx
    rw [hu.find?]
    split
    · exact Option.some_ne_none p
    · exact h.bound x hx

theorem CapturesOne.freeNames (h : t.CapturesOne name p u) : u.freeNames = t.freeNames ++ [name] := by
  rw [Table.freeNames, h.free, Array.toList_push, List.map_append]
  rfl

/-- A name that is not bound is not listed, so it can be listed now. -/
theorem Orderly.captures (h : t.Orderly) (hu : t.CapturesOne name p u)
    (hnone : t.find? name = none) : u.Orderly := by
  have hfresh : name ∉ t.freeNames := fun hmem => h.bound name hmem hnone
  have hslot {x : Bytes} {k : Nat} (hx : u.find? x = some (u.slot k)) :
      t.find? x = some (t.slot k) := by
    rw [hu.find?, slot_congr hu.enclosed] at hx
    split at hx
    · exact absurd (Option.some.inj hx).symm (t.slot_ne_free k _)
    · exact hx
  refine ⟨?_, ?_, ?_, ?_, ?_⟩
  · intro x k hx
    rw [hu.definitions]
    exact h.slot_lt x k (hslot hx)
  · intro x y k hx hy
    exact h.slot_inj x y k (hslot hx) (hslot hy)
  · intro x i hx
    rw [hu.find?] at hx
    rw [hu.freeNames]
    split at hx
    · next hname =>
      obtain rfl : t.free.size = i := Place.free.inj (Option.some.inj hx)
      simp [Table.freeNames, hname]
    · have hold := h.captured x i hx
      rw [List.getElem?_append_left (List.getElem?_eq_some_iff.1 hold).1]
      exact hold
  · rw [hu.freeNames, List.nodup_append]
    refine ⟨h.nodup, List.pairwise_singleton _ name, fun x hx y hy => ?_⟩
    obtain rfl := List.mem_singleton.1 hy
    exact ne_of_mem_of_not_mem hx hfresh
  · intro x hx
    rw [hu.find?]
    split
    · exact Option.some_ne_none _
    · next hne =>
      rw [hu.freeNames, List.mem_append, List.mem_singleton] at hx
      exact h.bound x (hx.resolve_right fun hname => hne hname.symm)

theorem orderly_global : Table.global.Orderly := by
  have hfold (bs : List Builtin) (t : Table) (ht : t.Orderly) :
      (bs.foldl (fun t b => (t.defineBuiltin b.slot b.name).2) t).Orderly := by
    induction bs generalizing t with
    | nil => exact ht
    | cons b bs ih => exact ih _ (ht.rebinds (t.rebinds_defineBuiltin b.slot b.name))
  exact hfold Builtin.all _ (orderly_empty false)

/-- A place that a name has in a table, and that is not shared, can be captured from it. -/
theorem Orderly.original (h : t.Orderly) (hfind : t.find? name = some p)
    (hshared : p.isShared = false) : t.Original name p := by
  cases p with
  | global k => cases hshared
  | «local» k => exact .local k
  | builtin slot => cases hshared
  | free i => exact .free (h.captured name i hfind)
  | self => exact .self

theorem Original.mono (h : t.Original name p) (hnames : t.freeNames <+: u.freeNames) :
    u.Original name p := by
  cases h with
  | «local» k => exact .local k
  | self => exact .self
  | @free i hi =>
    obtain ⟨hlt, hname⟩ := List.getElem?_eq_some_iff.1 hi
    exact .free ((List.prefix_iff_getElem?.1 hnames i hlt).trans (congrArg some hname))

end Table

/-! ### Forests -/

namespace Forest

variable {f g : Forest} {i j k n o : Nat} {name : Bytes} {found : Place}

/-- The table is in order, it is marked as enclosed if it lies in another one, and it has captured
values from that one only. -/
structure Node.Consistent (f : Forest) (n : Node) : Prop where
  orderly : n.table.Orderly
  enclosed : n.table.enclosed = n.outer.isSome
  originals : ∀ s ∈ n.table.free, ∃ o, n.outer = some o ∧ (f.node o).table.Original s.name s.place

/-- The tables list all captured values that they listed before. -/
def Extends (f g : Forest) : Prop := ∀ n, (f.node n).table.freeNames <+: (g.node n).table.freeNames

/-- A table stays consistent when others capture more. -/
theorem Node.Consistent.mono {node : Node} (h : node.Consistent f) (hext : f.Extends g) :
    node.Consistent g := by
  refine ⟨h.orderly, h.enclosed, fun s hs => ?_⟩
  obtain ⟨o, ho, horiginal⟩ := h.originals s hs
  exact ⟨o, ho, horiginal.mono (hext o)⟩

/-- A table that has captured nothing is consistent if it is in order. -/
theorem Node.consistent_of_free_eq {node : Node} (f : Forest) (h : node.table.Orderly)
    (henclosed : node.table.enclosed = node.outer.isSome) (hfree : node.table.free = #[]) :
    node.Consistent f := by
  refine ⟨h, henclosed, fun s hs => ?_⟩
  rw [hfree] at hs
  exact absurd hs (Array.not_mem_empty s)

theorem consistent_default (f : Forest) : (default : Node).Consistent f :=
  Node.consistent_of_free_eq f (Table.orderly_empty false) rfl rfl

/-! ### Adding and replacing tables -/

theorem node_add (f : Forest) (node : Node) (n : Nat) :
    (f.add node).2.node n = if n = f.size then node else f.node n := by
  rw [add, Forest.node, Forest.node, Array.getElem?_push]
  split <;> rfl

theorem extends_add (f : Forest) (node : Node) : f.Extends (f.add node).2 := by
  intro n
  rw [node_add]
  split
  · next hn =>
    rw [hn, node_of_not_lt (Nat.lt_irrefl _)]
    exact List.nil_prefix
  · exact List.prefix_rfl

theorem consistent_add (h : ∀ n, (f.node n).Consistent f) {node : Node}
    (hnode : node.Consistent f) (n : Nat) :
    ((f.add node).2.node n).Consistent (f.add node).2 := by
  rw [node_add]
  split
  · exact hnode.mono (extends_add f node)
  · exact (h n).mono (extends_add f node)

/-- A name may be bound anew in any table. -/
theorem consistent_set (h : ∀ n, (f.node n).Consistent f) {p : Place} {t : Table}
    (ht : (f.node i).table.Rebinds name p t) (n : Nat) :
    ((f.set i t).node n).Consistent (f.set i t) := by
  have hext : f.Extends (f.set i t) := by
    intro n
    rw [node_set]
    split
    · next hn =>
      obtain ⟨rfl, -⟩ := hn
      exact ht.freeNames ▸ List.prefix_rfl
    · exact List.prefix_rfl
  rw [node_set]
  split
  · next hn =>
    obtain ⟨rfl, -⟩ := hn
    have hold := (h i).mono hext
    refine ⟨hold.orderly.rebinds ht, ht.enclosed.trans hold.enclosed, fun s hs => ?_⟩
    rw [ht.free] at hs
    exact hold.originals s hs
  · exact (h n).mono hext

/-! ### Resolving a name -/

theorem ancestor_succ (f : Forest) (i j : Nat) :
    f.ancestor i (j + 1) = (f.ancestor i j).bind fun n => (f.node n).outer := by
  induction j generalizing i with
  | zero => exact Option.bind_fun_some _
  | succ j ih =>
    rw [ancestor, ancestor]
    cases (f.node i).outer with
    | none => rfl
    | some o => exact ih o

/-- There are tables all the way to the one that has the name. -/
theorem FoundAt.exists_ancestor (h : f.FoundAt i name k found) (hf : f.Nested) (hi : i < f.size)
    (hj : j ≤ k) : ∃ n, f.ancestor i j = some n := by
  obtain ⟨n, hn, -⟩ := h.here
  rw [← hf.getElem?_chain hi] at hn ⊢
  obtain ⟨hlt, -⟩ := List.getElem?_eq_some_iff.1 hn
  exact ⟨_, List.getElem?_eq_getElem (Nat.lt_of_le_of_lt hj hlt)⟩

theorem Nested.ancestor_inj (hf : f.Nested) (hi : i < f.size) (hj : f.ancestor i j = some n)
    (hk : f.ancestor i k = some n) : j = k := by
  rw [← hf.getElem?_chain hi] at hj hk
  obtain ⟨hlt, -⟩ := List.getElem?_eq_some_iff.1 hj
  exact (List.getElem?_inj hlt (nodup_chain f i)).1 (hj.trans hk.symm)

/-- What a table captures is not shared by all functions: the next table is the one that has the
name, or it has captured the name itself. -/
theorem CapturedAlong.isShared_eq {p : Place} (h : f.CapturedAlong g i name k)
    (hfound : f.FoundAt i name k found) (hf : f.Nested) (hi : i < f.size)
    (hshared : found.isShared = false) (hj : j < k) (ho : f.ancestor i (j + 1) = some o)
    (hp : (g.node o).table.find? name = some p) : p.isShared = false := by
  by_cases hlast : j + 1 = k
  · obtain ⟨m, hm, hmfound⟩ := hfound.here
    obtain rfl : o = m := Option.some.inj (ho.symm.trans (hlast ▸ hm))
    have hsame : g.node o = f.node o := by
      refine h.unchanged o fun j' hj' ho' => ?_
      have := hf.ancestor_inj hi ho' hm
      omega
    rw [hsame, hmfound] at hp
    exact Option.some.inj hp ▸ hshared
  · have hj' : j + 1 < k := by omega
    obtain ⟨o', ho'⟩ := hfound.exists_ancestor (j := j + 2) hf hi hj'
    obtain ⟨-, p', -, hcaptures⟩ := h.captures (j + 1) hj' o o' ho ho'
    rw [hcaptures.find?, if_pos rfl] at hp
    exact Option.some.inj hp ▸ rfl

/-- A table in which the name was not bound has captured it from the table around, where it has a
place that is not shared by all functions. -/
structure CapturedFrom (f g : Forest) (n : Nat) (name : Bytes) (o : Nat) (p : Place) : Prop where
  fresh : (f.node n).table.find? name = none
  outer : (f.node n).outer = some o
  outer_eq : (g.node n).outer = (f.node n).outer
  place : (g.node o).table.find? name = some p
  not_shared : p.isShared = false
  captures : (f.node n).table.CapturesOne name p (g.node n).table

/-- A table is as it was, or it is on the way to the one that has the name. -/
theorem CapturedAlong.node_cases (h : f.CapturedAlong g i name k)
    (hfound : f.FoundAt i name k found) (hf : f.Nested) (hi : i < f.size)
    (hshared : found.isShared = false) (n : Nat) :
    g.node n = f.node n ∨ ∃ o p, f.CapturedFrom g n name o p := by
  by_cases hway : ∃ j < k, f.ancestor i j = some n
  · obtain ⟨j, hj, hn⟩ := hway
    obtain ⟨o, ho⟩ := hfound.exists_ancestor (j := j + 1) hf hi hj
    obtain ⟨houter, p, hp, hcaptures⟩ := h.captures j hj n o hn ho
    have hpshared := h.isShared_eq hfound hf hi hshared hj ho hp
    rw [ancestor_succ, hn] at ho
    exact .inr ⟨o, p, hfound.first j hj n hn, ho, houter, hp, hpshared, hcaptures⟩
  · exact .inl (h.unchanged n fun j hj hn => hway ⟨j, hj, hn⟩)

theorem CapturedAlong.consistent (h : f.CapturedAlong g i name k)
    (hfound : f.FoundAt i name k found) (hf : f.Nested) (hi : i < f.size)
    (hshared : found.isShared = false) (hconsistent : ∀ n, (f.node n).Consistent f) (n : Nat) :
    (g.node n).Consistent g := by
  have hcases := h.node_cases hfound hf hi hshared
  have horderly (n : Nat) : (g.node n).table.Orderly := by
    obtain hsame | ⟨o, p, hfrom⟩ := hcases n
    · exact hsame ▸ (hconsistent n).orderly
    · exact (hconsistent n).orderly.captures hfrom.captures hfrom.fresh
  have hext : f.Extends g := by
    intro n
    obtain hsame | ⟨o, p, hfrom⟩ := hcases n
    · exact hsame ▸ List.prefix_rfl
    · exact hfrom.captures.freeNames ▸ List.prefix_append _ _
  have hold := (hconsistent n).mono hext
  obtain hsame | ⟨o, p, hfrom⟩ := hcases n
  · exact hsame ▸ hold
  · refine ⟨horderly n, ?_, fun s hs => ?_⟩
    · rw [hfrom.captures.enclosed, hfrom.outer_eq]
      exact hold.enclosed
    · rw [hfrom.outer_eq]
      rw [hfrom.captures.free, Array.mem_push] at hs
      obtain hs | rfl := hs
      · exact hold.originals s hs
      · exact ⟨o, hfrom.outer, (horderly o).original hfrom.place hfrom.not_shared⟩

/-- A name that is resolved is found in some table. -/
theorem Nested.exists_foundAt_of_resolve {p : Place} (hf : f.Nested)
    (hresolve : f.resolve i name = some (p, g)) :
    i < f.size ∧ ∃ k found, f.FoundAt i name k found := by
  have hi : i < f.size := by
    by_contra hi
    rw [resolve_eq, chain, Array.getElem?_eq_none (Nat.not_lt.1 hi)] at hresolve
    cases hresolve
  refine ⟨hi, ?_⟩
  by_contra hnot
  have hnone : f.resolve i name = none := by
    refine (hf.resolve_eq_none_iff hi).2 fun k n hk => ?_
    by_contra hfind
    obtain ⟨found, hfind⟩ := Option.ne_none_iff_exists'.1 hfind
    exact hnot (exists_foundAt hk hfind)
  rw [hnone] at hresolve
  cases hresolve

theorem consistent_resolve {p : Place} (hf : f.Nested) (h : ∀ n, (f.node n).Consistent f)
    (hresolve : f.resolve i name = some (p, g)) (n : Nat) : (g.node n).Consistent g := by
  obtain ⟨hi, k, found, hfound⟩ := hf.exists_foundAt_of_resolve hresolve
  by_cases hkept : k = 0 ∨ found.isShared = true
  · rw [hfound.resolve_unchanged hf hi hkept] at hresolve
    obtain ⟨-, rfl⟩ := Prod.mk.inj (Option.some.inj hresolve)
    exact h n
  · obtain ⟨hk, hshared⟩ := not_or.1 hkept
    have hshared : found.isShared = false := by simpa using hshared
    obtain ⟨g', hresolve', halong⟩ := hfound.resolve_captured hf hi hk hshared
    rw [hresolve'] at hresolve
    obtain ⟨-, rfl⟩ := Prod.mk.inj (Option.some.inj hresolve)
    exact halong.consistent hfound hf hi hshared h n

/-- Whatever has been done to the tables of a forest, each of them is consistent. Its names have
different slots, which have been given out; slots are global if the table lies in no other one, and
local otherwise. A name that is bound to a captured value is listed under its number, and no name is
listed twice. What was captured has a place in a call of the function around: a slot, the function
itself, or a captured value that is listed under the same name there. -/
theorem grown_consistent (hf : f.Grown) (n : Nat) : (f.node n).Consistent f := by
  induction hf generalizing n with
  | empty => exact consistent_default _
  | new _ ih =>
    exact consistent_add ih (Node.consistent_of_free_eq _ (Table.orderly_empty false) rfl rfl) n
  | global _ ih =>
    obtain ⟨henclosed, -, hfree⟩ := Table.foldl_defineBuiltin_counts Builtin.all (.empty false)
    exact consistent_add ih (Node.consistent_of_free_eq _ Table.orderly_global henclosed hfree) n
  | enclose _ _ ih =>
    exact consistent_add ih (Node.consistent_of_free_eq _ (Table.orderly_empty true) rfl rfl) n
  -- A copy lies in the same table as the original, so it has captured from the right one.
  | @clone f i _ _ ih => exact consistent_add ih (ih i) n
  | define i name _ ih => exact consistent_set ih (Table.rebinds_define _ name) n
  | builtin i slot name _ ih => exact consistent_set ih (Table.rebinds_defineBuiltin _ slot name) n
  | function i name _ ih => exact consistent_set ih (Table.rebinds_defineSelf _ name) n
  | resolve hf hresolve ih => exact consistent_resolve hf.nested ih hresolve n

/-- A function inside a function captures a variable, and the outer one of the two, which has to
capture it as well, then gets a variable of the same name. The table of the inner function is copied.
The copy has a value captured from a table in which the name of the value is bound to a slot. -/
theorem grown_consistent_shadowed :
    ∃ f : Forest, f.Grown ∧ (f.node 2).table.find? "a" = some (.local 0) ∧
      (f.node 4).outer = some 2 ∧ (f.node 4).table.free = #[⟨"a", .free 0⟩] ∧
      (f.node 4).Consistent f := by
  obtain ⟨t, ht⟩ : ∃ t, t = Table.empty true := ⟨_, rfl⟩
  have hnone : t.find? "a" = none := ht ▸ Table.empty_find? true "a"
  have hslot : (t.define "a").1 = .local 0 := by
    rw [Table.define, hnone, ht]
    rfl
  have hslot' : ((t.capture ⟨"a", .local 0⟩).2.define "a").1 = .local 0 := by
    rw [Table.define, Table.capture_find?, if_pos rfl, ht]
    rfl
  have hfind : (t.define "a").2.find? "a" = some (.local 0) := by
    rw [Table.define_find?, if_pos rfl, hslot]
  obtain ⟨f, hf⟩ : ∃ f : Forest, f = #[⟨.empty false, none⟩, ⟨(t.define "a").2, some 0⟩,
    ⟨t, some 1⟩, ⟨t, some 2⟩] := ⟨_, rfl⟩
  obtain ⟨g, hg⟩ : ∃ g : Forest, g = #[⟨.empty false, none⟩, ⟨(t.define "a").2, some 0⟩,
    ⟨(t.capture ⟨"a", .local 0⟩).2, some 1⟩, ⟨(t.capture ⟨"a", .free 0⟩).2, some 2⟩] := ⟨_, rfl⟩
  have hgrown : f.Grown := by
    have hfirst : Grown (enclose (add #[] ⟨.empty false, none⟩).2 0).2 :=
      .enclose (.new .empty) (by decide)
    rw [hf, ht]
    exact .enclose (i := 2) (.enclose (i := 1) (.define 1 "a" hfirst) (by decide)) (by decide)
  have hresolve : f.resolve 3 "a" = some (.free 0, g) := by
    have hchain : f.chain 3 = [3, 2, 1, 0] := by simp [chain, hf]
    have htables : [3, 2, 1, 0].map (fun j => (f.node j).table) =
        [t, t, (t.define "a").2, .empty false] := by
      rw [hf]
      rfl
    have hlist : StackScript.resolve "a" [t, t, (t.define "a").2, .empty false] =
        some (.free 0, [(t.capture ⟨"a", .free 0⟩).2, (t.capture ⟨"a", .local 0⟩).2,
          (t.define "a").2, .empty false]) := by
      simp only [StackScript.resolve, hnone, hfind]
      rw [ht]
      rfl
    rw [resolve_eq, hchain, htables, hlist, hf, hg]
    rfl
  have hgrown' : Grown (clone (g.update 2 fun t => t.define "a").2 3).2 :=
    .clone (.define 2 "a" (hgrown.resolve hresolve)) (by rw [hg]; exact Nat.lt_succ_self 3)
  refine ⟨_, hgrown', ?_, ?_, ?_, grown_consistent hgrown' 4⟩
  · rw [hg]
    change ((t.capture ⟨"a", .local 0⟩).2.define "a").2.find? "a" = _
    rw [Table.define_find?, if_pos rfl, hslot']
  · rw [hg]
    rfl
  · rw [hg, ht]
    rfl

end Forest

end StackScript
