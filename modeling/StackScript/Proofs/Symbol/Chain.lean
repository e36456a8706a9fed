import Mathlib.Data.List.Forall2
import StackScript.Symbol.Forest

/-!
# Chains of tables

The tables of nested functions form a chain that ends in the table of the
program. Every place that a table gives a name makes sense there: a slot has
been given out, and to no other name, and a captured value is one that the table
around has under the same name. Binding and resolving names keep this, and take
nothing back: slots and captures that exist stay.

## Main definitions

* `Table.Valid`, `Table.Sound`: places that make sense.
* `Chain`: tables of nested functions around each other.
* `Table.Le`: a table in which more is bound.
* `globalCount`: the number of slots given out in the table of the program.
* `Resolves`: what resolving a name does to the tables.

## Main results

* `Table.Sound.define`: binding a name.
* `resolve_spec`: resolving a name in a chain.
-/

namespace StackScript

namespace Table

variable {t u : Table} {name x y : Bytes} {p : Place} {k : Nat}

/-! ### Single tables -/

/-- The place makes sense in the table: slots and captures are counted, and builtin functions are
known to the program only. -/
def Valid (t : Table) : Place → Prop
  | .global k => t.enclosed = false ∧ k < t.definitions
  | .local k => t.enclosed = true ∧ k < t.definitions
  | .builtin slot => t.enclosed = false ∧ ∃ b : Builtin, slot = b.slot
  | .free i => t.enclosed = true ∧ i < t.free.size
  | .self => t.enclosed = true

/-- Every place makes sense, and slots and names correspond. -/
structure Sound (t : Table) : Prop where
  valid : ∀ x p, t.find? x = some p → t.Valid p
  injective : ∀ x y k, t.find? x = some (t.slot k) → t.find? y = some (t.slot k) → x = y
  onto : ∀ k < t.definitions, ∃ x, t.find? x = some (t.slot k)

/-- More is bound in the second table. A name keeps its slot, and a captured value its number. -/
structure Le (t u : Table) : Prop where
  enclosed : u.enclosed = t.enclosed
  definitions : t.definitions ≤ u.definitions
  free : t.free.toList <+: u.free.toList
  slots : ∀ x k, t.find? x = some (t.slot k) → u.find? x = some (u.slot k)

theorem Le.refl (t : Table) : t.Le t :=
  ⟨rfl, Nat.le_refl _, List.prefix_rfl, fun _ _ h => h⟩

theorem Le.trans {v : Table} (h : t.Le u) (h' : u.Le v) : t.Le v :=
  ⟨h'.enclosed.trans h.enclosed, Nat.le_trans h.definitions h'.definitions, h.free.trans h'.free,
    fun x k hx => h'.slots x k (h.slots x k hx)⟩

theorem Le.size_free (h : t.Le u) : t.free.size ≤ u.free.size := by
  simpa using h.free.length_le

theorem Le.valid (h : t.Le u) (hp : t.Valid p) : u.Valid p := by
  cases p with
  | global k => exact ⟨h.enclosed.trans hp.1, Nat.lt_of_lt_of_le hp.2 h.definitions⟩
  | «local» k => exact ⟨h.enclosed.trans hp.1, Nat.lt_of_lt_of_le hp.2 h.definitions⟩
  | builtin slot => exact ⟨h.enclosed.trans hp.1, hp.2⟩
  | free i => exact ⟨h.enclosed.trans hp.1, Nat.lt_of_lt_of_le hp.2 h.size_free⟩
  | self => exact h.enclosed.trans hp

/-- In the table of a program, a name with a global slot keeps it when more is bound. -/
theorem Le.global (h : t.Le u) (ht : t.enclosed = false) (hx : t.find? x = some (.global k)) :
    u.find? x = some (.global k) := by
  have hslot (v : Table) (hv : v.enclosed = false) : v.slot k = .global k := by
    simp [slot, hv]
  have hu : u.enclosed = false := h.enclosed.trans ht
  rw [← hslot u hu]
  apply h.slots
  rw [hslot t ht]
  exact hx

theorem slot_congr (h : u.enclosed = t.enclosed) (k : Nat) : u.slot k = t.slot k := by
  rw [slot, slot, h]

theorem slot_inj {j : Nat} (h : t.slot k = t.slot j) : k = j := by
  unfold slot at h
  split at h <;> cases h <;> rfl

theorem valid_slot : t.Valid (t.slot k) ↔ k < t.definitions := by
  unfold slot
  split
  · next h => simp [Valid, h]
  · next h => simp [Valid, h]

/-- The places that a table owns are its slots. -/
theorem owns_iff : t.owns p = true ↔ ∃ k, p = t.slot k := by
  cases p <;> cases h : t.enclosed <;> simp [owns, slot, h]

theorem find?_insert (places : Std.HashMap Bytes Place) :
    (places.insert x p)[y]? = if x = y then some p else places[y]? := by
  rw [Std.HashMap.getElem?_insert]
  simp

/-! ### Binding a name -/

/-- A name is bound to the slot it has, or else to a new one. -/
theorem define_cases (t : Table) (name : Bytes) :
    (∃ k, t.find? name = some (t.slot k) ∧ t.define name = (t.slot k, t)) ∨
      (∀ k, t.find? name ≠ some (t.slot k)) ∧
        t.define name = (t.slot t.definitions,
          { t with
            places := t.places.insert name (t.slot t.definitions)
            definitions := t.definitions + 1 }) := by
  cases hfind : t.find? name with
  | none => exact .inr ⟨by simp, by simp [define, hfind]⟩
  | some place =>
    by_cases howns : t.owns place = true
    · obtain ⟨k, rfl⟩ := owns_iff.1 howns
      exact .inl ⟨k, rfl, by simp [define, hfind, howns]⟩
    · refine .inr ⟨?_, by simp [define, hfind, howns]⟩
      intro k hk
      obtain rfl := Option.some.inj hk
      exact howns (owns_iff.2 ⟨k, rfl⟩)

theorem define_find? (t : Table) (name y : Bytes) :
    (t.define name).2.find? y = if name = y then some (t.define name).1 else t.find? y := by
  obtain ⟨k, hk, heq⟩ | ⟨_, heq⟩ := t.define_cases name
  · rw [heq]
    split
    · next h => rw [← h, hk]
    · rfl
  · rw [heq]
    exact find?_insert t.places

/-- A name that is bound gets a slot, and no more slots are given out than needed. -/
theorem define_slot (t : Table) (name : Bytes) :
    ∃ k, (t.define name).1 = t.slot k ∧
      (t.find? name = some (t.slot k) ∧ (t.define name).2.definitions = t.definitions ∨
        k = t.definitions ∧ (t.define name).2.definitions = t.definitions + 1) := by
  obtain ⟨k, hk, heq⟩ | ⟨_, heq⟩ := t.define_cases name
  · exact ⟨k, by rw [heq], .inl ⟨hk, by rw [heq]⟩⟩
  · exact ⟨t.definitions, by rw [heq], .inr ⟨rfl, by rw [heq]⟩⟩

@[simp] theorem define_enclosed (t : Table) (name : Bytes) :
    (t.define name).2.enclosed = t.enclosed := by
  obtain ⟨k, _, heq⟩ | ⟨_, heq⟩ := t.define_cases name <;> rw [heq]

@[simp] theorem define_free (t : Table) (name : Bytes) : (t.define name).2.free = t.free := by
  obtain ⟨k, _, heq⟩ | ⟨_, heq⟩ := t.define_cases name <;> rw [heq]

theorem le_define (t : Table) (name : Bytes) : t.Le (t.define name).2 := by
  refine ⟨by simp, ?_, by simp, ?_⟩
  · obtain ⟨k, _, ⟨_, h⟩ | ⟨_, h⟩⟩ := t.define_slot name <;> omega
  · intro x k hx
    rw [define_find?, slot_congr (define_enclosed t name)]
    split
    · next hname =>
      obtain ⟨j, hj, heq⟩ | ⟨hnone, _⟩ := t.define_cases name
      · rw [heq, ← hj, hname, hx]
      · exact absurd (hname ▸ hx) (hnone k)
    · exact hx

theorem Sound.define (h : t.Sound) (name : Bytes) : (t.define name).2.Sound := by
  obtain ⟨k, hk, heq⟩ | ⟨hnone, heq⟩ := t.define_cases name
  · rwa [heq]
  · have hslot : (t.define name).1 = t.slot t.definitions := by rw [heq]
    have hdefs : (t.define name).2.definitions = t.definitions + 1 := by rw [heq]
    have hsame (k : Nat) : (t.define name).2.slot k = t.slot k := slot_congr (define_enclosed t name) k
    have hold {x : Bytes} {k : Nat} (hx : t.find? x = some (t.slot k)) : k < t.definitions :=
      valid_slot.1 (h.valid x _ hx)
    refine ⟨?_, ?_, ?_⟩
    · intro x p hx
      rw [define_find?, hslot] at hx
      split at hx
      · obtain rfl := Option.some.inj hx
        rw [← hsame, valid_slot]
        omega
      · exact (t.le_define name).valid (h.valid x p hx)
    · intro x y k hx hy
      rw [define_find?, hslot, hsame] at hx hy
      split at hx <;> split at hy
      · next hnx hny => rw [← hnx, ← hny]
      · have hk := slot_inj (Option.some.inj hx)
        have := hold hy
        omega
      · have hk := slot_inj (Option.some.inj hy)
        have := hold hx
        omega
      · exact h.injective x y k hx hy
    · intro k hk
      by_cases hnew : k = t.definitions
      · exact ⟨name, by rw [define_find?, hslot, hsame, if_pos rfl, hnew]⟩
      · obtain ⟨x, hx⟩ := h.onto k (by omega)
        refine ⟨x, ?_⟩
        rw [define_find?, hsame, if_neg, hx]
        rintro rfl
        exact hnone k hx

/-! ### Tables of functions -/

theorem empty_find? (enclosed : Bool) (x : Bytes) : (empty enclosed).find? x = none := by
  simp [empty, find?]

theorem sound_empty (enclosed : Bool) : (empty enclosed).Sound := by
  refine ⟨?_, ?_, ?_⟩
  · intro x p hx
    rw [empty_find?] at hx
    cases hx
  · intro x y k hx
    rw [empty_find?] at hx
    cases hx
  · intro k hk
    exact absurd hk (Nat.not_lt_zero k)

theorem defineSelf_find? (t : Table) (name y : Bytes) :
    (t.defineSelf name).2.find? y = if name = y then some .self else t.find? y :=
  find?_insert t.places

/-- The own name of a function takes no slot. -/
theorem sound_defineSelf_empty (name : Bytes) : ((empty true).defineSelf name).2.Sound := by
  have hfind {x : Bytes} {p : Place} (h : ((empty true).defineSelf name).2.find? x = some p) :
      p = .self := by
    rw [defineSelf_find?, empty_find?] at h
    split at h
    · exact (Option.some.inj h).symm
    · cases h
  refine ⟨?_, ?_, ?_⟩
  · intro x p hx
    obtain rfl := hfind hx
    rfl
  · intro x y k hx
    cases hfind hx
  · intro k hk
    exact absurd hk (Nat.not_lt_zero k)

theorem capture_find? (t : Table) (s : Symbol) (y : Bytes) :
    (t.capture s).2.find? y = if s.name = y then some (.free t.free.size) else t.find? y :=
  find?_insert t.places

/-- The second table differs in that it has captured more. -/
structure Captures (t u : Table) : Prop where
  enclosed : u.enclosed = t.enclosed
  definitions : u.definitions = t.definitions
  free : t.free.toList <+: u.free.toList
  finds : ∀ x p, t.find? x = some p → u.find? x = some p
  fresh : ∀ x p, u.find? x = some p → t.find? x = some p ∨ t.find? x = none ∧ ∃ i, p = .free i

theorem Captures.refl (t : Table) : t.Captures t :=
  ⟨rfl, rfl, List.prefix_rfl, fun _ _ h => h, fun _ _ h => .inl h⟩

theorem Captures.le (h : t.Captures u) : t.Le u :=
  ⟨h.enclosed, Nat.le_of_eq h.definitions.symm, h.free,
    fun x k hx => slot_congr h.enclosed k ▸ h.finds x _ hx⟩

theorem captures_capture {s : Symbol} (hnone : t.find? s.name = none) :
    t.Captures (t.capture s).2 := by
  refine ⟨rfl, rfl, by simp [capture], ?_, ?_⟩
  · intro x p hx
    rw [capture_find?, if_neg]
    · exact hx
    · rintro rfl
      rw [hnone] at hx
      cases hx
  · intro x p hx
    rw [capture_find?] at hx
    split at hx
    · next h => exact .inr ⟨h ▸ hnone, _, (Option.some.inj hx).symm⟩
    · exact .inl hx

/-- A captured value takes no slot either. -/
theorem Sound.capture (h : t.Sound) (henclosed : t.enclosed = true) {s : Symbol}
    (hnone : t.find? s.name = none) : (t.capture s).2.Sound := by
  have hle := (captures_capture hnone).le
  have hslot {x : Bytes} {k : Nat} (hx : (t.capture s).2.find? x = some (t.slot k)) :
      t.find? x = some (t.slot k) := by
    rw [capture_find?] at hx
    split at hx
    · simp [slot, henclosed] at hx
    · exact hx
  refine ⟨?_, ?_, ?_⟩
  · intro x p hx
    rw [capture_find?] at hx
    split at hx
    · obtain rfl := Option.some.inj hx
      exact ⟨henclosed, by simp [Table.capture]⟩
    · exact hle.valid (h.valid x p hx)
  · intro x y k hx hy
    exact h.injective x y k (hslot hx) (hslot hy)
  · intro k hk
    obtain ⟨x, hx⟩ := h.onto k hk
    exact ⟨x, hle.slots x k hx⟩

end Table

/-! ### Chains -/

/-- Tables of nested functions, from the inside out, and the table of the program at the end. A
captured value is what the next table has under its name, and lives in a call of a function. -/
def Chain : List Table → Prop
  | [] => False
  | [t] => t.Sound ∧ t.enclosed = false ∧ t.free = #[]
  | t :: u :: rest =>
    (t.Sound ∧ t.enclosed = true ∧
      ∀ s ∈ t.free, u.find? s.name = some s.place ∧ s.place.isShared = false) ∧
    Chain (u :: rest)

/-- The number of slots given out in the table of the program. -/
def globalCount : List Table → Nat
  | [] => 0
  | [t] => t.definitions
  | _ :: u :: rest => globalCount (u :: rest)

namespace Chain

variable {t : Table} {ts us outer : List Table} {name : Bytes} {p : Place}

theorem sound (h : Chain (t :: ts)) : t.Sound := by
  cases ts with
  | nil => exact h.1
  | cons u rest => exact h.1.1

theorem enclosed (h : Chain (t :: ts)) : t.enclosed = true ↔ ts ≠ [] := by
  cases ts with
  | nil => simp [h.2.1]
  | cons u rest => simp [h.1.2.1]

/-- Only the table of the program belongs to no function. -/
theorem eq_nil_of_not_enclosed (h : Chain (t :: ts)) (ht : t.enclosed = false) : ts = [] := by
  by_contra hne
  rw [h.enclosed.2 hne] at ht
  cases ht

theorem tail {u : Table} (h : Chain (t :: u :: ts)) : Chain (u :: ts) := h.2

/-- A name may be bound in the innermost table. -/
theorem define (h : Chain (t :: ts)) (name : Bytes) : Chain ((t.define name).2 :: ts) := by
  cases ts with
  | nil => exact ⟨h.1.define name, by simpa using h.2.1, by simpa using h.2.2⟩
  | cons u rest =>
    exact ⟨⟨h.1.1.define name, by simpa using h.1.2.1, by simpa using h.1.2.2⟩, h.2⟩

/-- The table of a new function may be put inside. -/
theorem cons {u : Table} (h : Chain (u :: ts)) (ht : t.Sound) (henclosed : t.enclosed = true)
    (hfree : t.free = #[]) : Chain (t :: u :: ts) :=
  ⟨⟨ht, henclosed, by simp [hfree]⟩, h⟩

/-- A chain stays one when the tables outside have captured more. -/
theorem outside {u v : Table} (h : Chain (t :: u :: ts)) (hv : u.Captures v) (h' : Chain (v :: us)) :
    Chain (t :: v :: us) := by
  refine ⟨⟨h.1.1, h.1.2.1, ?_⟩, h'⟩
  intro s hs
  obtain ⟨hfind, hshared⟩ := h.1.2.2 s hs
  exact ⟨hv.finds _ _ hfind, hshared⟩

end Chain

theorem globalCount_mono {ts us : List Table} (h : List.Forall₂ Table.Le ts us) :
    globalCount ts ≤ globalCount us := by
  induction h with
  | nil => exact Nat.le_refl _
  | cons hle hrest ih =>
    cases hrest with
    | nil => exact hle.definitions
    | cons => exact ih

theorem globalCount_captures {ts us : List Table} (h : List.Forall₂ Table.Captures ts us) :
    globalCount us = globalCount ts := by
  induction h with
  | nil => rfl
  | cons hc hrest ih =>
    cases hrest with
    | nil => exact hc.definitions
    | cons => exact ih

/-- How a name is resolved: it is found in the innermost table or further out. From there a shared
place is passed on as it is, and any other one is captured. -/
inductive Resolves (name : Bytes) : List Table → Place → List Table → Prop
  | found {t : Table} {outer : List Table} {p : Place} (hfind : t.find? name = some p) :
    Resolves name (t :: outer) p (t :: outer)
  | shared {t : Table} {outer outer' : List Table} {p : Place} (hnone : t.find? name = none)
    (houter : Resolves name outer p outer') (hshared : p.isShared = true) :
    Resolves name (t :: outer) p (t :: outer')
  | captured {t : Table} {outer outer' : List Table} {p : Place} (hnone : t.find? name = none)
    (houter : Resolves name outer p outer') (hshared : p.isShared = false) :
    Resolves name (t :: outer) (t.capture ⟨name, p⟩).1 ((t.capture ⟨name, p⟩).2 :: outer')

theorem Resolves.ne_nil {name : Bytes} {p : Place} {ts us : List Table}
    (h : Resolves name ts p us) : ts ≠ [] := by
  cases h <;> exact List.cons_ne_nil _ _

theorem resolves_of_resolve {ts us : List Table} {name : Bytes} {p : Place}
    (h : resolve name ts = some (p, us)) : Resolves name ts p us := by
  induction ts generalizing p us with
  | nil => cases h
  | cons t outer ih =>
    rw [resolve] at h
    split at h
    · next hfind =>
      obtain ⟨rfl, rfl⟩ := Prod.mk.inj (Option.some.inj h)
      exact .found hfind
    · next hnone =>
      split at h
      · cases h
      · next place outer' houter =>
        split at h
        · next hshared =>
          obtain ⟨rfl, rfl⟩ := Prod.mk.inj (Option.some.inj h)
          exact .shared hnone (ih houter) hshared
        · next hshared =>
          obtain ⟨rfl, rfl⟩ := Prod.mk.inj (Option.some.inj h)
          exact .captured hnone (ih houter) (Bool.not_eq_true _ ▸ hshared)

/-- Looking a name up binds nothing but captured values. -/
theorem resolve_captures {ts us : List Table} {name : Bytes} {p : Place}
    (h : resolve name ts = some (p, us)) : List.Forall₂ Table.Captures ts us := by
  replace h := resolves_of_resolve h
  induction h with
  | found => exact List.forall₂_same.2 fun t _ => .refl t
  | shared _ _ _ ih => exact .cons (.refl _) ih
  | @captured t _ _ place hnone _ _ ih =>
    exact .cons (Table.captures_capture (s := ⟨name, place⟩) hnone) ih

/-- The place that a name was resolved to makes sense in the chain that this leaves: the innermost
table has the name, or it is shared by all functions. -/
def Resolved (name : Bytes) (p : Place) : List Table → Prop
  | [] => False
  | t :: rest =>
    if p.isShared then (∀ k, p = .global k → k < globalCount (t :: rest)) ∧
      (∀ slot, p = .builtin slot → ∃ b : Builtin, slot = b.slot)
    else t.find? name = some p

theorem resolve_spec {ts us : List Table} {name : Bytes} {p : Place} (h : Chain ts)
    (hres : resolve name ts = some (p, us)) :
    Chain us ∧ List.Forall₂ Table.Captures ts us ∧ Resolved name p us := by
  replace hres := resolves_of_resolve hres
  induction hres with
  | @found t outer place hfind =>
    refine ⟨h, List.forall₂_same.2 fun t _ => .refl t, ?_⟩
    rw [Resolved]
    split
    · next hshared =>
      -- A table that has a shared place is the outermost one.
      have hvalid := h.sound.valid name place hfind
      have henclosed : t.enclosed = false := by
        cases place <;> first | exact hvalid.1 | cases hshared
      obtain rfl := h.eq_nil_of_not_enclosed henclosed
      constructor
      · rintro k rfl
        exact hvalid.2
      · rintro slot rfl
        exact hvalid.2
    · exact hfind
  | @shared t outer _ place hnone houter hshared ih =>
    cases outer with
    | nil => cases houter
    | cons u rest =>
      obtain ⟨hchain, hcaptures, hresolved⟩ := ih h.tail
      cases hcaptures with
      | cons hu hrest =>
        refine ⟨h.outside hu hchain, .cons (.refl t) (.cons hu hrest), ?_⟩
        rw [Resolved, if_pos hshared] at hresolved ⊢
        exact hresolved
  | @captured t outer _ place hnone houter hshared ih =>
    cases outer with
    | nil => cases houter
    | cons u rest =>
      obtain ⟨hchain, hcaptures, hresolved⟩ := ih h.tail
      cases hcaptures with
      | cons hu hrest =>
        have hsame := h.outside hu hchain
        rw [Resolved, if_neg (by simp [hshared])] at hresolved
        have hcaptured := Table.captures_capture (t := t) (s := ⟨name, place⟩) hnone
        have hsound := h.sound.capture h.1.2.1 (s := ⟨name, place⟩) hnone
        refine ⟨⟨⟨hsound, h.1.2.1, ?_⟩, hchain⟩, .cons hcaptured (.cons hu hrest), ?_⟩
        · intro s hs
          obtain hs | rfl := Array.mem_push.1 hs
          · exact hsame.1.2.2 s hs
          · exact ⟨hresolved, hshared⟩
        · rw [Resolved, if_neg (by simp [Table.capture, Place.isShared])]
          exact (Table.capture_find? t ⟨name, place⟩ name).trans (if_pos rfl)

/-! ### The table of a program -/

theorem Builtin.mem_all (b : Builtin) : b ∈ Builtin.all := by
  cases b <;> decide

/-- No two builtin functions have the same name. -/
theorem Builtin.name_injective {a b : Builtin}
    (h : Bytes.ofString a.name = Bytes.ofString b.name) : a = b := by
  have hall : ∀ a ∈ Builtin.all, ∀ b ∈ Builtin.all,
      Bytes.ofString a.name = Bytes.ofString b.name → a = b := by
    decide +kernel
  exact hall a a.mem_all b b.mem_all h

theorem Table.defineBuiltin_find? (t : Table) (slot : Int) (name y : Bytes) :
    (t.defineBuiltin slot name).2.find? y = if name = y then some (.builtin slot) else t.find? y :=
  find?_insert t.places

theorem Table.foldl_defineBuiltin_find? (bs : List Builtin) (hbs : bs.Nodup) (t : Table) (x : Bytes) :
    (bs.foldl (fun t b => (t.defineBuiltin b.slot b.name).2) t).find? x =
      ((bs.find? fun b => Bytes.ofString b.name == x).map fun b => .builtin b.slot).or
        (t.find? x) := by
  induction bs generalizing t with
  | nil => rfl
  | cons b bs ih =>
    obtain ⟨hb, hbs⟩ := List.nodup_cons.1 hbs
    rw [List.foldl_cons, ih hbs, defineBuiltin_find?]
    by_cases hname : Bytes.ofString b.name = x
    · have hnone : (bs.find? fun b => Bytes.ofString b.name == x) = none := by
        rw [List.find?_eq_none]
        intro a ha hax
        have heq : a = b := Builtin.name_injective ((by simpa using hax : _ = x).trans hname.symm)
        exact hb (heq ▸ ha)
      simp [hname, hnone]
    · rw [List.find?_cons_of_neg (by simpa using hname), if_neg hname]

/-- The names of a program that has none of its own are those of the builtin functions. -/
theorem Table.global_find? (x : Bytes) :
    Table.global.find? x = (Builtin.ofName? x).map fun b => .builtin b.slot := by
  rw [Table.global, foldl_defineBuiltin_find? _ (by decide), empty_find?, Option.or_none]
  rfl

theorem Table.foldl_defineBuiltin_counts (bs : List Builtin) (t : Table) :
    let u := bs.foldl (fun t b => (t.defineBuiltin b.slot b.name).2) t
    u.enclosed = t.enclosed ∧ u.definitions = t.definitions ∧ u.free = t.free := by
  induction bs generalizing t with
  | nil => exact ⟨rfl, rfl, rfl⟩
  | cons b bs ih => exact ih _

/-- The first name that is bound in a program, unless it is that of a builtin function. -/
theorem Table.define_global {x : Bytes} (h : Builtin.ofName? x = none) :
    (Table.global.define x).1 = .global 0 ∧
      (Table.global.define x).2.find? x = some (.global 0) := by
  obtain ⟨henclosed, hdefs, -⟩ := Table.foldl_defineBuiltin_counts Builtin.all (.empty false)
  change Table.global.enclosed = false at henclosed
  change Table.global.definitions = 0 at hdefs
  have hslot : (Table.global.define x).1 = .global 0 := by
    rw [Table.define, Table.global_find?, h, hdefs, Table.slot, henclosed]
    rfl
  refine ⟨hslot, ?_⟩
  rw [Table.define_find?, if_pos rfl, hslot]

theorem chain_global : Chain [Table.global] := by
  obtain ⟨henclosed, hdefs, hfree⟩ := Table.foldl_defineBuiltin_counts Builtin.all (.empty false)
  have hfind {x : Bytes} {p : Place} (h : Table.global.find? x = some p) :
      ∃ b : Builtin, p = .builtin b.slot := by
    rw [Table.global_find?] at h
    obtain ⟨b, _, rfl⟩ := Option.map_eq_some_iff.1 h
    exact ⟨b, rfl⟩
  refine ⟨⟨?_, ?_, ?_⟩, henclosed, hfree⟩
  · intro x p hx
    obtain ⟨b, rfl⟩ := hfind hx
    exact ⟨henclosed, b, rfl⟩
  · intro x y k hx
    obtain ⟨b, hb⟩ := hfind hx
    unfold Table.slot at hb
    split at hb <;> cases hb
  · intro k hk
    change k < Table.global.definitions at hk
    rw [Table.global, hdefs] at hk
    exact absurd hk (Nat.not_lt_zero k)

end StackScript
