import StackScript.Proofs.Compile.Scheme
import StackScript.Proofs.Meaning.Evaluate
import StackScript.Proofs.Symbol.Chain
import StackScript.Proofs.Tree.Induction

/-!
# Names and tables

The names bound at a place of a program are those that the tables have there
when it is compiled. A function's slots belong to the names that it has bound,
in the order in which it has bound them first; what it has captured belongs to
functions around it. So a name is resolved to the binding that it stands for.

## Main definitions

* `Table.Lists`: the slots of a table belong to names in order.
* `Names.Match`: names and the tables of nested functions.
* `Denotes`: the place of a name.
* `Emission.Binds`: names that are bound by what is emitted.

## Main results

* `LevelsMatch.resolve`: a name is resolved to its binding.
* `tree_binds`: compiling binds the names that evaluating binds.
-/

namespace StackScript

/-! ### Lists of names -/

theorem addName_of_mem {names : List Bytes} {x : Bytes} (h : x ∈ names) : addName names x = names :=
  if_pos h

theorem addName_of_not_mem {names : List Bytes} {x : Bytes} (h : x ∉ names) :
    addName names x = names ++ [x] :=
  if_neg h

theorem prefix_addName (names : List Bytes) (x : Bytes) : names <+: addName names x := by
  by_cases h : x ∈ names
  · exact ⟨[], by rw [addName_of_mem h, List.append_nil]⟩
  · exact ⟨[x], (addName_of_not_mem h).symm⟩

theorem nodup_addName {names : List Bytes} (h : names.Nodup) (x : Bytes) :
    (addName names x).Nodup := by
  by_cases hx : x ∈ names
  · rwa [addName_of_mem hx]
  · rw [addName_of_not_mem hx, List.nodup_append]
    refine ⟨h, by simp, ?_⟩
    intro y hy z hz
    obtain rfl := List.mem_singleton.1 hz
    rintro rfl
    exact hx hy

theorem prefix_foldl_addName (names xs : List Bytes) : names <+: xs.foldl addName names := by
  induction xs generalizing names with
  | nil => exact List.prefix_rfl
  | cons x xs ih => exact (prefix_addName names x).trans (ih _)

theorem foldl_addName_of_nodup {names xs : List Bytes} (h : (names ++ xs).Nodup) :
    xs.foldl addName names = names ++ xs := by
  induction xs generalizing names with
  | nil => rw [List.append_nil]; rfl
  | cons x xs ih =>
    have hx : x ∉ names := by
      intro hmem
      exact (List.nodup_append.1 h).2.2 x hmem x (List.mem_cons_self ..) rfl
    rw [List.foldl_cons, addName_of_not_mem hx, ih (by simpa using h), List.append_assoc,
      List.singleton_append]

/-! ### Slots -/

namespace Table

variable {t : Table} {names : List Bytes} {x y : Bytes} {k : Nat}

/-- The slots of the table belong to the names in order. -/
structure Lists (t : Table) (names : List Bytes) : Prop where
  slots : ∀ x k, t.find? x = some (t.slot k) ↔ names[k]? = some x
  count : t.definitions = names.length
  nodup : names.Nodup

theorem Lists.find?_slot (h : t.Lists names) (hx : x ∈ names) :
    ∃ k, t.find? x = some (t.slot k) := by
  obtain ⟨k, hk⟩ := List.mem_iff_getElem?.1 hx
  exact ⟨k, (h.slots x k).2 hk⟩

theorem Lists.mem (h : t.Lists names) (hx : t.find? x = some (t.slot k)) : x ∈ names :=
  List.mem_of_getElem? ((h.slots x k).1 hx)

/-- A name is bound to the slot of its position. -/
theorem Lists.define (h : t.Lists names) (x : Bytes) : (t.define x).2.Lists (addName names x) := by
  obtain ⟨k, hk, heq⟩ | ⟨hnone, heq⟩ := t.define_cases x
  · rw [heq, addName_of_mem (h.mem hk)]
    exact h
  · have hx : x ∉ names := by
      intro hx
      obtain ⟨k, hk⟩ := h.find?_slot hx
      exact hnone k hk
    have hfirst : (t.define x).1 = t.slot t.definitions := by rw [heq]
    have hslot (k : Nat) : (t.define x).2.slot k = t.slot k :=
      slot_congr (define_enclosed t x) k
    rw [addName_of_not_mem hx]
    refine ⟨?_, ?_, ?_⟩
    · intro y k
      rw [define_find?, hslot, hfirst]
      by_cases hxy : x = y
      · subst hxy
        rw [if_pos rfl]
        constructor
        · intro hk
          obtain rfl := slot_inj (Option.some.inj hk)
          simp [h.count]
        · intro hk
          by_cases hlt : k < names.length
          · rw [List.getElem?_append_left hlt] at hk
            exact absurd (List.mem_of_getElem? hk) hx
          · rw [List.getElem?_append_right (Nat.not_lt.1 hlt)] at hk
            obtain ⟨hzero, -⟩ := List.getElem?_eq_some_iff.1 hk
            have hk' : k = t.definitions := by
              rw [List.length_singleton] at hzero
              have := h.count
              omega
            rw [hk']
      · rw [if_neg hxy, h.slots]
        by_cases hlt : k < names.length
        · rw [List.getElem?_append_left hlt]
        · rw [List.getElem?_append_right (Nat.not_lt.1 hlt), List.getElem?_eq_none (Nat.not_lt.1 hlt)]
          constructor
          · nofun
          · intro hk
            exact absurd (List.mem_singleton.1 (List.mem_of_getElem? hk)).symm hxy
    · rw [heq]
      simp [h.count]
    · rw [← addName_of_not_mem hx]
      exact nodup_addName h.nodup x

/-- The place that a name is bound to is the slot of its position. -/
theorem Lists.define_place (h : t.Lists names) (x : Bytes) :
    ∃ k, (t.define x).1 = t.slot k ∧ (addName names x)[k]? = some x := by
  obtain ⟨k, hk, -⟩ := t.define_slot x
  refine ⟨k, hk, ((h.define x).slots x k).1 ?_⟩
  rw [define_find?, if_pos rfl, hk, slot_congr (define_enclosed t x)]

/-- Slots do not change when a name is bound to something else. -/
theorem Lists.of_find? {u : Table} (h : t.Lists names) (henclosed : u.enclosed = t.enclosed)
    (hdefs : u.definitions = t.definitions)
    (hfind : ∀ x k, u.find? x = some (t.slot k) ↔ t.find? x = some (t.slot k)) : u.Lists names := by
  refine ⟨?_, hdefs.trans h.count, h.nodup⟩
  intro x k
  rw [slot_congr henclosed, hfind, h.slots]

theorem foldl_define_free (params : List Ident) (t : Table) :
    (params.foldl (fun t p => (t.define p.name).2) t).free = t.free := by
  induction params generalizing t with
  | nil => rfl
  | cons p params ih => rw [List.foldl_cons, ih, define_free]

theorem lists_empty (enclosed : Bool) : (empty enclosed).Lists [] := by
  refine ⟨?_, rfl, List.nodup_nil⟩
  intro x k
  rw [empty_find?]
  simp

end Table

/-! ### Levels -/

/-- The function binds the name: as a parameter or variable, or it is its own. -/
def Level.Binds (l : Level) (x : Bytes) : Prop := x ∈ l.bound ∨ l.name ≠ [] ∧ x = l.name

/-- The table has slots for the names that the function has bound, knows the function's own name, and
has captured other names only. -/
structure Level.Match (l : Level) (t : Table) : Prop where
  enclosed : t.enclosed = true
  lists : t.Lists l.bound
  self : ∀ x, t.find? x = some .self ↔ x ∉ l.bound ∧ l.name ≠ [] ∧ x = l.name
  captured : ∀ x i, t.find? x = some (.free i) → ∃ p, t.free[i]? = some ⟨x, p⟩
  own : ∀ x p, t.find? x = some p → p.isShared = false

/-- The table has slots for the global names, and all other names are those of builtin functions. -/
structure GlobalsMatch (globals : List Bytes) (t : Table) : Prop where
  enclosed : t.enclosed = false
  lists : t.Lists globals
  builtin : ∀ x, x ∉ globals → t.find? x = (Builtin.ofName? x).map fun b => .builtin b.slot

/-- Functions around each other and their tables, from the inside out. -/
def LevelsMatch (globals : List Bytes) : List Level → List Table → Prop
  | [], [t] => GlobalsMatch globals t
  | l :: levels, t :: ts => l.Match t ∧ LevelsMatch globals levels ts
  | _, _ => False

/-- The names bound at a place are those that the tables have there. -/
def Names.Match (names : Names) (ts : List Table) : Prop := LevelsMatch names.globals names.levels ts

namespace Level

variable {l : Level} {t : Table} {x : Bytes}

theorem Match.slots (h : l.Match t) (x : Bytes) (k : Nat) :
    t.find? x = some (.local k) ↔ l.bound[k]? = some x := by
  have hslot : t.slot k = .local k := by simp [Table.slot, h.enclosed]
  rw [← hslot]
  exact h.lists.slots x k

/-- A name that has no slot and is not the function's own is not bound by the function. -/
theorem Match.not_binds (h : l.Match t) (hlocal : ∀ k, t.find? x ≠ some (.local k))
    (hself : t.find? x ≠ some .self) : ¬ l.Binds x := by
  have hbound : x ∉ l.bound := by
    intro hmem
    obtain ⟨k, hk⟩ := List.mem_iff_getElem?.1 hmem
    exact hlocal k ((h.slots x k).2 hk)
  rintro (hmem | hname)
  · exact hbound hmem
  · exact hself ((h.self x).2 ⟨hbound, hname⟩)

theorem Match.define (h : l.Match t) (x : Bytes) :
    ({ l with bound := addName l.bound x } : Level).Match (t.define x).2 := by
  obtain ⟨k, hk, -⟩ := t.define_slot x
  have hslot : (t.define x).1 = .local k := by simp [hk, Table.slot, h.enclosed]
  have hmem {y : Bytes} : y ∈ addName l.bound x ↔ y ∈ l.bound ∨ y = x := by
    by_cases hx : x ∈ l.bound
    · rw [addName_of_mem hx]
      constructor
      · exact .inl
      · rintro (hy | rfl)
        · exact hy
        · exact hx
    · simp [addName_of_not_mem hx]
  refine ⟨by simpa using h.enclosed, h.lists.define x, ?_, ?_, ?_⟩
  · intro y
    rw [Table.define_find?, hslot]
    by_cases hxy : x = y
    · subst hxy
      simp [hmem]
    · rw [if_neg hxy, h.self]
      simp [hmem, Ne.symm hxy]
  · intro y i hy
    rw [Table.define_find?, hslot] at hy
    by_cases hxy : x = y
    · rw [if_pos hxy] at hy
      cases hy
    · rw [if_neg hxy] at hy
      simpa using h.captured y i hy
  · intro y p hy
    rw [Table.define_find?, hslot] at hy
    by_cases hxy : x = y
    · rw [if_pos hxy] at hy
      cases hy
      rfl
    · rw [if_neg hxy] at hy
      exact h.own y p hy

/-- A name that is not bound may be captured. -/
theorem Match.capture (h : l.Match t) {s : Symbol} (hnone : t.find? s.name = none) :
    l.Match (t.capture s).2 := by
  have hfind {y : Bytes} {p : Place} (hfree : ∀ i, p ≠ .free i) :
      (t.capture s).2.find? y = some p ↔ t.find? y = some p := by
    rw [Table.capture_find?]
    by_cases hy : s.name = y
    · subst hy
      rw [if_pos rfl, hnone]
      constructor
      · intro hp
        exact absurd (Option.some.inj hp).symm (hfree _)
      · nofun
    · rw [if_neg hy]
  refine ⟨h.enclosed, h.lists.of_find? rfl rfl ?_, ?_, ?_, ?_⟩
  · intro x k
    refine hfind ?_
    simp [Table.slot, h.enclosed]
  · intro x
    rw [hfind (by simp), h.self]
  · intro x i hx
    rw [Table.capture_find?] at hx
    by_cases hname : s.name = x
    · rw [if_pos hname] at hx
      obtain rfl := Place.free.inj (Option.some.inj hx)
      refine ⟨s.place, ?_⟩
      simp [Table.capture, ← hname]
    · rw [if_neg hname] at hx
      obtain ⟨p, hp⟩ := h.captured x i hx
      refine ⟨p, ?_⟩
      -- Captures are appended, so that those before keep their numbers.
      have hlt := (Array.getElem?_eq_some_iff.1 hp).1
      simp only [Table.capture]
      rw [Array.getElem?_push_lt hlt, ← Array.getElem?_eq_getElem hlt]
      exact hp
  · intro x p hx
    rw [Table.capture_find?] at hx
    by_cases hname : s.name = x
    · rw [if_pos hname] at hx
      obtain rfl := Option.some.inj hx
      rfl
    · rw [if_neg hname] at hx
      exact h.own x p hx

/-- The table at the start of a function's body. -/
theorem match_start (name : Bytes) :
    (⟨name, []⟩ : Level).Match
      (if name = [] then .empty true else ((Table.empty true).defineSelf name).2) := by
  by_cases hname : name = []
  · rw [if_pos hname]
    refine ⟨rfl, Table.lists_empty true, ?_, ?_, ?_⟩
    · intro x
      simp [Table.empty_find?, hname]
    · intro x i hx
      rw [Table.empty_find?] at hx
      cases hx
    · intro x p hx
      rw [Table.empty_find?] at hx
      cases hx
  · rw [if_neg hname]
    have hfind (x : Bytes) :
        ((Table.empty true).defineSelf name).2.find? x = if name = x then some .self else none := by
      rw [Table.defineSelf_find?, Table.empty_find?]
    refine ⟨rfl, (Table.lists_empty true).of_find? rfl rfl ?_, ?_, ?_, ?_⟩
    · intro x k
      rw [hfind, Table.empty_find?]
      split <;> simp [Table.slot, Table.empty]
    · intro x
      rw [hfind]
      by_cases hx : name = x
      · simp [hx, hx ▸ hname]
      · simp [hx, Ne.symm hx]
    · intro x i hx
      rw [hfind] at hx
      split at hx <;> cases hx
    · intro x p hx
      rw [hfind] at hx
      split at hx
      · obtain rfl := Option.some.inj hx
        rfl
      · cases hx

theorem Match.foldl_define (h : l.Match t) (params : List Ident) :
    ({ l with bound := (params.map (·.name)).foldl addName l.bound } : Level).Match
      (params.foldl (fun t p => (t.define p.name).2) t) := by
  induction params generalizing l t with
  | nil => exact h
  | cons p params ih => exact ih (h.define p.name)

end Level

theorem GlobalsMatch.define {globals : List Bytes} {t : Table} (h : GlobalsMatch globals t)
    (x : Bytes) : GlobalsMatch (addName globals x) (t.define x).2 := by
  refine ⟨by simpa using h.enclosed, h.lists.define x, ?_⟩
  intro y hy
  have hxy : x ≠ y := by
    rintro rfl
    by_cases hx : x ∈ globals
    · exact hy (by rwa [addName_of_mem hx])
    · exact hy (by simp [addName_of_not_mem hx])
  rw [Table.define_find?, if_neg hxy]
  exact h.builtin y fun hmem => hy ((prefix_addName globals x).subset hmem)

/-- A name in the table of a program is a global one, or else that of a builtin function. -/
theorem GlobalsMatch.cases {globals : List Bytes} {t : Table} (h : GlobalsMatch globals t) {x : Bytes}
    {p : Place} (hx : t.find? x = some p) :
    (∃ k, p = .global k ∧ globals[k]? = some x) ∨
      x ∉ globals ∧ ∃ b : Builtin, p = .builtin b.slot ∧ Builtin.ofName? x = some b := by
  by_cases hmem : x ∈ globals
  · obtain ⟨k, hk⟩ := h.lists.find?_slot hmem
    have hp : p = t.slot k := Option.some.inj (hx.symm.trans hk)
    refine .inl ⟨k, ?_, (h.lists.slots x k).1 hk⟩
    rw [hp, Table.slot, h.enclosed]
    rfl
  · rw [h.builtin x hmem] at hx
    obtain ⟨b, hb, rfl⟩ := Option.map_eq_some_iff.1 hx
    exact .inr ⟨hmem, b, rfl, hb⟩

/-! ### Names -/

namespace Names

variable {names : Names} {t u : Table} {ts us : List Table} {x : Bytes} {p : Place}

theorem Match.define (h : names.Match (t :: ts)) (x : Bytes) :
    (names.bind x).Match ((t.define x).2 :: ts) := by
  obtain ⟨globals, levels⟩ := names
  cases levels with
  | nil =>
    cases ts with
    | nil => exact GlobalsMatch.define h x
    | cons u rest => exact h.elim
  | cons l levels => exact ⟨Level.Match.define h.1 x, h.2⟩

theorem Match.enter (h : names.Match ts) (name : Bytes) (params : List Ident) :
    (names.enter name params).Match
      (params.foldl (fun t p => (t.define p.name).2)
        (if name = [] then .empty true else ((Table.empty true).defineSelf name).2) :: ts) :=
  ⟨(Level.match_start name).foldl_define params, h⟩

/-- Binding names changes the innermost function only. -/
theorem bindAll_cons (globals : List Bytes) (l : Level) (levels : List Level) (xs : List Bytes) :
    bindAll ⟨globals, l :: levels⟩ xs =
      ⟨globals, { l with bound := xs.foldl addName l.bound } :: levels⟩ := by
  induction xs generalizing l with
  | nil => rfl
  | cons x xs ih => exact ih { l with bound := addName l.bound x }

theorem bindAll_append (names : Names) (xs ys : List Bytes) :
    names.bindAll (xs ++ ys) = (names.bindAll xs).bindAll ys :=
  List.foldl_append

end Names

/-- A name is resolved to a place: to one that the innermost function has for it, or to the global
variable or the builtin function if no function around binds it. -/
inductive Denotes (globals : List Bytes) (x : Bytes) : List Level → List Table → Place → Prop
  | own {l : Level} {levels : List Level} {t : Table} {ts : List Table} {p : Place} :
    t.find? x = some p → p.isShared = false → Denotes globals x (l :: levels) (t :: ts) p
  | global {levels : List Level} {ts : List Table} {k : Nat} : (∀ l ∈ levels, ¬ l.Binds x) →
    globals[k]? = some x → Denotes globals x levels ts (.global k)
  | builtin {levels : List Level} {ts : List Table} {b : Builtin} : (∀ l ∈ levels, ¬ l.Binds x) →
    x ∉ globals → Builtin.ofName? x = some b → Denotes globals x levels ts (.builtin b.slot)

/-- Around the table of a function there is another one. -/
theorem LevelsMatch.exists_level {globals : List Bytes} {levels : List Level} {t : Table}
    {outer : List Table} (h : LevelsMatch globals levels (t :: outer)) (houter : outer ≠ []) :
    ∃ l rest, levels = l :: rest := by
  cases levels with
  | cons l rest => exact ⟨l, rest, rfl⟩
  | nil =>
    cases outer with
    | nil => exact absurd rfl houter
    | cons u rest => exact h.elim

theorem LevelsMatch.resolve {globals : List Bytes} {levels : List Level} {ts us : List Table}
    {x : Bytes} {p : Place} (h : LevelsMatch globals levels ts)
    (hres : resolve x ts = some (p, us)) :
    LevelsMatch globals levels us ∧ Denotes globals x levels us p := by
  replace hres := resolves_of_resolve hres
  induction hres generalizing levels with
  | @found t outer place hfind =>
    refine ⟨h, ?_⟩
    cases levels with
    | cons l levels => exact .own hfind (h.1.own x place hfind)
    | nil =>
      cases outer with
      | cons u rest => exact h.elim
      | nil =>
        obtain ⟨k, rfl, hk⟩ | ⟨hmem, b, rfl, hb⟩ := GlobalsMatch.cases h hfind
        · exact .global (by simp) hk
        · exact .builtin (by simp) hmem hb
  | shared hnone houter hshared ih =>
    obtain ⟨l, levels, rfl⟩ := h.exists_level houter.ne_nil
    obtain ⟨hmatch, hdenotes⟩ := ih h.2
    have hbinds : ¬ l.Binds x := h.1.not_binds (by simp [hnone]) (by simp [hnone])
    refine ⟨⟨h.1, hmatch⟩, ?_⟩
    cases hdenotes with
    | own _ hown =>
      rw [hown] at hshared
      cases hshared
    | global hlevels hk => exact .global (List.forall_mem_cons.2 ⟨hbinds, hlevels⟩) hk
    | builtin hlevels hmem hb =>
      exact .builtin (List.forall_mem_cons.2 ⟨hbinds, hlevels⟩) hmem hb
  | @captured t _ _ place hnone houter hshared ih =>
    obtain ⟨l, levels, rfl⟩ := h.exists_level houter.ne_nil
    obtain ⟨hmatch, -⟩ := ih h.2
    refine ⟨⟨h.1.capture (s := ⟨x, place⟩) hnone, hmatch⟩, .own ?_ rfl⟩
    exact (Table.capture_find? t ⟨x, place⟩ x).trans (if_pos rfl)

/-- A name that no function around binds has no value there. -/
theorem lookupLevels_none {x : Bytes} {levels : List Level} (h : ∀ l ∈ levels, ¬ l.Binds x)
    (activations : List Activation) : lookupLevels x levels activations = none := by
  induction levels generalizing activations with
  | nil => rfl
  | cons l levels ih =>
    obtain ⟨hl, hlevels⟩ := List.forall_mem_cons.1 h
    rw [Level.Binds, not_or] at hl
    cases activations with
    | nil => rfl
    | cons a around =>
      rw [lookupLevels, if_neg hl.1, if_neg hl.2]
      exact ih hlevels around

/-! ### The scheme -/

/-- Whatever is emitted binds the names. -/
def Emission.Binds (p : Emission) (xs : List Bytes) : Prop :=
  ∀ offset σ seg τ names, p offset σ seg τ → Names.Match names σ.tables →
    (names.bindAll xs).Match τ.tables

namespace Emission

variable {p q r : Emission} {xs ys zs : List Bytes}

theorem Binds.seq (hp : p.Binds xs) (hq : q.Binds ys) : (p.seq q).Binds (xs ++ ys) := by
  rintro offset σ _ σ' names ⟨s, τ, t, hs, ht, rfl⟩ hσ
  rw [Names.bindAll_append]
  exact hq _ _ _ _ _ ht (hp _ _ _ _ _ hs hσ)

theorem binds_nothing : nothing.Binds [] := by
  rintro offset σ _ σ' names ⟨rfl, rfl⟩ hσ
  exact hσ

theorem Binds.all {ps : List Emission} {xss : List (List Bytes)}
    (h : List.Forall₂ Emission.Binds ps xss) : (Emission.all ps).Binds xss.flatten := by
  induction h with
  | nil => exact binds_nothing
  | cons hp _ ih => exact hp.seq ih

theorem binds_one (i : Instr) : (one i).Binds [] := by
  rintro offset σ _ σ' names ⟨rfl, rfl⟩ hσ
  exact hσ

theorem binds_operator (op : Option Opcode) : (operator op).Binds [] := by
  rintro offset σ _ σ' names ⟨code, rfl, rfl, rfl⟩ hσ
  exact hσ

theorem binds_const (v : Value) : (const v).Binds [] := by
  rintro offset σ _ σ' names ⟨_, rfl, rfl⟩ hσ
  exact hσ

theorem binds_ident (x : Bytes) : (ident x).Binds [] := by
  rintro offset σ _ σ' names ⟨place, hres, rfl, _⟩ hσ
  exact (LevelsMatch.resolve hσ hres).1

theorem Binds.given {P : Prop} (hp : p.Binds xs) : (Emission.given P p).Binds xs :=
  fun _ _ _ _ _ h => hp _ _ _ _ _ h.2

theorem Binds.branch (hp : p.Binds xs) : (Emission.branch p).Binds xs := by
  rintro offset σ _ σ' names ⟨s, hs, rfl⟩ hσ
  exact hp _ _ _ _ _ hs hσ

theorem Binds.cond (hp : p.Binds xs) (hq : q.Binds ys) (hr : r.Binds zs) :
    (Emission.cond p q r).Binds (xs ++ (ys ++ zs)) := by
  rintro offset σ _ σ' names ⟨s, σ₁, t, σ₂, u, _, _, _, hs, ht, hu, _⟩ hσ
  rw [Names.bindAll_append, Names.bindAll_append]
  exact hr _ _ _ _ _ hu (hq _ _ _ _ _ ht (hp _ _ _ _ _ hs hσ))

theorem Binds.bind (hp : p.Binds xs) (x : Bytes) : (Emission.bind x p).Binds (x :: xs) := by
  rintro offset σ _ σ' names ⟨_, s, hs, rfl⟩ hσ
  exact hp _ _ _ _ (names.bind x) hs (Names.Match.define hσ x)

/-- The names that a function binds are not bound around it. -/
theorem Binds.function (hp : p.Binds xs) (name : Bytes) (params : List Ident) :
    (Emission.function name params p).Binds [] := by
  rintro offset σ _ σ' names ⟨s, τ, table, outer, hs, houter, _, _, _, rfl, rfl⟩ hσ
  have hbody := hp _ _ _ _ _ hs (Names.Match.enter hσ name params)
  rw [Names.enter, Names.bindAll_cons, Context.tables, houter] at hbody
  exact hbody.2

end Emission

theorem letsItems_eq (items : List Expr) : letsItems items = (items.map Expr.lets).flatten := by
  induction items with
  | nil => rfl
  | cons e rest ih => simp [letsItems, ih]

theorem letsBody_eq (body : List Stmt) : letsBody body = (body.map Stmt.lets).flatten := by
  induction body with
  | nil => rfl
  | cons s rest ih => simp [letsBody, ih]

theorem letsPairs_eq (pairs : List (Expr × Expr)) :
    letsPairs pairs = pairs.map fun p => (p.1.render, p.1.lets ++ p.2.lets) := by
  induction pairs with
  | nil => rfl
  | cons p rest ih => simp [letsPairs, ih]

theorem letsPairs_inOrder (pairs : List (Expr × Expr)) :
    ((letsPairs pairs).mergeSort fun a b => Bytes.le a.1 b.1).flatMap (·.2) =
      ((Expr.inOrder pairs).map fun p => p.1.lets ++ p.2.lets).flatten := by
  rw [letsPairs_eq, Expr.mergeSort_keyed, List.flatMap_map]
  rfl

theorem items_bind {items : List Expr} (h : ∀ e ∈ items, e.Emits.Binds e.lets) :
    (Emission.all (emitsItems items)).Binds (letsItems items) := by
  rw [emitsItems_eq, letsItems_eq]
  apply Emission.Binds.all
  rw [List.forall₂_map_left_iff, List.forall₂_map_right_iff, List.forall₂_same]
  exact h

theorem block_binds {b : Block} (h : ∀ s ∈ b.body, s.Emits.Binds s.lets) : b.Emits.Binds b.lets := by
  obtain ⟨loc, body⟩ := b
  rw [Block.Emits, Block.lets, emitsBody_eq, letsBody_eq]
  apply Emission.Binds.all
  rw [List.forall₂_map_left_iff, List.forall₂_map_right_iff, List.forall₂_same]
  exact h

theorem else_binds {no : Option Block} (h : ∀ s ∈ Block.elseBody no, s.Emits.Binds s.lets) :
    (emitsElse no).Binds (letsElse no) := by
  cases no with
  | none => exact Emission.binds_one _
  | some b => exact (block_binds h).branch

theorem pairs_bind {pairs : List (Expr × Expr)}
    (h : ∀ p ∈ pairs, p.1.Emits.Binds p.1.lets ∧ p.2.Emits.Binds p.2.lets) :
    (Emission.all (pairs.map fun p => p.1.Emits.seq p.2.Emits)).Binds
      (pairs.map fun p => p.1.lets ++ p.2.lets).flatten := by
  apply Emission.Binds.all
  rw [List.forall₂_map_left_iff, List.forall₂_map_right_iff, List.forall₂_same]
  intro p hp
  exact (h p hp).1.seq (h p hp).2

/-- Compiling a node binds the names that evaluating it binds. -/
theorem tree_binds :
    TreeSteps (fun e => e.Emits.Binds e.lets) (fun s => s.Emits.Binds s.lets) where
  ident id := Emission.binds_ident id.name
  int loc literal value := Emission.binds_const _
  string loc value := Emission.binds_const _
  bool loc value := Emission.binds_one _
  unary loc op right hright := by
    rw [Expr.Emits, Expr.lets, ← List.append_nil right.lets]
    exact hright.seq (Emission.binds_operator _)
  binary loc op left right hleft hright := by
    rw [Expr.Emits, Expr.lets]
    split
    · rw [← List.append_nil left.lets]
      exact hright.seq (hleft.seq (Emission.binds_operator _))
    · rw [← List.append_nil right.lets]
      exact hleft.seq (hright.seq (Emission.binds_operator _))
  cond loc test yes no htest hyes hno := by
    rw [Expr.Emits, Expr.lets]
    exact htest.cond (block_binds hyes).branch (else_binds hno)
  function loc name params body hbody := by
    rw [Expr.Emits, Expr.lets]
    exact .given ((block_binds hbody).function name params)
  call loc callee args hcallee hargs := by
    rw [Expr.Emits, Expr.lets, ← List.append_nil (letsItems args)]
    exact .given (hcallee.seq ((items_bind hargs).seq (Emission.binds_one _)))
  array loc items hitems := by
    rw [Expr.Emits, Expr.lets, ← List.append_nil (letsItems items)]
    exact .given ((items_bind hitems).seq (Emission.binds_one _))
  hash loc pairs hpairs := by
    rw [Expr.Emits, Expr.lets, emitsPairs_inOrder, letsPairs_inOrder, ← List.append_nil (List.flatten _)]
    exact .given ((pairs_bind fun p hp => hpairs p (Expr.mem_inOrder.1 hp)).seq (Emission.binds_one _))
  index loc left index hleft hindex := by
    rw [Expr.Emits, Expr.lets, ← List.append_nil index.lets]
    exact hleft.seq (hindex.seq (Emission.binds_one _))
  missing := by
    intro _ _ _ _ _ h
    cases h
  bind loc id value hvalue := hvalue.bind id.name
  retNone loc := Emission.binds_one _
  ret loc value hvalue := by
    rw [Stmt.Emits, Stmt.lets, ← List.append_nil value.lets]
    exact hvalue.seq (Emission.binds_one _)
  expr loc value hvalue := by
    rw [Stmt.Emits, Stmt.lets, ← List.append_nil value.lets]
    exact hvalue.seq (Emission.binds_one _)
  block body hbody := by
    rw [Stmt.Emits, Stmt.lets]
    exact block_binds hbody
  missingStmt := by
    intro _ _ _ _ _ h
    cases h

end StackScript
