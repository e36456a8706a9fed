import StackScript.Proofs.Meaning.Binding

/-!
# Names that are used where they are not known

Going through a tree in the order of its code, names are bound and used, and
functions are entered and left. A name is known where it is used if it has been
bound so far in the program or in a function around the place, if it is a
parameter or the own name of such a function, or if it is that of a builtin
function. It is known exactly if it can be resolved in the tables that stand for
the names.

## Main definitions

* `Mention`: what is said about names, one after another.
* `Expr.mentions`, `Stmt.mentions`, `Program.mentions`: the mentions of a tree.
* `Names.Knows`: a name is known.
* `Names.firstUnknown`: the first name that is used and not known.
* `Names.Describes`: names and the tables that stand for them.

## Main results

* `Names.firstUnknown_eq_some`: what comes before the first unknown name.
* `Names.Describes.knows`, `Names.Describes.not_knows`: the names that can be resolved are known.
-/

namespace StackScript

/-- What is said about names at a place of a program. -/
inductive Mention
  | use (id : Ident)
  | bind (name : Bytes)
  /-- The start of a function with its own name, or nothing, and its parameters. -/
  | enter (name : Bytes) (params : List Ident)
  /-- The end of the innermost function. -/
  | leave
  deriving DecidableEq

mutual

/-- The mentions of an expression in the order of its code. -/
def Expr.mentions : Expr → List Mention
  | .ident id => [.use id]
  | .unary _ _ right => right.mentions
  | .binary _ op left right =>
    if op = .less then right.mentions ++ left.mentions else left.mentions ++ right.mentions
  | .cond _ test yes no => test.mentions ++ (yes.mentions ++ mentionsElse no)
  | .function _ name params body => .enter name params :: (body.mentions ++ [.leave])
  | .call _ callee args => callee.mentions ++ mentionsItems args
  | .array _ items => mentionsItems items
  | .hash _ pairs => ((mentionsPairs pairs).mergeSort fun a b => Bytes.le a.1 b.1).flatMap (·.2)
  | .index _ left index => left.mentions ++ index.mentions
  | .int .. | .string .. | .bool .. | .missing => []

/-- The mentions of expressions. -/
def mentionsItems : List Expr → List Mention
  | [] => []
  | e :: rest => e.mentions ++ mentionsItems rest

/-- The mentions of the pairs of a hash literal, with the texts of the keys. -/
def mentionsPairs : List (Expr × Expr) → List (Bytes × List Mention)
  | [] => []
  | (key, value) :: rest => (key.render, key.mentions ++ value.mentions) :: mentionsPairs rest

/-- The mentions of an alternative. -/
def mentionsElse : Option Block → List Mention
  | none => []
  | some b => b.mentions

/-- The mentions of a block. -/
def Block.mentions : Block → List Mention
  | .mk _ body => mentionsBody body

/-- The mentions of statements. -/
def mentionsBody : List Stmt → List Mention
  | [] => []
  | s :: rest => s.mentions ++ mentionsBody rest

/-- The mentions of a statement. A name is bound before its value. -/
def Stmt.mentions : Stmt → List Mention
  | .bind _ id value => .bind id.name :: value.mentions
  | .ret _ (some value) => value.mentions
  | .expr _ value => value.mentions
  | .block body => body.mentions
  | .ret _ none | .missing => []

end

/-- The mentions of a program. -/
def Program.mentions (p : Program) : List Mention := mentionsBody p.body

theorem mentionsPairs_inOrder (pairs : List (Expr × Expr)) :
    ((mentionsPairs pairs).mergeSort fun a b => Bytes.le a.1 b.1).flatMap (·.2) =
      (Expr.inOrder pairs).flatMap fun p => p.1.mentions ++ p.2.mentions := by
  have hpairs : mentionsPairs pairs =
      pairs.map fun p => (p.1.render, p.1.mentions ++ p.2.mentions) := by
    induction pairs with
    | nil => rfl
    | cons p rest ih => simp [mentionsPairs, ih]
  rw [hpairs, Expr.mergeSort_keyed, List.flatMap_map]

/-! ### Known names -/

instance (l : Level) (x : Bytes) : Decidable (l.Binds x) :=
  inferInstanceAs (Decidable (x ∈ l.bound ∨ l.name ≠ [] ∧ x = l.name))

namespace Names

/-- The name is bound by a function around the place or by the program, or it is that of a builtin
function. -/
def Knows (names : Names) (x : Bytes) : Prop :=
  (∃ l ∈ names.levels, l.Binds x) ∨ x ∈ names.globals ∨ Builtin.ofName? x ≠ none

instance (names : Names) (x : Bytes) : Decidable (names.Knows x) :=
  inferInstanceAs
    (Decidable ((∃ l ∈ names.levels, l.Binds x) ∨ x ∈ names.globals ∨ Builtin.ofName? x ≠ none))

/-- The names bound after a mention. -/
def next (names : Names) : Mention → Names
  | .use _ => names
  | .bind x => names.bind x
  | .enter name params => names.enter name params
  | .leave => { names with levels := names.levels.tail }

/-- The names bound after mentions, one after another. -/
def after (names : Names) (ms : List Mention) : Names := ms.foldl next names

/-- The name that is used and not known. -/
def unknown? (names : Names) : Mention → Option Ident
  | .use id => if names.Knows id.name then none else some id
  | _ => none

/-- The first name that is used where it is not known. -/
def firstUnknown (names : Names) : List Mention → Option Ident
  | [] => none
  | m :: rest => (names.unknown? m).or ((names.next m).firstUnknown rest)

theorem length_levels_bind (names : Names) (x : Bytes) :
    (names.bind x).levels.length = names.levels.length := by
  obtain ⟨globals, levels⟩ := names
  cases levels <;> rfl

theorem after_append (names : Names) (ms ns : List Mention) :
    names.after (ms ++ ns) = (names.after ms).after ns :=
  List.foldl_append

theorem firstUnknown_append (names : Names) (ms ns : List Mention) :
    names.firstUnknown (ms ++ ns) =
      (names.firstUnknown ms).or ((names.after ms).firstUnknown ns) := by
  induction ms generalizing names with
  | nil => rfl
  | cons m ms ih =>
    rw [List.cons_append, firstUnknown, firstUnknown, ih, Option.or_assoc]
    rfl

theorem unknown?_eq_some {names : Names} {m : Mention} {id : Ident} :
    names.unknown? m = some id ↔ m = .use id ∧ ¬names.Knows id.name := by
  cases m with
  | use id' =>
    rw [unknown?]
    split
    · next hknown =>
      constructor
      · nofun
      · rintro ⟨heq, hnot⟩
        cases heq
        exact absurd hknown hnot
    · next hnot =>
      constructor
      · intro heq
        cases heq
        exact ⟨rfl, hnot⟩
      · rintro ⟨heq, -⟩
        cases heq
        rfl
  | bind | enter | leave => simp [unknown?]

/-- All names used before the first unknown one are known where they are used. -/
theorem firstUnknown_eq_some {names : Names} {ms : List Mention} {id : Ident} :
    names.firstUnknown ms = some id ↔ ∃ before rest, ms = before ++ .use id :: rest ∧
      names.firstUnknown before = none ∧ ¬(names.after before).Knows id.name := by
  constructor
  · intro h
    induction ms generalizing names with
    | nil => cases h
    | cons m ms ih =>
      rw [firstUnknown] at h
      obtain hm | ⟨hnone, hrest⟩ := Option.or_eq_some_iff.1 h
      · obtain ⟨rfl, hnot⟩ := unknown?_eq_some.1 hm
        exact ⟨[], ms, rfl, rfl, hnot⟩
      · obtain ⟨before, rest, rfl, hbefore, hnot⟩ := ih hrest
        refine ⟨m :: before, rest, rfl, ?_, hnot⟩
        rw [firstUnknown, hnone, hbefore]
        rfl
  · rintro ⟨before, rest, rfl, hbefore, hnot⟩
    rw [firstUnknown_append, hbefore, Option.none_or, firstUnknown,
      unknown?_eq_some.2 ⟨rfl, hnot⟩]
    rfl

/-- There is a first unknown name if any name is used where it is not known. -/
theorem firstUnknown_ne_none {names : Names} {ms : List Mention} :
    names.firstUnknown ms ≠ none ↔ ∃ before id rest, ms = before ++ .use id :: rest ∧
      ¬(names.after before).Knows id.name := by
  constructor
  · intro h
    obtain ⟨id, hid⟩ := Option.ne_none_iff_exists'.1 h
    obtain ⟨before, rest, heq, -, hnot⟩ := firstUnknown_eq_some.1 hid
    exact ⟨before, id, rest, heq, hnot⟩
  · rintro ⟨before, id, rest, rfl, hnot⟩ hnone
    rw [firstUnknown_append, Option.or_eq_none_iff, firstUnknown,
      unknown?_eq_some.2 ⟨rfl, hnot⟩] at hnone
    cases hnone.2

end Names

/-! ### Names and tables -/

/-- What a function has captured is bound by a function around it. -/
def Backed : List Level → List Table → Prop
  | _ :: levels, t :: ts =>
    (∀ x i, t.find? x = some (.free i) → ∃ l ∈ levels, l.Binds x) ∧ Backed levels ts
  | _, _ => True

section

variable {globals : List Bytes} {levels : List Level} {ts us : List Table} {x : Bytes} {p : Place}

/-- A name is resolved to a place of a function only if a function binds it. Captures on the way
are those of names that functions around bind. -/
theorem Backed.resolve (hmatch : LevelsMatch globals levels ts) (h : Backed levels ts)
    (hres : resolve x ts = some (p, us)) :
    Backed levels us ∧ (p.isShared = false → ∃ l ∈ levels, l.Binds x) ∧
      (p.isShared = true → x ∈ globals ∨ Builtin.ofName? x ≠ none) := by
  replace hres := resolves_of_resolve hres
  induction hres generalizing levels with
  | @found t outer place hfind =>
    refine ⟨h, ?_⟩
    cases levels with
    | nil =>
      cases outer with
      | cons u rest => exact hmatch.elim
      | nil =>
        obtain ⟨k, rfl, hk⟩ | ⟨-, b, rfl, hb⟩ := GlobalsMatch.cases hmatch hfind
        · exact ⟨fun h => absurd h (by simp [Place.isShared]),
            fun _ => .inl (List.mem_of_getElem? hk)⟩
        · exact ⟨fun h => absurd h (by simp [Place.isShared]), fun _ => .inr (by simp [hb])⟩
    | cons l levels =>
      have hown := hmatch.1.own x place hfind
      refine ⟨fun _ => ?_, fun hshared => absurd hown (by simp [hshared])⟩
      cases place with
      | global | builtin => cases hown
      | «local» k =>
        have hbound := List.mem_of_getElem? ((hmatch.1.slots x k).1 hfind)
        exact ⟨l, List.mem_cons_self .., .inl hbound⟩
      | self =>
        exact ⟨l, List.mem_cons_self .., .inr ((hmatch.1.self x).1 hfind).2⟩
      | free i =>
        obtain ⟨l', hl', hbinds⟩ := h.1 x i hfind
        exact ⟨l', List.mem_cons_of_mem l hl', hbinds⟩
  | shared _ houter hplace ih =>
    obtain ⟨l, levels, rfl⟩ := hmatch.exists_level houter.ne_nil
    obtain ⟨hbacked, -, hshared⟩ := ih hmatch.2 h.2
    exact ⟨⟨h.1, hbacked⟩, fun hnot => absurd hplace (by simp [hnot]), hshared⟩
  | @captured t _ _ place _ houter hplace ih =>
    obtain ⟨l, levels, rfl⟩ := hmatch.exists_level houter.ne_nil
    obtain ⟨hbacked, hbound, -⟩ := ih hmatch.2 h.2
    obtain ⟨l', hl', hbinds⟩ := hbound hplace
    refine ⟨⟨?_, hbacked⟩, fun _ => ⟨l', List.mem_cons_of_mem l hl', hbinds⟩,
      fun h => absurd h (by simp [Table.capture, Place.isShared])⟩
    intro y i hy
    replace hy := (Table.capture_find? t ⟨x, place⟩ y).symm.trans hy
    by_cases hxy : x = y
    · exact ⟨l', hl', hxy ▸ hbinds⟩
    · rw [if_neg hxy] at hy
      exact h.1 y i hy

/-- A name that cannot be resolved is not known. -/
theorem LevelsMatch.not_knows (h : LevelsMatch globals levels ts)
    (hres : StackScript.resolve x ts = none) :
    ¬(⟨globals, levels⟩ : Names).Knows x := by
  -- From the inside out: no table on the way has the name, and neither has the last one.
  induction ts generalizing levels with
  | nil => cases levels <;> exact h.elim
  | cons t outer ih =>
    rw [StackScript.resolve] at hres
    split at hres
    · cases hres
    · next hnone =>
      cases levels with
      | nil =>
        cases outer with
        | cons u rest => exact h.elim
        | nil =>
          have hglobal : x ∉ globals := by
            intro hx
            obtain ⟨k, hk⟩ := GlobalsMatch.lists h |>.find?_slot hx
            rw [hnone] at hk
            cases hk
          have hbuiltin := GlobalsMatch.builtin h x hglobal
          rw [hnone, eq_comm, Option.map_eq_none_iff] at hbuiltin
          rintro (⟨l, hl, -⟩ | hx | hx)
          · cases hl
          · exact hglobal hx
          · exact hx hbuiltin
      | cons l levels =>
        have hl : ¬l.Binds x := h.1.not_binds (by simp [hnone]) (by simp [hnone])
        have houter : ¬(⟨globals, levels⟩ : Names).Knows x := by
          refine ih h.2 ?_
          split at hres
          · assumption
          · split at hres <;> cases hres
        rintro (⟨l', hl', hbinds⟩ | hx)
        · obtain rfl | hl' := List.mem_cons.1 hl'
          · exact hl hbinds
          · exact houter (.inl ⟨l', hl', hbinds⟩)
        · exact houter (.inr hx)

end

namespace Names

variable {names : Names} {t : Table} {ts us : List Table} {x : Bytes} {p : Place}

/-- The tables stand for the names, and what was captured is bound. -/
structure Describes (names : Names) (ts : List Table) : Prop where
  toMatch : names.Match ts
  backed : Backed names.levels ts

namespace Describes

theorem ne_nil (h : names.Describes ts) : ts ≠ [] := by
  rintro rfl
  obtain ⟨globals, levels⟩ := names
  cases levels <;> exact h.toMatch.elim

/-- A name that can be resolved is known, and the tables still stand for the names. -/
theorem knows (h : names.Describes ts) (hres : resolve x ts = some (p, us)) :
    names.Knows x ∧ names.Describes us := by
  obtain ⟨hbacked, hbound, hshared⟩ := h.backed.resolve h.toMatch hres
  refine ⟨?_, (LevelsMatch.resolve h.toMatch hres).1, hbacked⟩
  cases hp : p.isShared with
  | true => exact .inr (hshared hp)
  | false => exact .inl (hbound hp)

theorem not_knows (h : names.Describes ts) (hres : resolve x ts = none) : ¬names.Knows x :=
  LevelsMatch.not_knows h.toMatch hres

theorem define (h : names.Describes (t :: ts)) (x : Bytes) :
    (names.bind x).Describes ((t.define x).2 :: ts) := by
  refine ⟨h.toMatch.define x, ?_⟩
  obtain ⟨hmatch, hbacked⟩ := h
  obtain ⟨globals, levels⟩ := names
  cases levels with
  | nil => trivial
  | cons l levels =>
    refine ⟨?_, hbacked.2⟩
    intro y i hy
    rw [Table.define_find?] at hy
    split at hy
    · obtain ⟨k, hk, -⟩ := t.define_slot x
      rw [hk, Table.slot, hmatch.1.enclosed] at hy
      cases hy
    · exact hbacked.1 y i hy

/-- Nothing is captured at the start of a function. -/
theorem enter (h : names.Describes ts) (name : Bytes) (params : List Ident) :
    (names.enter name params).Describes
      (params.foldl (fun t p => (t.define p.name).2)
        (if name = [] then .empty true else ((Table.empty true).defineSelf name).2) :: ts) := by
  have hmatch := h.toMatch.enter name params
  refine ⟨hmatch, ?_, h.backed⟩
  intro x i hx
  obtain ⟨p, hp⟩ := hmatch.1.captured x i hx
  rw [Table.foldl_define_free] at hp
  split at hp <;> cases hp

theorem leave (h : names.Describes (t :: ts)) (hlevels : names.levels ≠ []) :
    (names.next .leave).Describes ts := by
  obtain ⟨globals, levels⟩ := names
  cases levels with
  | nil => exact absurd rfl hlevels
  | cons l levels => exact ⟨h.toMatch.2, h.backed.2⟩

end Describes

end Names

end StackScript
