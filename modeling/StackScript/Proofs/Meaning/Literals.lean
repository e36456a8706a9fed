import Mathlib.Data.List.Pairwise
import StackScript.Proofs.Meaning.Expressions

/-!
# Literals

Integers with or without a minus sign, booleans, and arrays and hashes of
literals are the expressions that stand for a value in any place. The pairs of a
hash literal are evaluated in an order of their own, which makes no difference as
long as their keys are different.

## Main definitions

* `Expr.Builds`: the literal stands for the value.

## Main results

* `Entry.file_perm`: the order in which entries with different keys are filed makes no difference.
* `Expr.Builds.eval`: a literal has the value that it stands for.
-/

namespace StackScript

/-! ### Filing entries -/

namespace HashKey

theorem le_total (a b : HashKey) : (a.le b || b.le a) = true := by
  obtain ⟨kind, digest⟩ := a
  obtain ⟨kind', digest'⟩ := b
  cases kind <;> cases kind' <;> simp [le, KeyKind.ctorIdx, UInt64.le_total]

theorem le_trans {a b c : HashKey} (h : a.le b = true) (h' : b.le c = true) : a.le c = true := by
  obtain ⟨kind, digest⟩ := a
  obtain ⟨kind', digest'⟩ := b
  obtain ⟨kind'', digest''⟩ := c
  cases kind <;> cases kind' <;> cases kind'' <;> simp [le, KeyKind.ctorIdx] at h h' ⊢
  all_goals exact UInt64.le_trans h h'

theorem le_antisymm {a b : HashKey} (h : a.le b = true) (h' : b.le a = true) : a = b := by
  obtain ⟨kind, digest⟩ := a
  obtain ⟨kind', digest'⟩ := b
  cases kind <;> cases kind' <;> simp [le, KeyKind.ctorIdx] at h h' ⊢
  all_goals exact UInt64.le_antisymm h h'

end HashKey

namespace Entry

variable {entries entries' : List Entry}

/-- The entries are in the order of their keys. -/
def Sorted (entries : List Entry) : Prop := entries.Pairwise fun a b => a.1.le b.1 = true

/-- No two entries have the same key. -/
def Distinct (entries : List Entry) : Prop := entries.Pairwise fun a b => a.1 ≠ b.1

theorem Distinct.perm (h : Distinct entries') (hperm : entries.Perm entries') : Distinct entries :=
  (hperm.pairwise_iff fun hne => Ne.symm hne).2 h

theorem sorted_mergeSort (entries : List Entry) :
    Sorted (entries.mergeSort fun a b => a.1.le b.1) := by
  refine List.pairwise_mergeSort ?_ ?_ entries
  · intro a b c hab hbc
    exact HashKey.le_trans hab hbc
  · intro a b
    exact HashKey.le_total a.1 b.1

theorem keepLast_of_distinct (h : Distinct entries) : keepLast entries = entries := by
  induction entries with
  | nil => rfl
  | cons e entries ih =>
    obtain ⟨he, hrest⟩ := List.pairwise_cons.1 h
    rw [Value.Every.keepLast_cons, ih hrest]
    cases entries with
    | nil => rfl
    | cons f entries => exact if_neg (he f (List.mem_cons_self ..)).symm

/-- Of sorted entries with one key, which are neighbours, one is kept. -/
theorem Sorted.keepLast (h : Sorted entries) :
    Sorted (keepLast entries) ∧ Distinct (keepLast entries) := by
  induction entries with
  | nil => exact ⟨.nil, .nil⟩
  | cons e entries ih =>
    obtain ⟨he, hrest⟩ := List.pairwise_cons.1 h
    obtain ⟨hsorted, hdistinct⟩ := ih hrest
    have hsubset := Value.Every.keepLast_subset entries
    rw [Value.Every.keepLast_cons]
    generalize Entry.keepLast entries = kept at hsorted hdistinct hsubset
    cases kept with
    | nil => exact ⟨List.pairwise_singleton _ _, List.pairwise_singleton _ _⟩
    | cons f kept =>
      dsimp only
      split
      · exact ⟨hsorted, hdistinct⟩
      · next hne =>
        have hle : ∀ g ∈ f :: kept, e.1.le g.1 = true := fun g hg => he g (hsubset hg)
        refine ⟨List.pairwise_cons.2 ⟨hle, hsorted⟩, List.pairwise_cons.2 ⟨?_, hdistinct⟩⟩
        intro g hg hkey
        obtain rfl | hg := List.mem_cons.1 hg
        · exact hne hkey.symm
        · have hge : f.1.le e.1 = true := by
            rw [hkey]
            exact (List.pairwise_cons.1 hsorted).1 g hg
          exact hne (HashKey.le_antisymm hge (hle f (List.mem_cons_self ..)))

theorem sorted_file (entries : List Entry) : Sorted (file entries) :=
  (sorted_mergeSort entries).keepLast.1

theorem distinct_file (entries : List Entry) : Distinct (file entries) :=
  (sorted_mergeSort entries).keepLast.2

theorem file_subset (entries : List Entry) : file entries ⊆ entries := by
  intro e he
  exact List.mem_mergeSort.1 (Value.Every.keepLast_subset _ he)

theorem file_of_distinct (h : Distinct entries) :
    file entries = entries.mergeSort fun a b => a.1.le b.1 :=
  keepLast_of_distinct (h.perm (List.mergeSort_perm _ _))

/-- The order in which entries with different keys are filed makes no difference. -/
theorem file_perm (h : entries.Perm entries') (hdistinct : Distinct entries') :
    file entries = file entries' := by
  have hsame : ∀ a ∈ entries', ∀ b ∈ entries', a.1 = b.1 → a = b := by
    intro a ha b hb hkey
    have : Std.Symm fun a b : Entry => a.1 ≠ b.1 := ⟨fun _ _ => Ne.symm⟩
    by_contra hne
    exact List.Pairwise.forall hdistinct ha hb hne hkey
  rw [file_of_distinct hdistinct, file_of_distinct (hdistinct.perm h)]
  -- There is one order of the entries in which they are sorted, since no two keys are equal.
  refine List.Perm.eq_of_pairwise ?_ (sorted_mergeSort _) (sorted_mergeSort _) ?_
  · intro a b ha hb hab hba
    exact hsame a (h.subset (List.mem_mergeSort.1 ha)) b (List.mem_mergeSort.1 hb)
      (HashKey.le_antisymm hab hba)
  · exact (List.mergeSort_perm _ _).trans (h.trans (List.mergeSort_perm _ _).symm)

theorem file_file (entries : List Entry) : file (file entries) = file entries := by
  rw [file_of_distinct (distinct_file entries), List.mergeSort_of_pairwise (sorted_file entries)]

end Entry

/-! ### Literals -/

namespace Expr

/-- The literal stands for the value. No two keys of a hash literal are filed under the same
digest. -/
inductive Builds : Expr → Value → Prop
  | int (loc : Loc) (literal : Bytes) (n : Int64) : Builds (.int loc literal n) (.int n)
  | neg (loc : Loc) {e : Expr} {n : Int64} (he : Builds e (.int n)) :
    Builds (.unary loc .neg e) (.int (-n))
  | bool (loc : Loc) (b : Bool) : Builds (.bool loc b) (.bool b)
  | array (loc : Loc) {items : List (Expr × Value)} (hitems : ∀ p ∈ items, Builds p.1 p.2) :
    Builds (.array loc (items.map (·.1))) (.array (items.map (·.2)))
  | hash (loc : Loc) {pairs : List ((Expr × Expr) × Entry)}
    (hdigests : ∀ p ∈ pairs, p.2.2.1.hashKey? = some p.2.1)
    (hkeys : ∀ p ∈ pairs, Builds p.1.1 p.2.2.1) (hvalues : ∀ p ∈ pairs, Builds p.1.2 p.2.2.2)
    (hdistinct : Entry.Distinct (pairs.map (·.2))) :
    Builds (.hash loc (pairs.map (·.1))) (.hash (Entry.file (pairs.map (·.2))))

/-- Pairs with something that belongs to each, in the order of evaluation. -/
theorem exists_inOrder {α : Type} (pairs : List ((Expr × Expr) × α)) :
    ∃ sorted : List ((Expr × Expr) × α), sorted.Perm pairs ∧
      inOrder (pairs.map (·.1)) = sorted.map (·.1) := by
  refine ⟨pairs.mergeSort fun p q => Bytes.le p.1.1.render q.1.1.render,
    List.mergeSort_perm _ _, ?_⟩
  rw [inOrder, List.map_mergeSort]
  intro p _ q _
  rfl

variable {e : Expr} {v : Value}

/-- A literal binds no names. -/
theorem Builds.lets (h : e.Builds v) : e.lets = [] := by
  induction h with
  | int | bool => rfl
  | neg _ _ ih => exact ih
  | array _ _ ih =>
    rw [Expr.lets, letsItems_eq, List.flatten_eq_nil_iff]
    intro xs hxs
    obtain ⟨e, he, rfl⟩ := List.mem_map.1 hxs
    obtain ⟨p, hp, rfl⟩ := List.mem_map.1 he
    exact ih p hp
  | hash _ _ _ _ _ ihkeys ihvalues =>
    rw [Expr.lets, letsPairs_inOrder, List.flatten_eq_nil_iff]
    intro xs hxs
    obtain ⟨q, hq, rfl⟩ := List.mem_map.1 hxs
    obtain ⟨p, hp, rfl⟩ := List.mem_map.1 (Expr.mem_inOrder.1 hq)
    rw [ihkeys p hp, ihvalues p hp]
    rfl

end Expr

/-! ### Their values -/

/-- The evaluation yields the value and changes nothing. -/
def Eval.Yields {α : Type} (x : Eval α) (a : α) : Prop := ∀ st, x st = .ok a st

namespace Eval

variable {α β : Type} {x : Eval α} {f : α → Eval β} {a : α} {b : β}

theorem Yields.pure (a : α) : Yields (Pure.pure a) a := fun _ => rfl

theorem Yields.bind (hx : Yields x a) (hf : Yields (f a) b) : Yields (x >>= f) b := by
  intro st
  change EStateM.bind x f st = _
  rw [EStateM.bind, hx st]
  exact hf st

theorem Yields.catchReturn {x : Eval Value} {v : Value} (h : Yields x v) :
    Yields (catchReturn x) v := by
  intro st
  rw [Eval.catchReturn, h st]

end Eval

section

variable {call : Value → List Value → Eval Value} {current : Option Current}

theorem evalItems_yields {items : List (Expr × Value)}
    (h : ∀ p ∈ items, ∀ names, (p.1.eval call current names).Yields p.2) (names : Names) :
    (evalItems call current names (items.map (·.1))).Yields (items.map (·.2)) := by
  induction items generalizing names with
  | nil => exact .pure []
  | cons p items ih =>
    obtain ⟨hp, hitems⟩ := List.forall_mem_cons.1 h
    exact .bind (hp names) (.bind (ih hitems _) (.pure _))

/-- The keys and the values of entries, each key before its value. -/
def Entry.flatten (entries : List Entry) : List Value := entries.flatMap fun e => [e.2.1, e.2.2]

theorem Entry.pairUp_flatten {entries : List Entry}
    (h : ∀ e ∈ entries, e.2.1.hashKey? = some e.1) (acc : List Entry) :
    Entry.pairUp acc (Entry.flatten entries) = .ok (acc.reverse ++ entries) := by
  induction entries generalizing acc with
  | nil => simp [flatten, Entry.pairUp]
  | cons e entries ih =>
    obtain ⟨he, hentries⟩ := List.forall_mem_cons.1 h
    change Entry.pairUp acc (e.2.1 :: e.2.2 :: Entry.flatten entries) = _
    rw [Entry.pairUp, he]
    change Entry.pairUp (e :: acc) (Entry.flatten entries) = _
    rw [ih hentries, List.reverse_cons, List.append_assoc, List.singleton_append]

theorem runAll_yields {pairs : List ((Expr × Expr) × Entry)}
    (hkeys : ∀ p ∈ pairs, ∀ names, (p.1.1.eval call current names).Yields p.2.2.1)
    (hvalues : ∀ p ∈ pairs, ∀ names, (p.1.2.eval call current names).Yields p.2.2.2)
    (names : Names) :
    (PairEval.runAll names ((pairs.map (·.1)).map (pairEval call current))).Yields
      (Entry.flatten (pairs.map (·.2))) := by
  induction pairs generalizing names with
  | nil => exact .pure []
  | cons p pairs ih =>
    obtain ⟨hkey, hkeys⟩ := List.forall_mem_cons.1 hkeys
    obtain ⟨hvalue, hvalues⟩ := List.forall_mem_cons.1 hvalues
    have hpair : (pairEval call current p.1).run names |>.Yields [p.2.2.1, p.2.2.2] :=
      .bind (hkey _) (.bind (hvalue _) (.pure _))
    exact .bind hpair (.bind (ih hkeys hvalues _) (.pure _))

/-- A literal has the value that it stands for, wherever it is evaluated. -/
theorem Expr.Builds.eval {e : Expr} {v : Value} (h : e.Builds v) (names : Names) :
    (e.eval call current names).Yields v := by
  induction h generalizing names with
  | int | bool => exact .pure _
  | neg _ _ ih => exact .bind (ih names) (.pure _)
  | array _ _ ih => exact .bind (evalItems_yields ih names) (.pure _)
  | @hash _ pairs hdigests _ _ hdistinct ihkeys ihvalues =>
    obtain ⟨sorted, hperm, hsorted⟩ := Expr.exists_inOrder pairs
    have hruns := runAll_yields (fun p hp => ihkeys p (hperm.subset hp))
      (fun p hp => ihvalues p (hperm.subset hp)) names
    have hentries :
        Entry.pairUp [] (Entry.flatten (sorted.map (·.2))) = .ok (sorted.map (·.2)) := by
      refine Entry.pairUp_flatten (fun e he => ?_) []
      obtain ⟨p, hp, rfl⟩ := List.mem_map.1 he
      exact hdigests p (hperm.subset hp)
    rw [Expr.eval, evalPairs_inOrder, hsorted]
    refine .bind hruns ?_
    rw [hentries, ← Entry.file_perm (hperm.map _) hdistinct]
    exact .pure _

end

end StackScript
