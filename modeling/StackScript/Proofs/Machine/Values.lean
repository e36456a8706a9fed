import StackScript.Builtin.Apply
import StackScript.Machine.Operators

/-!
# Values of a running program

A running program has values of the language only: no bare functions, and no
closures or builtin functions with nothing behind them. What is said of every
closure is said of those inside arrays and hashes and of those that a closure
has captured. Operators and builtin functions make values of the parts they are
given, so they keep it.

## Main definitions

* `Value.Every`: a property of all closures in a value.

## Main results

* `Value.Every.arithmetic` and its siblings: operators keep the property.
* `Value.Every.apply`: builtin functions keep it.
-/

namespace StackScript

/-- The value is one of the language, and every closure in it has the property. -/
inductive Value.Every (C : Nat → Function → List Value → Prop) : Value → Prop
  | null : Every C .null
  | int (n : Int64) : Every C (.int n)
  | bool (b : Bool) : Every C (.bool b)
  | string (s : Bytes) : Every C (.string s)
  | error (message : Bytes) : Every C (.error message)
  | builtin (b : Builtin) : Every C (.builtin (.known b))
  | array {items : List Value} : (∀ v ∈ items, Every C v) → Every C (.array items)
  | hash {entries : List (HashKey × Value × Value)} :
    (∀ e ∈ entries, Every C e.2.1) → (∀ e ∈ entries, Every C e.2.2) → Every C (.hash entries)
  | closure {id : Nat} {f : Function} {free : List Value} : C id f free →
    (∀ v ∈ free, Every C v) → Every C (.closure id (some f) free)

namespace Value.Every

variable {C C' : Nat → Function → List Value → Prop} {v w r : Value} {items : List Value}

theorem mono (h : v.Every C) (hC : ∀ id f free, C id f free → C' id f free) : v.Every C' := by
  induction h with
  | null => exact .null
  | int n => exact .int n
  | bool b => exact .bool b
  | string s => exact .string s
  | error message => exact .error message
  | builtin b => exact .builtin b
  | array _ ih => exact .array ih
  | hash _ _ ihkey ihvalue => exact .hash ihkey ihvalue
  | closure hc _ ih => exact .closure (hC _ _ _ hc) ih

theorem items_of (h : (Value.array items).Every C) : ∀ v ∈ items, v.Every C := by
  cases h with
  | array h => exact h

/-! ### Operators -/

theorem arithmetic {op : Opcode} (h : v.arithmetic op w = .ok r) : r.Every C := by
  unfold Value.arithmetic at h
  split at h
  · unfold integerOp at h
    split at h
    · cases h; exact .int _
    · cases h; exact .int _
    · cases h; exact .int _
    · split at h
      · cases h
      · cases h; exact .int _
  · split at h
    · cases h; exact .string _
    · cases h
  · cases h

theorem greater (h : v.greater w = .ok r) : r.Every C := by
  unfold Value.greater at h
  split at h
  · cases h; exact .bool _
  · cases h

theorem negate (h : v.negate = .ok r) : r.Every C := by
  unfold Value.negate at h
  split at h
  · cases h; exact .int _
  · cases h

theorem index (hv : v.Every C) (h : v.index w = .ok r) : r.Every C := by
  unfold Value.index at h
  split at h
  · next items n =>
    cases h
    split
    · exact .null
    · cases hget : items[n.toInt.toNat]? with
      | none => exact .null
      | some x => exact hv.items_of x (List.mem_of_getElem? hget)
  · next entries i =>
    split at h
    · cases h
    · next k hk =>
      split at h
      · next key value hfind =>
        cases h
        split
        · obtain ⟨e, he, hpair⟩ := Option.map_eq_some_iff.1 hfind
          cases hv with
          | hash _ hvalues =>
            have hvalue := hvalues e (List.mem_of_find?_eq_some he)
            rwa [hpair] at hvalue
        · exact .null
      · cases h
        exact .null
  · cases h

theorem pairUp {acc entries : List Entry} (hacc : ∀ e ∈ acc, e.2.1.Every C ∧ e.2.2.Every C)
    (hitems : ∀ v ∈ items, v.Every C) (h : Entry.pairUp acc items = .ok entries) :
    ∀ e ∈ entries, e.2.1.Every C ∧ e.2.2.Every C := by
  fun_induction Entry.pairUp acc items with
  | case1 acc key value rest k hk ih =>
    refine ih ?_ ?_ h
    · intro e he
      obtain rfl | he := List.mem_cons.1 he
      · exact ⟨hitems key (by simp), hitems value (by simp)⟩
      · exact hacc e he
    · intro v hv
      exact hitems v (by simp [hv])
  | case2 => cases h
  | case3 =>
    cases h
    simpa using hacc

theorem keepLast_cons (e : Entry) (sorted : List Entry) :
    Entry.keepLast (e :: sorted) =
      match Entry.keepLast sorted with
      | [] => [e]
      | f :: _ => if f.1 = e.1 then Entry.keepLast sorted else e :: Entry.keepLast sorted :=
  rfl

theorem keepLast_subset (sorted : List Entry) : Entry.keepLast sorted ⊆ sorted := by
  induction sorted with
  | nil => simp [Entry.keepLast]
  | cons e sorted ih =>
    rw [keepLast_cons]
    split
    · simp
    · split
      · exact List.subset_cons_of_subset e ih
      · exact List.cons_subset_cons e ih

theorem file {entries : List Entry} (h : ∀ e ∈ entries, e.2.1.Every C ∧ e.2.2.Every C) :
    (Value.hash (Entry.file entries)).Every C := by
  have hmem {e : Entry} (he : e ∈ Entry.file entries) : e ∈ entries :=
    List.mem_mergeSort.1 (keepLast_subset _ he)
  exact .hash (fun e he => (h e (hmem he)).1) fun e he => (h e (hmem he)).2

/-! ### Builtin functions -/

theorem onArray {b : Builtin} {f : List Value → Value} (hitems : ∀ v ∈ items, v.Every C)
    (hf : ∀ xs, (∀ v ∈ xs, v.Every C) → (f xs).Every C) : (b.onArray f items).Every C := by
  unfold Builtin.onArray Builtin.one
  split
  · next v =>
    have hv := hitems v (by simp)
    dsimp only
    split
    · exact hf _ hv.items_of
    · exact .error _
  · exact .error _

theorem onString {b : Builtin} {f : Bytes → Bytes} : (b.onString f items).Every C := by
  unfold Builtin.onString Builtin.one
  split
  · dsimp only
    split
    · exact .string _
    · exact .error _
  · exact .error _

/-- A builtin function makes its value of the arguments it is given. -/
theorem apply [Casing] (b : Builtin) (hitems : ∀ v ∈ items, v.Every C) :
    (b.value items).Every C := by
  cases b with
  | len =>
    simp only [Builtin.value, Builtin.one]
    split
    · split
      · exact .int _
      · exact .int _
      · exact .error _
    · exact .error _
  | log => exact .null
  | first =>
    refine onArray hitems fun xs hxs => ?_
    cases xs with
    | nil => exact .null
    | cons x xs => exact hxs x (by simp)
  | last =>
    refine onArray hitems fun xs hxs => ?_
    rcases List.eq_nil_or_concat xs with rfl | ⟨xs, x, rfl⟩
    · exact .null
    · simpa using hxs x (by simp)
  | rest =>
    refine onArray hitems fun xs hxs => ?_
    cases xs with
    | nil => exact .null
    | cons x xs => exact .array fun v hv => hxs v (by simp [hv])
  | push =>
    simp only [Builtin.value]
    split
    · next xs v =>
      refine .array fun w hw => ?_
      obtain hw | hw := List.mem_append.1 hw
      · exact (hitems (.array xs) (by simp)).items_of w hw
      · obtain rfl := List.mem_singleton.1 hw
        exact hitems w (by simp)
    · exact .error _
    · exact .error _
  | pop =>
    refine onArray hitems fun xs hxs => ?_
    exact .array fun v hv => hxs v (List.dropLast_subset xs hv)
  | toUpper => exact onString
  | toLower => exact onString

end Value.Every

end StackScript
