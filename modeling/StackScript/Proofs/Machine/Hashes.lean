import Mathlib.Data.List.Nodup
import StackScript.Proofs.Meaning.Literals
import StackScript.Text.Lower

/-!
# Building and reading hashes

A hash is built from the keys and values on top of the stack. Each pair is filed
under a digest of its key, so a pair replaces every earlier one whose key has the
same digest, be it a different key. Reading a hash compares the key that it
finds, so a pair that was replaced reads as null.

## Main definitions

* `Entry.lasting`: the pairs that no later one replaces.

## Main results

* `Entry.file_perm_lasting`: the entries of a hash are the pairs that no later one replaces.
* `Entry.find?_file`: what is found under a digest is what was filed last under it.
* `Exec.hash_keeps_lasting`: a hash keeps a pair if no later key has the digest of its key.
-/

namespace StackScript

/-! ### Keys -/

namespace Value

theorem same_comm (a b : Value) : a.same b = b.same a := by
  cases a <;> cases b <;> simp [same, BEq.comm]

variable {a b : Value} {k : HashKey}

theorem same_self_of_hashKey (h : a.hashKey? = some k) : a.same a = true := by
  cases a <;> simp_all [hashKey?, same]

/-- Keys that are filed under one digest are the same, unless they are strings. -/
theorem same_of_hashKey (ha : a.hashKey? = some k) (hb : b.hashKey? = some k)
    (hstrings : ∀ s t, a = .string s → b = .string t → s.digest = t.digest → s = t) :
    a.same b = true := by
  have hkey : a.hashKey? = b.hashKey? := ha.trans hb.symm
  clear hb
  cases a <;> cases b <;> simp [hashKey?, same] at ha hkey ⊢
  case int.int n n' => exact congrArg Int64.ofUInt64 hkey
  case bool.bool b b' => revert hkey; cases b <;> cases b' <;> decide
  case string.string s t => exact hstrings s t rfl rfl hkey

end Value

/-! ### Entries -/

/-- Sorting does not move elements past each other that are in order already. -/
theorem filter_mergeSort {α : Type} (le : α → α → Bool)
    (htrans : ∀ a b c, le a b = true → le b c = true → le a c = true)
    (htotal : ∀ a b, (le a b || le b a) = true) {p : α → Bool} {l : List α}
    (hsorted : (l.filter p).Pairwise fun a b => le a b = true) :
    (l.mergeSort le).filter p = l.filter p := by
  have hsublist : (l.filter p).Sublist (l.mergeSort le) :=
    List.sublist_mergeSort htrans htotal hsorted List.filter_sublist
  have hfilter : (l.filter p).Sublist ((l.mergeSort le).filter p) := by
    have h := hsublist.filter p
    rwa [List.filter_filter, List.filter_congr fun a _ => Bool.and_self (p a)] at h
  exact (hfilter.eq_of_length (((List.mergeSort_perm l le).filter p).length_eq.symm)).symm

namespace Entry

variable {pairs before after : List Entry} {e : Entry} {k : HashKey}

/-- The pairs that are filed under a digest. -/
def under (k : HashKey) (pairs : List Entry) : List Entry := pairs.filter (·.1 == k)

theorem mem_under {f : Entry} : f ∈ under k pairs ↔ f ∈ pairs ∧ f.1 = k := by
  simp [under]

theorem under_cons_of_eq (h : e.1 = k) : under k (e :: pairs) = e :: under k pairs := by
  simp [under, h]

theorem under_cons_of_ne (h : e.1 ≠ k) : under k (e :: pairs) = under k pairs := by
  simp [under, h]

/-- Of sorted entries with one digest, the last is kept. -/
theorem under_keepLast (h : Sorted pairs) (k : HashKey) :
    under k (keepLast pairs) = (under k pairs).getLast?.toList := by
  induction pairs with
  | nil => rfl
  | cons e pairs ih =>
    obtain ⟨he, hrest⟩ := List.pairwise_cons.1 h
    have hsorted : Sorted (keepLast pairs) := (Sorted.keepLast hrest).1
    have hsubset := Value.Every.keepLast_subset pairs
    have ih := ih hrest
    rw [Value.Every.keepLast_cons]
    generalize keepLast pairs = kept at hsorted hsubset ih
    by_cases hk : e.1 = k
    · rw [under_cons_of_eq hk, List.getLast?_cons]
      cases kept with
      | nil =>
        have hnone : (under k pairs).getLast? = none := by simpa [under] using ih.symm
        rw [hnone]
        exact under_cons_of_eq hk
      | cons f kept =>
        dsimp only
        cases hlast : (under k pairs).getLast? with
        | none =>
          rw [hlast] at ih
          have hne : f.1 ≠ e.1 := by
            intro heq
            rw [under_cons_of_eq (heq.trans hk)] at ih
            cases ih
          rw [if_neg hne, under_cons_of_eq hk, ih]
          rfl
        | some g =>
          -- What was kept starts with the digest of `e`, since it lies between `e` and `g`.
          rw [hlast] at ih
          have hg : g ∈ f :: kept ∧ g.1 = k := mem_under.1 (ih ▸ List.mem_singleton_self g)
          have hle : e.1.le f.1 = true := he f (hsubset (List.mem_cons_self ..))
          have hge : f.1.le e.1 = true := by
            obtain rfl | hmem := List.mem_cons.1 hg.1
            · rw [hk, hg.2]
              simpa using HashKey.le_total k k
            · rw [hk, ← hg.2]
              exact (List.pairwise_cons.1 hsorted).1 g hmem
          rw [if_pos (HashKey.le_antisymm hge hle), ih]
          rfl
    · rw [under_cons_of_ne hk]
      cases kept with
      | nil => exact (under_cons_of_ne hk).trans ih
      | cons f kept =>
        dsimp only
        split
        · exact ih
        · exact (under_cons_of_ne hk).trans ih

/-- Sorting leaves the pairs with one digest in their order. -/
theorem under_mergeSort (pairs : List Entry) (k : HashKey) :
    under k (pairs.mergeSort fun a b => a.1.le b.1) = under k pairs := by
  apply filter_mergeSort
  · intro a b c hab hbc
    exact HashKey.le_trans hab hbc
  · intro a b
    exact HashKey.le_total a.1 b.1
  · apply List.pairwise_of_forall_mem_list
    intro a ha b hb
    rw [(mem_under.1 ha).2, (mem_under.1 hb).2]
    simpa using HashKey.le_total k k

theorem under_file (pairs : List Entry) (k : HashKey) :
    under k (file pairs) = (under k pairs).getLast?.toList := by
  rw [file, under_keepLast (sorted_mergeSort pairs), under_mergeSort]

/-- What is found under a digest is what was filed last under it. -/
theorem find?_file (pairs : List Entry) (k : HashKey) :
    find? (file pairs) k = (under k pairs).getLast?.map (·.2) := by
  have hhead : (file pairs).find? (·.1 == k) = (under k pairs).getLast? := by
    rw [← List.head?_filter, ← under, under_file]
    cases (under k pairs).getLast? <;> rfl
  rw [find?, hhead]

/-- The pairs that no later one replaces. -/
def lasting : List Entry → List Entry
  | [] => []
  | e :: pairs => if under e.1 pairs = [] then e :: lasting pairs else lasting pairs

theorem under_eq_nil : under k pairs = [] ↔ ∀ e ∈ pairs, e.1 ≠ k := by
  simp [under, List.filter_eq_nil_iff]

theorem mem_lasting : e ∈ lasting pairs ↔ (under e.1 pairs).getLast? = some e := by
  induction pairs with
  | nil => simp [lasting, under]
  | cons f pairs ih =>
    rw [lasting]
    by_cases hkey : f.1 = e.1
    · rw [under_cons_of_eq hkey, List.getLast?_cons, hkey]
      cases hlast : (under e.1 pairs).getLast? with
      | none =>
        rw [if_pos (List.getLast?_eq_none_iff.1 hlast), List.mem_cons, ih, hlast]
        simp [eq_comm]
      | some g =>
        have hne : under e.1 pairs ≠ [] := by
          intro hnil
          simp [hnil] at hlast
        rw [if_neg hne, ih, hlast]
        rfl
    · have hne : e ≠ f := by
        rintro rfl
        exact hkey rfl
      rw [under_cons_of_ne hkey, ← ih]
      split
      · simp [hne]
      · rfl

theorem lasting_subset (pairs : List Entry) : lasting pairs ⊆ pairs := by
  intro e he
  exact (mem_under.1 (List.mem_of_getLast? (mem_lasting.1 he))).1

theorem distinct_lasting (pairs : List Entry) : Distinct (lasting pairs) := by
  induction pairs with
  | nil => exact .nil
  | cons e pairs ih =>
    rw [lasting]
    split
    · next hnil =>
      refine List.pairwise_cons.2 ⟨?_, ih⟩
      intro f hf heq
      exact under_eq_nil.1 hnil f (lasting_subset pairs hf) heq.symm
    · exact ih

theorem lasting_of_distinct (h : Distinct pairs) : lasting pairs = pairs := by
  induction pairs with
  | nil => rfl
  | cons e pairs ih =>
    obtain ⟨he, hrest⟩ := List.pairwise_cons.1 h
    have hnil : under e.1 pairs = [] := under_eq_nil.2 fun f hf => (he f hf).symm
    rw [lasting, if_pos hnil, ih hrest]

theorem Distinct.nodup (h : Distinct pairs) : pairs.Nodup :=
  h.imp fun hne heq => hne (congrArg Prod.fst heq)

/-- The entries of a hash are the pairs that no later one replaces. -/
theorem file_perm_lasting (pairs : List Entry) : (file pairs).Perm (lasting pairs) := by
  rw [List.perm_ext_iff_of_nodup (distinct_file pairs).nodup (distinct_lasting pairs).nodup]
  intro e
  rw [mem_lasting, ← Option.mem_toList, ← under_file, mem_under]
  exact (and_iff_left rfl).symm

theorem length_flatten (pairs : List Entry) : (flatten pairs).length = 2 * pairs.length := by
  induction pairs with
  | nil => rfl
  | cons e pairs ih =>
    change (flatten pairs).length + 2 = 2 * (pairs.length + 1)
    omega

/-- No two different strings among the keys have one digest. -/
def Apart (pairs : List Entry) : Prop :=
  ∀ e ∈ pairs, ∀ f ∈ pairs, ∀ s t, e.2.1 = .string s → f.2.1 = .string t →
    s.digest = t.digest → s = t

theorem Apart.distinct (h : Apart pairs) (hkeys : ∀ e ∈ pairs, e.2.1.hashKey? = some e.1)
    (hdifferent : pairs.Pairwise fun e f => e.2.1.same f.2.1 = false) : Distinct pairs := by
  refine hdifferent.imp_of_mem ?_
  intro e f he hf hsame heq
  have hf' : f.2.1.hashKey? = some e.1 := by rw [hkeys f hf, heq]
  rw [Value.same_of_hashKey (hkeys e he) hf' (h e he f hf)] at hsame
  cases hsame

/-- A key finds the value of the pair that was filed last under its digest, if this has the key. -/
theorem index_hash_file (pairs : List Entry) {key : Value} (hkey : key.hashKey? = some k) :
    Value.index (.hash (file pairs)) key =
      .ok ((under k pairs).getLast?.elim .null fun e =>
        if e.2.1.same key then e.2.2 else .null) := by
  rw [Value.index, hkey]
  dsimp only
  rw [find?_file]
  cases (under k pairs).getLast? with
  | none => rfl
  | some e => rfl

/-- The key of a pair finds its value, unless a later pair replaces it. -/
theorem index_file (hkeys : ∀ f ∈ before ++ e :: after, f.2.1.hashKey? = some f.1)
    (hdifferent : (before ++ e :: after).Pairwise fun f g => f.2.1.same g.2.1 = false) :
    Value.index (.hash (file (before ++ e :: after))) e.2.1 =
      .ok (if under e.1 after = [] then e.2.2 else .null) := by
  have hkey : e.2.1.hashKey? = some e.1 := hkeys e (by simp)
  have hunder : under e.1 (before ++ e :: after) = under e.1 before ++ e :: under e.1 after := by
    simp [under]
  rw [index_hash_file _ hkey, hunder, List.getLast?_append, List.getLast?_cons]
  cases hlast : (under e.1 after).getLast? with
  | none =>
    have hsame : e.2.1.same e.2.1 = true := Value.same_self_of_hashKey hkey
    rw [if_pos (List.getLast?_eq_none_iff.1 hlast)]
    simp [hsame]
  | some f =>
    have hmem : f ∈ under e.1 after := List.mem_of_getLast? hlast
    have hsame : f.2.1.same e.2.1 = false := by
      rw [Value.same_comm]
      exact (List.pairwise_cons.1 (List.pairwise_append.1 hdifferent).2.1).1 f (mem_under.1 hmem).1
    rw [if_neg (List.ne_nil_of_mem hmem)]
    simp [hsame]

end Entry

/-! ### Instructions -/

namespace Exec

variable {m : Machine} {S : List Value} {pairs : List Entry} {Q : Unit → Machine → Prop}
  {E : Fault → Machine → Prop}

/-- A stack is not full when values have been taken from it. -/
theorem ne_size_of_taken {m' : Machine} (hagrees : m.Agrees m') (hfits : m.Fits) (hfits' : m'.Fits)
    (hlt : m'.live.length < m.live.length) : m'.sp ≠ m'.stack.size := by
  have hle : m.sp ≤ m.stack.size := hfits
  rw [hfits.length_live, hfits'.length_live] at hlt
  rw [hagrees.size]
  omega

/-- Keys and values become a hash. There is room for it where they were. -/
theorem hash_sat [Casing] (hfits : m.Fits) (hlive : m.live = S ++ Entry.flatten pairs)
    (hkeys : ∀ e ∈ pairs, e.2.1.hashKey? = some e.1)
    (hok : ∀ m', m.Agrees m' → m'.Fits → m'.live = S ++ [.hash (Entry.file pairs)] → Q () m')
    (hfull : pairs = [] → m.sp = m.stack.size → ∀ m', E .stackOverflow m') :
    Sat (exec ⟨.hash, [pairs.length]⟩) m Q E := by
  have hlength : (Entry.flatten pairs).length = 2 * pairs.length := Entry.length_flatten pairs
  refine .bind (.top hfits hlive hlength (.bind (.attempt ?_ ?_)))
  · intro entries hentries
    rw [Entry.pairUp_flatten hkeys] at hentries
    obtain rfl := Except.ok.inj hentries
    refine .bind (.drop hfits hlive hlength ?_)
    intro m₁ hagrees₁ hfits₁ hlive₁
    refine .push hfits₁ ?_ ?_
    · intro m₂ hagrees₂ hfits₂ hlive₂ _
      exact hok m₂ (hagrees₁.trans hagrees₂) hfits₂ (by rw [hlive₂, hlive₁]; rfl)
    · intro hsp
      have hnil : pairs = [] := by
        by_contra hne
        have hpos : 0 < pairs.length := List.length_pos_iff.2 hne
        apply ne_size_of_taken hagrees₁ hfits hfits₁ _ hsp
        rw [hlive, hlive₁, List.length_append]
        omega
      have hsp' : m.sp = m₁.sp := by
        rw [← hfits.length_live, ← hfits₁.length_live, hlive, hlive₁, hnil]
        simp [Entry.flatten]
      exact hfull hnil (by rw [hsp', hsp, hagrees₁.size]) m₁
  · intro f hf
    rw [Entry.pairUp_flatten hkeys] at hf
    cases hf

/-- A value and a key become what is found. There is room for it where they were. -/
theorem index_sat [Casing] {left i v : Value} {operands : List Nat} (hfits : m.Fits)
    (hlive : m.live = S ++ [left, i]) (hv : left.index i = .ok v)
    (hok : ∀ m', m.Agrees m' → m'.Fits → m'.live = S ++ [v] → Q () m') :
    Sat (exec ⟨.index, operands⟩) m Q E := by
  have hlive' : m.live = (S ++ [left]) ++ [i] := by simp [hlive]
  refine .bind (.pop hfits hlive' ?_)
  intro m₁ hagrees₁ hfits₁ hlive₁ _
  refine .bind (.pop hfits₁ hlive₁ ?_)
  intro m₂ hagrees₂ hfits₂ hlive₂ _
  rw [hv]
  refine .push hfits₂ ?_ ?_
  · intro m₃ hagrees₃ hfits₃ hlive₃ _
    exact hok m₃ ((hagrees₁.trans hagrees₂).trans hagrees₃) hfits₃ (by rw [hlive₃, hlive₂])
  · intro hsp
    apply absurd hsp
    apply ne_size_of_taken (hagrees₁.trans hagrees₂) hfits hfits₂
    simp [hlive, hlive₂]

/-- Indexing the hash with the key yields the value. -/
def Reads [Casing] (entries : List Entry) (key v : Value) : Prop :=
  ∀ (m : Machine) (T : List Value), m.Fits → m.live = T ++ [.hash entries, key] →
    Sat (exec ⟨.index, []⟩) m (fun _ m' => m.Agrees m' ∧ m'.Fits ∧ m'.live = T ++ [v])
      fun _ _ => False

theorem reads_of_index [Casing] {entries : List Entry} {key v : Value}
    (h : Value.index (.hash entries) key = .ok v) : Reads entries key v := by
  intro m T hfits hlive
  exact index_sat hfits hlive h fun m' hagrees hfits' hlive' => ⟨hagrees, hfits', hlive'⟩

/-- From pairs with different keys a hash is built that keeps those which no later pair replaces: a
pair is replaced by a later one whose key has the same digest, and is then read as null. If no two
strings have one digest, all pairs are kept, and each key reads its value. -/
theorem hash_keeps_lasting [Casing] (hfits : m.Fits) (hlive : m.live = S ++ Entry.flatten pairs)
    (hkeys : ∀ e ∈ pairs, e.2.1.hashKey? = some e.1)
    (hdifferent : pairs.Pairwise fun e f => e.2.1.same f.2.1 = false) :
    Sat (exec ⟨.hash, [pairs.length]⟩) m
      (fun _ m' => ∃ entries, m.Agrees m' ∧ m'.Fits ∧ m'.live = S ++ [.hash entries] ∧
        entries.Perm (Entry.lasting pairs) ∧
        (∀ before e after, pairs = before ++ e :: after →
          Reads entries e.2.1 (if ∀ f ∈ after, f.1 ≠ e.1 then e.2.2 else .null)) ∧
        (Entry.Apart pairs →
          entries.length = pairs.length ∧ ∀ e ∈ pairs, Reads entries e.2.1 e.2.2))
      fun f _ => f = .stackOverflow ∧ pairs = [] ∧ m.sp = m.stack.size := by
  have hreads (before : List Entry) (e : Entry) (after : List Entry)
      (hpairs : pairs = before ++ e :: after) :
      Reads (Entry.file pairs) e.2.1 (if ∀ f ∈ after, f.1 ≠ e.1 then e.2.2 else .null) := by
    subst hpairs
    have hindex := Entry.index_file hkeys hdifferent
    simp only [Entry.under_eq_nil] at hindex
    exact reads_of_index hindex
  refine hash_sat hfits hlive hkeys ?_ fun hnil hsp _ => ⟨rfl, hnil, hsp⟩
  intro m' hagrees hfits' hlive'
  refine ⟨Entry.file pairs, hagrees, hfits', hlive', Entry.file_perm_lasting pairs, hreads, ?_⟩
  intro hapart
  have hdistinct : Entry.Distinct pairs := hapart.distinct hkeys hdifferent
  constructor
  · rw [(Entry.file_perm_lasting pairs).length_eq, Entry.lasting_of_distinct hdistinct]
  · intro e he
    obtain ⟨before, after, hpairs⟩ := List.append_of_mem he
    have hlast : ∀ f ∈ after, f.1 ≠ e.1 := by
      rw [hpairs] at hdistinct
      intro f hf
      exact ((List.pairwise_cons.1 (List.pairwise_append.1 hdistinct).2.1).1 f hf).symm
    have hread := hreads before e after hpairs
    rwa [if_pos hlast] at hread

/-- Two strings with one digest, and a boolean: the first string is lost. -/
theorem hash_keeps_lasting_collision :
    let m : Machine :=
      { (default : Machine) with
        stack := #[.string "!0IC=VloaY", .int 1, .string "QvXtM>@Fp%", .int 2, .bool true, .int 3]
        sp := 6 }
    Sat (exec ⟨.hash, [3]⟩) m
      (fun _ m' => ∃ entries, m'.live = [.hash entries] ∧ entries.length = 2 ∧
        Reads entries (.string "!0IC=VloaY") .null ∧ Reads entries (.string "QvXtM>@Fp%") (.int 2) ∧
        Reads entries (.bool true) (.int 3))
      fun _ _ => False := by
  intro m
  let first : Entry := (⟨.string, 0⟩, .string "!0IC=VloaY", .int 1)
  let second : Entry := (⟨.string, 0⟩, .string "QvXtM>@Fp%", .int 2)
  let third : Entry := (⟨.bool, 1⟩, .bool true, .int 3)
  have hkeys : ∀ e ∈ [first, second, third], e.2.1.hashKey? = some e.1 := by decide +kernel
  have hdifferent : [first, second, third].Pairwise fun e f => e.2.1.same f.2.1 = false := by
    decide +kernel
  refine (hash_keeps_lasting (m := m) (S := []) (Nat.le_refl 6) rfl hkeys hdifferent).mono ?_ ?_
  · rintro _ m' ⟨entries, -, -, hlive, hperm, hreads, -⟩
    refine ⟨entries, hlive, hperm.length_eq, ?_, ?_, ?_⟩
    · exact hreads [] first [second, third] rfl
    · exact hreads [first] second [third] rfl
    · exact hreads [first, second] third [] rfl
  · rintro f m' ⟨-, hnil, -⟩
    cases hnil

end Exec

end StackScript
