import Mathlib.Data.List.Induction
import StackScript.Proofs.Compile.Scheme
import StackScript.Proofs.Machine.Hashes

/-!
# The order in which pairs go into a hash

A hash is what comes of putting pairs into it one after another, where a pair
takes the place of an earlier one whose key has the same digest. The pairs of a
literal are put in by the texts of their keys, and pairs whose keys have one text
as they are written. This order is seen only in the pairs that replace each
other.

## Main definitions

* `Entry.insert`: a pair goes into a hash.
* `Value.hashOf`: the hash of pairs that are put in one after another.
* `Expr.byText`: the pairs of a literal with their values, by the texts of the keys.

## Main results

* `Entry.foldl_insert`: putting pairs in one after another is filing them.
* `Expr.exists_byText`: values in the order of the texts belong to the pairs as they are written.
* `Value.hashOf_byText`: when the order of the texts gives the same hash as that of the pairs.
-/

namespace StackScript

namespace Bytes

theorem le_total (s t : Bytes) : (le s t || le t s) = true := by
  induction s generalizing t with
  | nil => rfl
  | cons a s ih =>
    cases t with
    | nil => rfl
    | cons b t =>
      rw [le, le]
      by_cases heq : a = b
      · subst heq
        simpa using ih t
      · rcases UInt8.le_total a b with hle | hle
        · simp [UInt8.lt_of_le_of_ne hle heq]
        · simp [UInt8.lt_of_le_of_ne hle (Ne.symm heq)]

theorem le_trans {s t u : Bytes} (h : le s t = true) (h' : le t u = true) : le s u = true := by
  induction s generalizing t u with
  | nil => rfl
  | cons a s ih =>
    cases t with
    | nil => cases h
    | cons b t =>
      cases u with
      | nil => cases h'
      | cons c u =>
        simp only [le, Bool.or_eq_true, Bool.and_eq_true, decide_eq_true_eq, beq_iff_eq] at h h' ⊢
        obtain hab | ⟨rfl, hst⟩ := h
        · obtain hbc | ⟨rfl, -⟩ := h'
          · exact .inl (UInt8.lt_trans hab hbc)
          · exact .inl hab
        · obtain hac | ⟨rfl, htu⟩ := h'
          · exact .inl hac
          · exact .inr ⟨rfl, ih hst htu⟩

theorem le_antisymm {s t : Bytes} (h : le s t = true) (h' : le t s = true) : s = t := by
  induction s generalizing t with
  | nil =>
    cases t with
    | nil => rfl
    | cons b t => cases h'
  | cons a s ih =>
    cases t with
    | nil => cases h
    | cons b t =>
      simp only [le, Bool.or_eq_true, Bool.and_eq_true, decide_eq_true_eq, beq_iff_eq] at h h'
      obtain hab | ⟨rfl, hst⟩ := h
      · obtain hba | ⟨rfl, -⟩ := h'
        · exact absurd hba (UInt8.lt_asymm hab)
        · exact absurd hab (UInt8.lt_irrefl _)
      · obtain haa | ⟨-, hts⟩ := h'
        · exact absurd haa (UInt8.lt_irrefl _)
        · rw [ih hst hts]

end Bytes

/-! ### Pairs that replace each other -/

namespace Entry

variable {pairs pairs' : List Entry}

/-- A hash is known by the pairs that come last. -/
theorem file_eq_file (h : ∀ k, (under k pairs).getLast? = (under k pairs').getLast?) :
    file pairs = file pairs' := by
  have hlasting : (lasting pairs).Perm (lasting pairs') := by
    rw [List.perm_ext_iff_of_nodup (distinct_lasting _).nodup (distinct_lasting _).nodup]
    intro e
    rw [mem_lasting, mem_lasting, h]
  have hperm : (file pairs).Perm (file pairs') :=
    (file_perm_lasting pairs).trans (hlasting.trans (file_perm_lasting pairs').symm)
  calc
    file pairs = file (file pairs) := (file_file pairs).symm
    _ = file (file pairs') := file_perm hperm (distinct_file pairs')
    _ = file pairs' := file_file pairs'

/-- A pair goes into a hash, in the place of the one with its digest. -/
def insert (entries : List Entry) (e : Entry) : List Entry :=
  (entries.filter (·.1 != e.1) ++ [e]).mergeSort fun a b => a.1.le b.1

theorem insert_file (pairs : List Entry) (e : Entry) :
    insert (file pairs) e = file (pairs ++ [e]) := by
  have hdistinct : Distinct ((file pairs).filter (·.1 != e.1) ++ [e]) := by
    refine List.pairwise_append.2 ⟨(distinct_file pairs).filter _, List.pairwise_singleton _ _, ?_⟩
    intro f hf g hg
    obtain rfl := List.mem_singleton.1 hg
    simpa using (List.mem_filter.1 hf).2
  rw [insert, ← file_of_distinct hdistinct]
  apply file_eq_file
  intro k
  rw [under, under, List.filter_append, List.filter_append]
  by_cases hk : e.1 = k
  · simp [hk]
  · have hother : ((file pairs).filter (·.1 != e.1)).filter (·.1 == k) = under k (file pairs) := by
      rw [List.filter_filter, under]
      apply List.filter_congr
      intro f _
      by_cases hf : f.1 = k
      · simp [hf, Ne.symm hk]
      · simp [hf]
    have hnone : [e].filter (·.1 == k) = [] := by simp [hk]
    rw [hother, hnone, List.append_nil, List.append_nil, under_file, ← under]
    cases (under k pairs).getLast? <;> rfl

/-- Putting pairs in one after another is filing them. -/
theorem foldl_insert (pairs : List Entry) : pairs.foldl insert [] = file pairs := by
  induction pairs using List.reverseRecOn with
  | nil => simp [file, keepLast]
  | append_singleton pairs e ih =>
    rw [List.foldl_append, ih, ← insert_file]
    rfl

/-- A key and a value as an entry, if the key can be filed. -/
def ofPair? (p : Value × Value) : Option Entry := p.1.hashKey?.map fun k => (k, p)

theorem under_ofPairs {α : Type} (k : HashKey) (l : List (α × Value × Value)) :
    under k ((l.map (·.2)).filterMap ofPair?) =
      ((l.filter fun p => p.2.1.hashKey? == some k).map (·.2)).filterMap ofPair? := by
  induction l with
  | nil => rfl
  | cons p l ih =>
    rw [List.map_cons, List.filterMap_cons, List.filter_cons]
    cases hkey : p.2.1.hashKey? with
    | none => simpa [ofPair?, hkey] using ih
    | some k' =>
      by_cases hk : k' = k
      · simpa [ofPair?, hkey, hk, under] using ih
      · simpa [ofPair?, hkey, hk, under] using ih

/-- Keys that can be filed make entries of all pairs. -/
theorem exists_ofPair? {pairs : List (Value × Value)} (h : ∀ p ∈ pairs, p.1.hashKey? ≠ none) :
    ∃ entries, pairs.filterMap ofPair? = entries ∧ entries.map (·.2) = pairs ∧
      ∀ e ∈ entries, e.2.1.hashKey? = some e.1 := by
  induction pairs with
  | nil => exact ⟨[], rfl, rfl, nofun⟩
  | cons p pairs ih =>
    obtain ⟨entries, hentries, hpairs, hkeys⟩ := ih fun q hq => h q (List.mem_cons_of_mem p hq)
    obtain ⟨k, hk⟩ := Option.ne_none_iff_exists'.1 (h p (List.mem_cons_self ..))
    refine ⟨(k, p) :: entries, ?_, ?_, ?_⟩
    · rw [List.filterMap_cons, ofPair?, hk, hentries]
      rfl
    · rw [List.map_cons, hpairs]
    · intro e he
      obtain rfl | he := List.mem_cons.1 he
      · exact hk
      · exact hkeys e he

end Entry

/-- The hash of pairs that are put in one after another. Pairs whose keys cannot be filed are left
out. -/
def Value.hashOf (pairs : List (Value × Value)) : Value :=
  .hash ((pairs.filterMap Entry.ofPair?).foldl Entry.insert [])

/-! ### Pairs by the texts of their keys -/

/-- A list in two parts is taken apart by what tells them apart. -/
theorem filter_parts {α : Type} {p : α → Bool} {s₁ s₂ : List α} (h₁ : ∀ a ∈ s₁, p a = false)
    (h₂ : ∀ a ∈ s₂, p a = true) :
    ((s₁ ++ s₂).filter fun a => !p a) = s₁ ∧ (s₁ ++ s₂).filter p = s₂ := by
  rw [List.filter_append, List.filter_append]
  constructor
  · rw [List.filter_eq_self.2 (by simpa using h₁), List.filter_eq_nil_iff.2 (by simpa using h₂),
      List.append_nil]
  · rw [List.filter_eq_self.2 h₂, List.filter_eq_nil_iff.2 (by simpa using h₁), List.nil_append]

section Sorting

variable {α β : Type} (le : α → α → Bool)
  (htrans : ∀ a b c, le a b = true → le b c = true → le a c = true)
  (htotal : ∀ a b, (le a b || le b a) = true)

include htrans htotal

/-- An element is sorted in between those that are less and those that are not. -/
theorem exists_parts_mergeSort (a : α) (l : List α) :
    ∃ l₁ l₂, (a :: l).mergeSort le = l₁ ++ a :: l₂ ∧ l.mergeSort le = l₁ ++ l₂ ∧
      (∀ b ∈ l₁, le a b = false) ∧ ∀ b ∈ l₂, le a b = true := by
  obtain ⟨l₁, l₂, hcons, hl, hless⟩ := List.mergeSort_cons htrans htotal a l
  have hsorted := List.pairwise_mergeSort htrans htotal (a :: l)
  rw [hcons] at hsorted
  refine ⟨l₁, l₂, hcons, hl, ?_, (List.pairwise_cons.1 (List.pairwise_append.1 hsorted).2.1).1⟩
  intro b hb
  simpa using hless b hb

/-- What belongs to the elements of a sorted list belongs to those of the list itself. -/
theorem exists_mergeSort (l : List α) {sorted : List (α × β)}
    (h : sorted.map (·.1) = l.mergeSort le) :
    ∃ l' : List (α × β), l'.map (·.1) = l ∧ l'.mergeSort (fun p q => le p.1 q.1) = sorted := by
  induction l generalizing sorted with
  | nil =>
    rw [List.mergeSort_nil, List.map_eq_nil_iff] at h
    subst h
    exact ⟨[], rfl, List.mergeSort_nil⟩
  | cons a l ih =>
    obtain ⟨l₁, l₂, hcons, hl, hless, hmore⟩ := exists_parts_mergeSort le htrans htotal a l
    rw [hcons, List.map_eq_append_iff] at h
    obtain ⟨s₁, _, rfl, rfl, hs₂⟩ := h
    obtain ⟨⟨a, b⟩, s₂, rfl, rfl, rfl⟩ := List.map_eq_cons_iff.1 hs₂
    rw [← List.map_append] at hl
    obtain ⟨l', rfl, hl'⟩ := ih hl.symm
    obtain ⟨t₁, t₂, hcons', ht, hless', hmore'⟩ :=
      exists_parts_mergeSort (fun p q => le p.1 q.1) (fun p q r => htrans p.1 q.1 r.1)
        (fun p q => htotal p.1 q.1) (a, b) l'
    have hs := filter_parts (p := fun q : α × β => le a q.1) (List.forall_mem_map.1 hless)
      (List.forall_mem_map.1 hmore)
    have ht' := filter_parts hless' hmore'
    rw [← ht, hl'] at ht'
    obtain rfl : t₁ = s₁ := ht'.1.symm.trans hs.1
    obtain rfl : t₂ = s₂ := ht'.2.symm.trans hs.2
    exact ⟨(a, b) :: l', rfl, hcons'⟩

end Sorting

namespace Expr

/-- The pairs of a literal with their values, by the texts of the keys. -/
def byText (evaluated : List ((Expr × Expr) × Value × Value)) :
    List ((Expr × Expr) × Value × Value) :=
  evaluated.mergeSort fun p q => Bytes.le p.1.1.render q.1.1.render

/-- Values in the order of the texts belong to the pairs as they are written. -/
theorem exists_byText {pairs : List (Expr × Expr)} {sorted : List ((Expr × Expr) × Value × Value)}
    (h : sorted.map (·.1) = inOrder pairs) :
    ∃ evaluated, evaluated.map (·.1) = pairs ∧ byText evaluated = sorted :=
  exists_mergeSort (fun p q => Bytes.le p.1.render q.1.render) (fun _ _ _ => Bytes.le_trans)
    (fun _ _ => Bytes.le_total _ _) pairs h

end Expr

/-- If the pairs that replace each other are in the order of the texts, it gives the same hash as the
order in which they are written. -/
theorem Value.hashOf_byText {evaluated : List ((Expr × Expr) × Value × Value)}
    (h : evaluated.Pairwise fun p q => p.2.1.hashKey? = q.2.1.hashKey? →
      Bytes.le p.1.1.render q.1.1.render = true) :
    hashOf ((Expr.byText evaluated).map (·.2)) = hashOf (evaluated.map (·.2)) := by
  rw [hashOf, hashOf, Entry.foldl_insert, Entry.foldl_insert]
  congr 1
  apply Entry.file_eq_file
  intro k
  -- The sort is stable, so it leaves the pairs with one digest in their order.
  have hsorted : (evaluated.filter fun p => p.2.1.hashKey? == some k).Pairwise fun p q =>
      Bytes.le p.1.1.render q.1.1.render = true := by
    refine (h.filter _).imp_of_mem ?_
    intro p q hp hq hle
    have hkey {p : (Expr × Expr) × Value × Value}
        (hp : p ∈ evaluated.filter fun p => p.2.1.hashKey? == some k) : p.2.1.hashKey? = some k :=
      beq_iff_eq.1 (List.mem_filter.1 hp).2
    exact hle ((hkey hp).trans (hkey hq).symm)
  have hfilter : ((Expr.byText evaluated).filter fun p => p.2.1.hashKey? == some k) =
      evaluated.filter fun p => p.2.1.hashKey? == some k := by
    refine filter_mergeSort _ ?_ ?_ hsorted
    · intro p q r hpq hqr
      exact Bytes.le_trans hpq hqr
    · intro p q
      exact Bytes.le_total p.1.1.render q.1.1.render
  rw [Entry.under_ofPairs, Entry.under_ofPairs, hfilter]

end StackScript
