import StackScript.Proofs.Machine.Hashes
import StackScript.Text.Lower

/-!
# Looking up keys in a hash

A key is looked up by its digest, and the pair that is found answers only if it
has the key itself. So a key reads the value of the last pair with its digest, or
null. Kinds have digests of their own, and integers and booleans have one each:
only strings can stand in each other's way. Where none does, a hash is an
association of keys with values in which the last pair wins.

## Main definitions

* `Entry.answer`: what a key reads, by the digests of the keys.
* `Entry.lastSame`: the value of the last pair with the key.
* `Entry.ApartFrom`: no other string among the keys has the digest of the key.

## Main results

* `Entry.index_file_eq`: a key reads its answer.
* `Entry.answer_eq_lastSame`: without a clash of strings the last pair with the key answers.
* `Exec.lookup_never_mistaken`: the two instructions together.
-/

namespace StackScript

namespace Value

variable {a b : Value}

/-- Keys with one digest are of one type. -/
theorem typeName_eq_of_hashKey (ha : a.hashKey? ≠ none) (h : a.hashKey? = b.hashKey?) :
    a.typeName = b.typeName := by
  cases a <;> cases b <;> simp_all [hashKey?, typeName]

theorem hashKey?_eq_of_same (h : a.same b = true) : a.hashKey? = b.hashKey? := by
  cases a <;> cases b <;> simp_all [hashKey?, same]

end Value

namespace Entry

variable {pairs : List Entry} {key : Value}

/-- The value of the last pair whose key has the digest of the key, if it is the same key. -/
def answer (key : Value) (pairs : List Entry) : Value :=
  (pairs.filter fun e => e.2.1.hashKey? == key.hashKey?).getLast?.elim .null fun e =>
    if e.2.1.same key then e.2.2 else .null

/-- The value of the last pair with the same key. -/
def lastSame (key : Value) (pairs : List Entry) : Value :=
  (pairs.filter (·.2.1.same key)).getLast?.elim .null (·.2.2)

/-- No other string among the keys of the pairs has the digest of the key. -/
def ApartFrom (key : Value) (pairs : List Entry) : Prop :=
  ∀ e ∈ pairs, ∀ s t, e.2.1 = .string s → key = .string t → s.digest = t.digest → s = t

/-- A key that can be filed reads its answer. -/
theorem index_file_eq (hkeys : ∀ e ∈ pairs, e.2.1.hashKey? = some e.1) (hkey : key.hashKey? ≠ none) :
    Value.index (.hash (file pairs)) key = .ok (answer key pairs) := by
  obtain ⟨k, hk⟩ := Option.ne_none_iff_exists'.1 hkey
  have hunder : under k pairs = pairs.filter fun e => e.2.1.hashKey? == key.hashKey? := by
    apply List.filter_congr
    intro e he
    rw [hkeys e he, hk]
    rfl
  rw [index_hash_file pairs hk, hunder, answer]

/-- The pairs with the digest of a key are those with the key, if no string is in the way. -/
theorem filter_hashKey_eq (hkey : key.hashKey? ≠ none) (hapart : ApartFrom key pairs) :
    (pairs.filter fun e => e.2.1.hashKey? == key.hashKey?) = pairs.filter (·.2.1.same key) := by
  obtain ⟨k, hk⟩ := Option.ne_none_iff_exists'.1 hkey
  apply List.filter_congr
  intro e he
  rw [Bool.eq_iff_iff, beq_iff_eq]
  constructor
  · intro hdigest
    exact Value.same_of_hashKey (hdigest.trans hk) hk (hapart e he)
  · intro hsame
    exact Value.hashKey?_eq_of_same hsame

theorem answer_eq_lastSame (hkey : key.hashKey? ≠ none) (hapart : ApartFrom key pairs) :
    answer key pairs = lastSame key pairs := by
  rw [answer, lastSame, filter_hashKey_eq hkey hapart]
  cases hlast : (pairs.filter (·.2.1.same key)).getLast? with
  | none => rfl
  | some e =>
    have hsame : e.2.1.same key = true := (List.mem_filter.1 (List.mem_of_getLast? hlast)).2
    exact if_pos hsame

/-- Only keys of the same type matter. -/
theorem answer_ofType (hkey : key.hashKey? ≠ none) :
    answer key (pairs.filter fun e => e.2.1.typeName = key.typeName) = answer key pairs := by
  have hfilter : ((pairs.filter fun e => e.2.1.typeName = key.typeName).filter
      fun e => e.2.1.hashKey? == key.hashKey?) =
        pairs.filter fun e => e.2.1.hashKey? == key.hashKey? := by
    rw [List.filter_filter]
    apply List.filter_congr
    intro e _
    by_cases hdigest : e.2.1.hashKey? = key.hashKey?
    · have htype := Value.typeName_eq_of_hashKey (hdigest ▸ hkey) hdigest
      simp [hdigest, htype]
    · simp [hdigest]
  rw [answer, hfilter, answer]

end Entry

namespace Exec

variable {m : Machine} {S : List Value} {pairs : List Entry}

/-- From keys and values a hash is built in which every key finds its own value or none. What it
reads is the value of the last pair with its digest, if this pair has the key, and null otherwise.
Pairs whose keys are of another type do not matter to it. If no other string has its digest, it
reads the value of the last pair with the key. -/
theorem lookup_never_mistaken [Casing] (hfits : m.Fits) (hlive : m.live = S ++ Entry.flatten pairs)
    (hkeys : ∀ e ∈ pairs, e.2.1.hashKey? = some e.1) :
    Sat (exec ⟨.hash, [pairs.length]⟩) m
      (fun _ m' => ∃ entries, m.Agrees m' ∧ m'.Fits ∧ m'.live = S ++ [.hash entries] ∧
        ∀ key : Value, key.hashKey? ≠ none →
          Reads entries key (Entry.answer key pairs) ∧
          (Entry.ApartFrom key pairs → Reads entries key (Entry.lastSame key pairs)) ∧
          Reads entries key
            (Entry.answer key (pairs.filter fun e => e.2.1.typeName = key.typeName)))
      fun f _ => f = .stackOverflow ∧ pairs = [] ∧ m.sp = m.stack.size := by
  refine hash_sat hfits hlive hkeys ?_ fun hnil hsp _ => ⟨rfl, hnil, hsp⟩
  intro m' hagrees hfits' hlive'
  refine ⟨Entry.file pairs, hagrees, hfits', hlive', ?_⟩
  intro key hkey
  have hreads : Reads (Entry.file pairs) key (Entry.answer key pairs) :=
    reads_of_index (Entry.index_file_eq hkeys hkey)
  refine ⟨hreads, ?_, ?_⟩
  · intro hapart
    rwa [← Entry.answer_eq_lastSame hkey hapart]
  · rwa [Entry.answer_ofType hkey]

/-- A number twice, a boolean, and two strings with one digest: the first string is not taken for
the second, nor the number for the boolean. -/
theorem lookup_never_mistaken_collision :
    let m : Machine :=
      { (default : Machine) with
        stack := #[.string "!0IC=VloaY", .int 1, .int 1, .int 2, .string "QvXtM>@Fp%", .int 3,
          .int 1, .int 4, .bool true, .int 5]
        sp := 10 }
    Sat (exec ⟨.hash, [5]⟩) m
      (fun _ m' => ∃ entries, m'.live = [.hash entries] ∧
        Reads entries (.string "!0IC=VloaY") .null ∧ Reads entries (.string "QvXtM>@Fp%") (.int 3) ∧
        Reads entries (.int 1) (.int 4) ∧ Reads entries (.bool true) (.int 5) ∧
        Reads entries (.bool false) .null)
      fun _ _ => False := by
  intro m
  let pairs : List Entry :=
    [(⟨.string, 0⟩, .string "!0IC=VloaY", .int 1), (⟨.int, 1⟩, .int 1, .int 2),
      (⟨.string, 0⟩, .string "QvXtM>@Fp%", .int 3), (⟨.int, 1⟩, .int 1, .int 4),
      (⟨.bool, 1⟩, .bool true, .int 5)]
  have hkeys : ∀ e ∈ pairs, e.2.1.hashKey? = some e.1 := by decide +kernel
  refine (lookup_never_mistaken (m := m) (S := []) (Nat.le_refl 10) rfl hkeys).mono ?_ ?_
  · rintro _ m' ⟨entries, -, -, hlive, hreads⟩
    have hzero : Bytes.digest "!0IC=VloaY" = 0 := by decide +kernel
    have hzero' : Bytes.digest "QvXtM>@Fp%" = 0 := by decide +kernel
    have hne : Bytes.ofString "QvXtM>@Fp%" ≠ "!0IC=VloaY" := by decide +kernel
    have hfirst : Entry.answer (.string "!0IC=VloaY") pairs = .null := by
      simp [Entry.answer, pairs, Value.hashKey?, Value.same, hzero, hzero', hne]
    have hsecond : Entry.answer (.string "QvXtM>@Fp%") pairs = .int 3 := by
      simp [Entry.answer, pairs, Value.hashKey?, Value.same, hzero, hzero']
    have hnumber : Entry.ApartFrom (.int 1) pairs := by
      intro e he s t hs ht
      cases ht
    refine ⟨entries, hlive, ?_, ?_, ?_, ?_, ?_⟩
    · exact hfirst ▸ (hreads (.string "!0IC=VloaY") (Option.some_ne_none _)).1
    · exact hsecond ▸ (hreads (.string "QvXtM>@Fp%") (Option.some_ne_none _)).1
    · exact (hreads (.int 1) (Option.some_ne_none _)).2.1 hnumber
    · exact (hreads (.bool true) (Option.some_ne_none _)).2.2
    · exact (hreads (.bool false) (Option.some_ne_none _)).1
  · rintro f m' ⟨-, hnil, -⟩
    exact absurd hnil (List.cons_ne_nil _ _)

end Exec

end StackScript
