import StackScript.Proofs.Machine.Insertion
import StackScript.Proofs.Tree.Spelling

/-!
# The order of entries does not show

A hash is shown by the texts of its entries, each of a key and a value, in the
order of these texts. Entries may have the same text, as those of `1` and `"1"`
do, but texts that precede each other are equal, so it does not matter which of
the entries comes first. Whatever order the entries are kept in, in this hash or
in those inside it, the text is the same.

## Main definitions

* `Value.Reorders`: one hash somewhere in a value has its entries in another order.

## Main results

* `Bytes.mergeSort_eq_of_perm`: texts have one order.
* `Value.inspect_hash_eq_of_perm`: a hash is known by the texts of its entries.
* `Value.inspect_reordered`: a value has one text, however the entries of its
  hashes are ordered.
-/

namespace StackScript

theorem Bytes.mergeSort_eq_of_perm {texts texts' : List Bytes} (h : texts.Perm texts') :
    texts.mergeSort le = texts'.mergeSort le := by
  have hsorted (texts : List Bytes) : (texts.mergeSort le).Pairwise fun s t => le s t = true := by
    apply List.pairwise_mergeSort
    · intro s t u
      exact le_trans
    · exact le_total
  have hperm : (texts.mergeSort le).Perm (texts'.mergeSort le) :=
    ((List.mergeSort_perm texts le).trans h).trans (List.mergeSort_perm texts' le).symm
  exact hperm.eq_of_pairwise (fun _ _ _ _ => le_antisymm) (hsorted texts) (hsorted texts')

namespace Value

variable {v w : Value}

/-! ### Texts of arrays and hashes -/

theorem inspect_array_congr (before after : List Value) (h : v.inspect = w.inspect) :
    (array (before ++ v :: after)).inspect = (array (before ++ w :: after)).inspect := by
  rw [inspect_array, inspect_array, List.map_append, List.map_append, List.map_cons, List.map_cons, h]

theorem inspect_hash_eq_of_perm {entries entries' : List Entry}
    (h : (entries.map entryText).Perm (entries'.map entryText)) :
    (hash entries).inspect = (hash entries').inspect := by
  rw [inspect, inspect, inspectEntries_eq, inspectEntries_eq, List.reverse_nil, List.nil_append,
    List.nil_append, Bytes.mergeSort_eq_of_perm h]

theorem inspect_hash_congr {e e' : Entry} (before after : List Entry)
    (h : entryText e = entryText e') :
    (hash (before ++ e :: after)).inspect = (hash (before ++ e' :: after)).inspect := by
  apply inspect_hash_eq_of_perm
  rw [List.map_append, List.map_append, List.map_cons, List.map_cons, h]

/-! ### Hashes in other orders -/

/-- The second value is the first one with the entries of one hash in another order. The hash is the
value itself or lies somewhere in it: in an array, in a key or a value of another hash, or in what a
closure has captured. -/
inductive Reorders : Value → Value → Prop
  | entries {entries entries' : List Entry} (h : entries.Perm entries') :
    Reorders (.hash entries) (.hash entries')
  | item {v w : Value} (before after : List Value) (h : Reorders v w) :
    Reorders (.array (before ++ v :: after)) (.array (before ++ w :: after))
  | key {v w : Value} (before after : List Entry) (k : HashKey) (value : Value) (h : Reorders v w) :
    Reorders (.hash (before ++ (k, v, value) :: after)) (.hash (before ++ (k, w, value) :: after))
  | value {v w : Value} (before after : List Entry) (k : HashKey) (key : Value) (h : Reorders v w) :
    Reorders (.hash (before ++ (k, key, v) :: after)) (.hash (before ++ (k, key, w) :: after))
  | captured {v w : Value} (id : Nat) (fn : Option Function) (before after : List Value)
      (h : Reorders v w) :
    Reorders (.closure id fn (before ++ v :: after)) (.closure id fn (before ++ w :: after))

/-- Around a hash whose text stays the same, all texts do. -/
theorem Reorders.inspect_eq (h : v.Reorders w) : v.inspect = w.inspect := by
  -- The induction goes from the reordered hash outwards to the whole value.
  induction h with
  | entries h => exact inspect_hash_eq_of_perm (h.map entryText)
  | item before after _ ih => exact inspect_array_congr before after ih
  | key before after k value _ ih =>
    apply inspect_hash_congr
    rw [entryText, entryText, ih]
  | value before after k key _ ih =>
    apply inspect_hash_congr
    rw [entryText, entryText, ih]
  | captured id fn before after => rw [inspect, inspect]

/-- The text of a value does not depend on the order of entries: if the hashes in a value, at any
depth and as many as one likes, have their entries in other orders, the value is shown as before. -/
theorem inspect_reordered (h : Relation.ReflTransGen Reorders v w) : v.inspect = w.inspect := by
  induction h with
  | refl => rfl
  | tail _ hstep ih => exact ih.trans hstep.inspect_eq

/-- A hash in an array in a hash. Both hashes are reordered, and the outer one has two entries with
the same text. -/
theorem inspect_reordered_nested :
    let one : Entry := (⟨.int, 1⟩, .int 1, .null)
    let text : Entry := (⟨.string, Bytes.digest "1"⟩, .string "1", .null)
    let yes : Entry := (⟨.bool, 1⟩, .bool true, .int 5)
    let no : Entry := (⟨.bool, 0⟩, .bool false, .int 6)
    let list (entries : List Entry) : Entry := (⟨.int, 0⟩, .int 0, .array [.null, .hash entries])
    let v : Value := .hash [one, list [no, yes], text]
    let w : Value := .hash [text, one, list [yes, no]]
    Relation.ReflTransGen Reorders v w ∧ v.inspect = w.inspect ∧
      v.inspect = "{0: [null, {false: 6, true: 5}], 1: null, 1: null}" := by
  intro one text yes no list v w
  have hinner : v.Reorders (.hash [one, list [yes, no], text]) :=
    .value [one] [text] _ _ (.item [.null] [] (.entries (.swap yes no [])))
  have houter : Reorders (.hash [one, list [yes, no], text]) w :=
    .entries (List.perm_append_singleton text [one, list [yes, no]])
  have hreorders : Relation.ReflTransGen Reorders v w := .tail (.single hinner) houter
  have hno : (Value.hash [no, yes]).inspect = "{false: 6, true: 5}" := by
    rw [inspect, List.mergeSort_of_pairwise (by decide +kernel)]
    decide +kernel
  have hsorted : (Value.hash [list [no, yes], one, text]).inspect =
      "{0: [null, {false: 6, true: 5}], 1: null, 1: null}" := by
    simp only [list, inspect, inspectEntries, inspectItems] at hno ⊢
    rw [hno, List.mergeSort_of_pairwise (by decide +kernel)]
    decide +kernel
  have hswap : v.Reorders (.hash [list [no, yes], one, text]) := .entries (.swap _ _ _)
  exact ⟨hreorders, inspect_reordered hreorders, (inspect_reordered (.single hswap)).trans hsorted⟩

end Value

end StackScript
