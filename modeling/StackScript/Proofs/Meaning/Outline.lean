import StackScript.Proofs.Machine.Values

/-!
# Values without code

A closure is known by its identity and its name; operators and builtin functions
do not look at its code or at what it has captured. The outline of a value has
neither. Whatever a program computes from values, it computes from their outlines
in the same way.

## Main definitions

* `Value.outline`: a value with the code of its closures left out.

## Main results

* `Value.arithmetic_outline` and its siblings: operators do not look at code.
* `Builtin.value_outline`, `Builtin.output_outline`: neither do builtin functions.
-/

namespace StackScript

/-- A function of which nothing but the name is left. -/
def Function.outline (f : Function) : Function := ⟨0, f.name, #[], 0, 0⟩

namespace Value

mutual

/-- The value with the code of its closures, and what they have captured, left out. -/
def outline : Value → Value
  | .array items => .array (outlineItems items)
  | .hash entries => .hash (outlineEntries entries)
  | .closure id fn _ => .closure id (fn.map Function.outline) []
  | .null => .null
  | .int n => .int n
  | .bool b => .bool b
  | .string s => .string s
  | .error message => .error message
  | .builtin fn => .builtin fn
  | .function fn => .function fn
  | .noClosure => .noClosure
  | .other kind => .other kind

/-- The elements of an array without code. -/
def outlineItems : List Value → List Value
  | [] => []
  | v :: rest => v.outline :: outlineItems rest

/-- The entries of a hash without code. -/
def outlineEntries : List (HashKey × Value × Value) → List (HashKey × Value × Value)
  | [] => []
  | (k, key, value) :: rest => (k, key.outline, value.outline) :: outlineEntries rest

end

/-- An entry of a hash without code. -/
def outlineEntry (e : Entry) : Entry := (e.1, e.2.1.outline, e.2.2.outline)

theorem outlineItems_eq (items : List Value) : outlineItems items = items.map outline := by
  induction items with
  | nil => rfl
  | cons v rest ih => simp [outlineItems, ih]

theorem outlineEntries_eq (entries : List Entry) :
    outlineEntries entries = entries.map outlineEntry := by
  induction entries with
  | nil => rfl
  | cons e rest ih => simp [outlineEntries, outlineEntry, ih]

@[simp] theorem outline_array (items : List Value) :
    (Value.array items).outline = .array (items.map outline) := by
  rw [outline, outlineItems_eq]

@[simp] theorem outline_hash (entries : List Entry) :
    (Value.hash entries).outline = .hash (entries.map outlineEntry) := by
  rw [outline, outlineEntries_eq]

/-! ### Kinds, keys and comparison -/

@[simp] theorem typeName_outline (v : Value) : v.outline.typeName = v.typeName := by
  cases v <;> rfl

@[simp] theorem truthy_outline (v : Value) : v.outline.truthy = v.truthy := by
  cases v <;> rfl

@[simp] theorem hashKey?_outline (v : Value) : v.outline.hashKey? = v.hashKey? := by
  cases v <;> rfl

@[simp] theorem same_outline (v w : Value) : v.outline.same w.outline = v.same w := by
  cases v <;> cases w <;> rfl

/-! ### Texts -/

mutual

@[simp] theorem inspect_outline : (v : Value) → v.outline.inspect = v.inspect
  | .array items => by rw [outline, inspect, inspect, inspectItems_outline]
  | .hash entries => by rw [outline, inspect, inspect, inspectEntries_outline]
  | .closure id none free => rfl
  | .closure id (some fn) free => rfl
  | .null | .int _ | .bool _ | .string _ | .error _ | .builtin _ | .function _ | .noClosure
  | .other _ => rfl

theorem inspectItems_outline (acc : List Bytes) : (items : List Value) →
    inspectItems acc (outlineItems items) = inspectItems acc items
  | [] => rfl
  | v :: rest => by
    rw [outlineItems, inspectItems, inspectItems, inspect_outline v, inspectItems_outline]

theorem inspectEntries_outline (acc : List Bytes) : (entries : List (HashKey × Value × Value)) →
    inspectEntries acc (outlineEntries entries) = inspectEntries acc entries
  | [] => rfl
  | (k, key, value) :: rest => by
    rw [outlineEntries, inspectEntries, inspectEntries, inspect_outline key, inspect_outline value,
      inspectEntries_outline]

end

/-! ### Operators -/

theorem arithmetic_outline (a b : Value) (op : Opcode) :
    a.outline.arithmetic op b.outline = (a.arithmetic op b).map outline := by
  have hint (m n : Int64) : integerOp op m n = (integerOp op m n).map outline := by
    unfold integerOp
    split
    · rfl
    · rfl
    · rfl
    · split <;> rfl
  have hstring (s t : Bytes) :
      (Value.string s).arithmetic op (.string t) =
        ((Value.string s).arithmetic op (.string t)).map outline := by
    rw [arithmetic]
    split <;> rfl
  cases a <;> cases b <;> first | rfl | exact hint _ _ | exact hstring _ _

theorem greater_outline (a b : Value) :
    a.outline.greater b.outline = (a.greater b).map outline := by
  cases a <;> cases b <;> rfl

theorem negate_outline (v : Value) : v.outline.negate = v.negate.map outline := by
  cases v <;> rfl

theorem find?_outline (entries : List Entry) (k : HashKey) :
    Entry.find? (entries.map outlineEntry) k =
      (Entry.find? entries k).map fun p => (p.1.outline, p.2.outline) := by
  rw [Entry.find?, Entry.find?, List.find?_map, Option.map_map, Option.map_map]
  rfl

theorem index_hash (es : List Entry) (i : Value) :
    (Value.hash es).index i =
      match i.hashKey? with
      | none => .error (.hashKey i.typeName)
      | some k =>
        match Entry.find? es k with
        | some (key, value) => .ok (if key.same i then value else .null)
        | none => .ok .null := by
  cases i <;> rfl

theorem index_outline (left i : Value) :
    left.outline.index i.outline = (left.index i).map outline := by
  cases left with
  | array items =>
    rw [outline_array]
    cases i with
    | int n =>
      change Except.ok _ = Except.ok _
      congr 1
      split
      · rfl
      · rw [List.getElem?_map]
        cases items[n.toInt.toNat]? <;> rfl
    | _ => rfl
  | hash entries =>
    rw [outline_hash, index_hash, index_hash, hashKey?_outline, typeName_outline]
    cases i.hashKey? with
    | none => rfl
    | some k =>
      dsimp only
      rw [find?_outline]
      cases Entry.find? entries k with
      | none => rfl
      | some p =>
        simp only [Option.map_some, same_outline]
        split <;> rfl
  | _ => cases i <;> rfl

theorem pairUp_outline (acc : List Entry) (items : List Value) :
    Entry.pairUp (acc.map outlineEntry) (items.map outline) =
      (Entry.pairUp acc items).map (List.map outlineEntry) := by
  fun_induction Entry.pairUp acc items with
  | case1 acc key value rest k hk ih =>
    simp only [List.map_cons, Entry.pairUp, hashKey?_outline, hk]
    exact ih
  | case2 acc key value rest hk =>
    simp only [List.map_cons, Entry.pairUp, hashKey?_outline, hk, typeName_outline]
    rfl
  | case3 items acc hitems =>
    match items with
    | [] | [_] => simp [Entry.pairUp, Except.map]
    | key :: value :: rest => exact absurd rfl (hitems key value rest)

theorem keepLast_outline (entries : List Entry) :
    Entry.keepLast (entries.map outlineEntry) = (Entry.keepLast entries).map outlineEntry := by
  induction entries with
  | nil => rfl
  | cons e entries ih =>
    rw [List.map_cons, Every.keepLast_cons, Every.keepLast_cons, ih]
    cases Entry.keepLast entries with
    | nil => rfl
    | cons f kept =>
      by_cases hkey : f.1 = e.1
      · have hkey' : (outlineEntry f).1 = (outlineEntry e).1 := hkey
        simp [hkey, hkey']
      · have hkey' : (outlineEntry f).1 ≠ (outlineEntry e).1 := hkey
        simp [hkey, hkey']

theorem file_outline (entries : List Entry) :
    Entry.file (entries.map outlineEntry) = (Entry.file entries).map outlineEntry := by
  rw [Entry.file, Entry.file, ← keepLast_outline, List.map_mergeSort]
  intro a _ b _
  rfl

end Value

/-! ### Builtin functions -/

namespace Builtin

variable {b : Builtin} {args : List Value}

theorem one_outline {f g : Value → Value} (h : ∀ v, f v.outline = (g v).outline) :
    one f (args.map Value.outline) = (one g args).outline := by
  match args with
  | [] => rfl
  | [v] => exact h v
  | v :: w :: tail => simp [one, wrongCount, Value.outline]

theorem onArray_outline {f : List Value → Value}
    (h : ∀ items, f (items.map Value.outline) = (f items).outline) :
    b.onArray f (args.map Value.outline) = (b.onArray f args).outline := by
  refine one_outline fun v => ?_
  cases v with
  | array items =>
    rw [Value.outline_array]
    exact h items
  | _ => rfl

theorem onString_outline {f : Bytes → Bytes} :
    b.onString f (args.map Value.outline) = (b.onString f args).outline := by
  refine one_outline fun v => ?_
  cases v <;> rfl

/-- The value of a call does not depend on code. -/
theorem value_outline [Casing] (b : Builtin) (args : List Value) :
    b.value (args.map Value.outline) = (b.value args).outline := by
  cases b with
  | len =>
    refine one_outline fun v => ?_
    cases v with
    | array items => simp [Value.outline, Value.outlineItems_eq]
    | _ => rfl
  | log => rfl
  | first =>
    refine onArray_outline fun items => ?_
    cases items <;> rfl
  | last =>
    refine onArray_outline fun items => ?_
    rcases List.eq_nil_or_concat items with rfl | ⟨init, v, rfl⟩
    · rfl
    · simp
  | rest =>
    refine onArray_outline fun items => ?_
    cases items with
    | nil => rfl
    | cons v tail => simp
  | push =>
    match args with
    | [] | [_] => simp [value, wrongCount, Value.outline]
    | [v, w] =>
      cases v with
      | array items => simp [value]
      | _ => rfl
    | u :: v :: w :: tail => simp [value, wrongCount, Value.outline]
  | pop =>
    refine onArray_outline fun items => ?_
    simp
  | toUpper => exact onString_outline
  | toLower => exact onString_outline

theorem output_outline (b : Builtin) (args : List Value) :
    b.output (args.map Value.outline) = b.output args := by
  cases b with
  | log => simp [output, List.flatMap_map]
  | _ => rfl

end Builtin

end StackScript
