import StackScript.Proofs.Compile.Scheme
import StackScript.Proofs.Symbol.Resolution

/-!
# What a compilation has in its heap

A compilation changes tables and constants in the heap by their numbers. No two of
its tables have one number, so each change is seen in the one place that it is
made for: the table of the innermost function, or the constants. The statements
about compilations need no more of the heap than this.

## Main definitions

* `Compiler.context`: the names and constants of a compilation.

## Main results

* `Compiler.constants_addConstant`, `Compiler.scope_update`, `Compiler.scope_enclose`,
  `Compiler.leave?_eq_some`: what the changes of a compilation do.
* `Compiler.resolve_eq_none`, `Compiler.resolve_eq_some`: how a name is resolved.
-/

namespace StackScript.Compiler

variable {c c' : Compiler} {name : Bytes} {place : Place}

/-- The names and constants of a compilation. -/
def context (c : Compiler) : Context := ⟨c.constants, c.scope.table, c.outer.map (·.table)⟩

theorem tables_eq_chain (c : Compiler) : c.context.tables =
    (c.heap.tables.chain c.layer.table).map fun i => (c.heap.tables.node i).table := by
  simp only [Context.tables, context, outer, c.linked, List.map_cons, List.map_map,
    List.cons.injEq]
  exact ⟨rfl, rfl⟩

theorem tables_withTables (c : Compiler) {tables : Forest}
    (h : tables.chain c.layer.table = c.heap.tables.chain c.layer.table) :
    (c.withTables tables h).context.tables =
      (c.heap.tables.chain c.layer.table).map fun i => (tables.node i).table := by
  rw [tables_eq_chain, ← h]
  rfl

theorem context_ofCopies (h : Heap) (table pool : Nat)
    (houter : (h.tables.node table).outer = none) :
    (ofCopies h table pool houter).context = ⟨h.pool pool, h.table table, []⟩ := by
  simp [context, constants, scope, outer, Layer.scope, Heap.table, Heap.pool, ofCopies,
    Forest.clone,
    Forest.add, Forest.node]

theorem layer_lt (c : Compiler) : c.layer.table < c.heap.tables.size :=
  Forest.lt_size_of_chain c.linked

/-- What lies around the innermost function has other tables. -/
theorem ne_layer_of_mem {l : Layer} (h : l ∈ c.around) : l.table ≠ c.layer.table := by
  have hnodup := Forest.nodup_chain c.heap.tables c.layer.table
  rw [c.linked] at hnodup
  intro heq
  exact (List.nodup_cons.1 hnodup).1 (heq ▸ List.mem_map_of_mem h)

theorem mem_chain_of_mem {l : Layer} (h : l ∈ c.around) :
    l.table ∈ c.heap.tables.chain c.layer.table := by
  rw [c.linked]
  exact .tail _ (List.mem_map_of_mem h)

/-! ### Drafts -/

@[simp] theorem scope_modifyDraft (c : Compiler) (f : Draft → Draft) :
    (c.modifyDraft f).scope = ⟨c.scope.table, f c.scope.draft⟩ := rfl

@[simp] theorem outer_modifyDraft (c : Compiler) (f : Draft → Draft) :
    (c.modifyDraft f).outer = c.outer := rfl

@[simp] theorem constants_modifyDraft (c : Compiler) (f : Draft → Draft) :
    (c.modifyDraft f).constants = c.constants := rfl

/-! ### Constants -/

@[simp] theorem constants_addConstant (c : Compiler) (v : Value) :
    (c.addConstant v).constants = c.constants.push v := by
  simp [constants, addConstant, Heap.pool, Array.getElem?_modify,
    Array.getElem?_eq_getElem c.pool_lt]

@[simp] theorem scope_addConstant (c : Compiler) (v : Value) : (c.addConstant v).scope = c.scope :=
  rfl

@[simp] theorem outer_addConstant (c : Compiler) (v : Value) : (c.addConstant v).outer = c.outer :=
  rfl

theorem context_addConstant (c : Compiler) (v : Value) :
    (c.addConstant v).context = c.context.push v := by
  rw [context, constants_addConstant]
  rfl

/-! ### Tables -/

theorem scope_update (c : Compiler) (op : Table → Place × Table) :
    (c.update op).2.scope = ⟨(op c.scope.table).2, c.scope.draft⟩ := by
  simp only [scope, Layer.scope, Heap.table, update, withTables, Forest.update, Forest.node_set,
    c.layer_lt, and_self, if_true]

theorem outer_update (c : Compiler) (op : Table → Place × Table) :
    (c.update op).2.outer = c.outer := by
  refine List.map_congr_left fun l hl => ?_
  have hne : c.layer.table ≠ l.table := (ne_layer_of_mem hl).symm
  simp only [Layer.scope, Heap.table, update, withTables, Forest.update, Forest.node_set, hne,
    false_and, if_false]

theorem context_update (c : Compiler) (op : Table → Place × Table) :
    (c.update op).2.context = { c.context with table := (op c.context.table).2 } := by
  rw [context, scope_update, outer_update]
  rfl

theorem resolve_eq_none (h : StackScript.resolve name c.context.tables = none) :
    c.resolve name = (none, c) := by
  have hresolve : c.heap.tables.resolve c.layer.table name = none := by
    rw [Forest.resolve_eq, ← tables_eq_chain, h]
    rfl
  rw [resolve]
  split
  · rfl
  · next heq =>
    rw [hresolve] at heq
    cases heq

/-- A name is resolved in the tables of the compilation, which get the captures; nothing else
changes. -/
theorem resolve_eq_some {us : List Table}
    (h : StackScript.resolve name c.context.tables = some (place, us)) :
    ∃ c', c.resolve name = (some place, c') ∧ c'.context.tables = us ∧ c'.constants = c.constants ∧
      c'.scope.draft = c.scope.draft ∧ c'.outer.map (·.draft) = c.outer.map (·.draft) ∧
      (us = c.context.tables → c' = c) := by
  have hlength : us.length = (c.heap.tables.chain c.layer.table).length := by
    rw [← (resolve_captures h).length_eq, tables_eq_chain, List.length_map]
  have hresolve : c.heap.tables.resolve c.layer.table name =
      some (place, c.heap.tables.setAll ((c.heap.tables.chain c.layer.table).zip us)) := by
    rw [Forest.resolve_eq, ← tables_eq_chain, h]
    rfl
  refine ⟨c.withTables _ (Forest.chain_setAll _ ((c.heap.tables.chain c.layer.table).zip us) _),
    ?_, ?_, rfl, rfl, ?_, ?_⟩
  · rw [resolve]
    split
    · next heq =>
      rw [hresolve] at heq
      cases heq
    · next heq =>
      rw [hresolve] at heq
      cases heq
      rfl
  · rw [tables_withTables, Forest.map_table_setAll_chain hlength]
  · simp only [outer, List.map_map]
    rfl
  · rintro rfl
    have hsame : c.heap.tables.setAll ((c.heap.tables.chain c.layer.table).zip c.context.tables) =
        c.heap.tables := by
      rw [tables_eq_chain, Forest.setAll_self]
    simp only [withTables, hsame]

/-! ### Functions -/

theorem scope_enclose (c : Compiler) : c.enclose.scope = ⟨.empty true, .empty⟩ := by
  simp [scope, Layer.scope, Heap.table, enclose, Forest.enclose, Forest.add, Forest.node]

theorem outer_enclose (c : Compiler) : c.enclose.outer = c.scope :: c.outer := by
  have hscope {l : Layer} (hl : l.table < c.heap.tables.size) :
      l.scope c.enclose.heap = l.scope c.heap := by
    simp only [Layer.scope, Heap.table, Forest.node, enclose, Forest.enclose, Forest.add,
      Array.getElem?_push, Nat.ne_of_lt hl, if_false]
  refine List.cons_eq_cons.2 ⟨hscope c.layer_lt, List.map_congr_left fun l hl => hscope ?_⟩
  exact Forest.lt_of_mem_chain (mem_chain_of_mem hl)

theorem context_enclose (c : Compiler) :
    c.enclose.context = ⟨c.constants, .empty true, c.context.tables⟩ := by
  rw [context, scope_enclose, outer_enclose]
  rfl

theorem leave?_eq_some {s : Scope} {ss : List Scope} (h : c.outer = s :: ss) :
    ∃ c', c.leave? = some c' ∧ c'.scope = s ∧ c'.outer = ss ∧ c'.constants = c.constants := by
  obtain ⟨l, ls, haround, rfl, rfl⟩ := List.map_eq_cons_iff.1 h
  rw [leave?]
  split
  · next heq =>
    rw [haround] at heq
    cases heq
  · next heq =>
    rw [haround] at heq
    cases heq
    exact ⟨_, rfl, rfl, rfl, rfl⟩

end StackScript.Compiler
