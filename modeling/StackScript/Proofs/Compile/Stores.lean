import StackScript.Proofs.Compile.WellFormed
import StackScript.Proofs.Meaning.Binding

/-!
# Where compiled code stores

Only main code stores to global variables, and only to those whose names it
binds itself. A `let` inside a function literal binds a local variable, whatever
the name is and however deep the literal is nested.

## Main definitions

* `Emission.Stores`: what is emitted stores at most to the slots of given names.
* `Code.StoresIn`: code that stores at most to given slots.

## Main results

* `tree_stores`: a node stores to the names that it binds outside function literals.
* `Function.Formed.storesIn`: functions store to no global variable.
-/

namespace StackScript

/-! ### The scheme -/

/-- Names keep their slots. What is emitted stores to a global variable in main code only, and then
to the slot of one of the names. -/
def Emission.Stores (p : Emission) (xs : List Bytes) : Prop :=
  ∀ offset σ seg τ, p offset σ seg τ → List.Forall₂ Table.Le σ.tables τ.tables ∧
    ∀ n, ⟨.setGlobal, [n]⟩ ∈ seg → τ.table.enclosed = false ∧
      ∃ x ∈ xs, τ.table.find? x = some (.global n)

theorem Place.load_ne_setGlobal (p : Place) (n : Nat) : p.load ≠ ⟨.setGlobal, [n]⟩ := by
  cases p <;> nofun

namespace Emission

variable {p q r : Emission} {xs ys zs : List Bytes}

/-- Slots of names stay slots of these names when more is emitted. -/
theorem stored_mono {σ τ : Context} {n : Nat} (hle : List.Forall₂ Table.Le σ.tables τ.tables)
    (h : σ.table.enclosed = false ∧ ∃ x ∈ xs, σ.table.find? x = some (.global n)) :
    τ.table.enclosed = false ∧ ∃ x ∈ xs, τ.table.find? x = some (.global n) := by
  obtain ⟨henclosed, x, hx, hfind⟩ := h
  cases hle with
  | cons htable _ =>
    exact ⟨htable.enclosed.trans henclosed, x, hx, htable.global henclosed hfind⟩

theorem forall₂_le_refl (ts : List Table) : List.Forall₂ Table.Le ts ts :=
  List.forall₂_same.2 fun t _ => .refl t

theorem Stores.mono (hp : p.Stores xs) (hsub : xs ⊆ ys) : p.Stores ys := by
  intro offset σ seg τ h
  obtain ⟨hle, hstores⟩ := hp _ _ _ _ h
  refine ⟨hle, fun n hn => ?_⟩
  obtain ⟨henclosed, x, hx, hfind⟩ := hstores n hn
  exact ⟨henclosed, x, hsub hx, hfind⟩

theorem Stores.seq (hp : p.Stores xs) (hq : q.Stores ys) : (p.seq q).Stores (xs ++ ys) := by
  rintro offset σ _ σ' ⟨s, τ, t, hs, ht, rfl⟩
  obtain ⟨hle, hstores⟩ := hp.mono (List.subset_append_left xs ys) _ _ _ _ hs
  obtain ⟨hle', hstores'⟩ := hq.mono (List.subset_append_right xs ys) _ _ _ _ ht
  refine ⟨Context.forall₂_le_trans hle hle', fun n hn => ?_⟩
  rcases List.mem_append.1 hn with hn | hn
  · exact stored_mono hle' (hstores n hn)
  · exact hstores' n hn

theorem stores_nothing : nothing.Stores [] := by
  rintro offset σ _ τ ⟨rfl, rfl⟩
  exact ⟨forall₂_le_refl _, nofun⟩

theorem Stores.all {ps : List Emission} {xss : List (List Bytes)}
    (h : List.Forall₂ Emission.Stores ps xss) : (Emission.all ps).Stores xss.flatten := by
  induction h with
  | nil => exact stores_nothing
  | cons hp _ ih => exact hp.seq ih

theorem stores_one {i : Instr} (h : i.op ≠ .setGlobal) : (one i).Stores [] := by
  rintro offset σ _ τ ⟨rfl, rfl⟩
  refine ⟨forall₂_le_refl _, fun n hn => ?_⟩
  exact absurd (congrArg Instr.op (List.mem_singleton.1 hn)).symm h

theorem stores_operator (op : Option Opcode) : (operator op).Stores [] := by
  rintro offset σ _ τ ⟨code, rfl, rfl, rfl⟩
  exact ⟨forall₂_le_refl _, fun n hn => by cases List.mem_singleton.1 hn⟩

theorem stores_const (v : Value) : (const v).Stores [] := by
  rintro offset σ _ τ ⟨-, rfl, rfl⟩
  exact ⟨forall₂_le_refl _, fun n hn => by cases List.mem_singleton.1 hn⟩

theorem stores_ident (x : Bytes) : (ident x).Stores [] := by
  rintro offset σ _ τ ⟨place, hres, rfl, -⟩
  refine ⟨(resolve_captures hres).imp fun _ _ h => h.le, fun n hn => ?_⟩
  exact absurd (List.mem_singleton.1 hn).symm (place.load_ne_setGlobal n)

theorem Stores.given {P : Prop} (hp : p.Stores xs) : (Emission.given P p).Stores xs :=
  fun _ _ _ _ h => hp _ _ _ _ h.2

theorem Stores.branch (hp : p.Stores xs) : (Emission.branch p).Stores xs := by
  rintro offset σ _ τ ⟨s, hs, rfl⟩
  obtain ⟨hle, hstores⟩ := hp _ _ _ _ hs
  refine ⟨hle, fun n hn => ?_⟩
  obtain hn | hn := Instr.mem_keepValue hn
  · exact hstores n hn
  · cases hn

theorem Stores.cond (hp : p.Stores xs) (hq : q.Stores ys) (hr : r.Stores zs) :
    (Emission.cond p q r).Stores (xs ++ (ys ++ zs)) := by
  rintro offset σ _ σ' ⟨s, σ₁, t, σ₂, u, _, _, _, hs, ht, hu, -, -, -, -, rfl⟩
  obtain ⟨hle₁, hstores₁⟩ := hp.mono (List.subset_append_left xs (ys ++ zs)) _ _ _ _ hs
  obtain ⟨hle₂, hstores₂⟩ := (hq.mono (List.subset_append_left ys zs)).mono
    (List.subset_append_right xs (ys ++ zs)) _ _ _ _ ht
  obtain ⟨hle₃, hstores₃⟩ := (hr.mono (List.subset_append_right ys zs)).mono
    (List.subset_append_right xs (ys ++ zs)) _ _ _ _ hu
  have hle := Context.forall₂_le_trans hle₂ hle₃
  refine ⟨Context.forall₂_le_trans hle₁ hle, fun n hn => ?_⟩
  simp only [List.mem_append, List.mem_cons] at hn
  obtain hn | hn | hn | hn | hn := hn
  · exact stored_mono hle (hstores₁ n hn)
  · cases hn
  · exact stored_mono hle₃ (hstores₂ n hn)
  · cases hn
  · exact hstores₃ n hn

/-- In the table of a program a name is bound to a global slot, in that of a function it is not. -/
theorem stored_define {σ : Context} {x : Bytes} {n : Nat}
    (h : (σ.table.define x).1.store = ⟨.setGlobal, [n]⟩) :
    (σ.define x).table.enclosed = false ∧ (σ.define x).table.find? x = some (.global n) := by
  obtain ⟨k, hk, -⟩ := σ.table.define_slot x
  have hfind : (σ.define x).table.find? x = some (σ.table.slot k) := by
    rw [Context.define, Table.define_find?, if_pos rfl, hk]
  rw [hk] at h
  cases henclosed : σ.table.enclosed with
  | true =>
    rw [Table.slot, if_pos henclosed] at h
    cases h
  | false =>
    rw [Table.slot, if_neg (by simp [henclosed])] at h hfind
    cases h
    exact ⟨(σ.table.define_enclosed x).trans henclosed, hfind⟩

theorem Stores.bind (hp : p.Stores xs) (x : Bytes) : (Emission.bind x p).Stores (x :: xs) := by
  rintro offset σ _ τ ⟨-, s, hs, rfl⟩
  obtain ⟨hle, hstores⟩ := hp.mono (List.subset_cons_self x xs) _ _ _ _ hs
  refine ⟨Context.forall₂_le_trans (σ.grows_define x).tables hle, fun n hn => ?_⟩
  -- The name is defined before its value is compiled, so its slot is kept from there on.
  rcases List.mem_append.1 hn with hn | hn
  · exact hstores n hn
  · obtain ⟨henclosed, hfind⟩ := stored_define (List.mem_singleton.1 hn).symm
    exact stored_mono hle ⟨henclosed, x, List.mem_cons_self .., hfind⟩

/-- A function literal stores to nothing: its body belongs to the function. -/
theorem Stores.function (hp : p.Stores xs) (name : Bytes) (params : List Ident) :
    (Emission.function name params p).Stores [] := by
  rintro offset σ _ _ ⟨s, τ, table, outer, hs, houter, -, -, -, rfl, rfl⟩
  obtain ⟨hle, -⟩ := hp _ _ _ _ hs
  rw [Context.tables, Context.tables, houter] at hle
  cases hle with
  | cons _ houter =>
    refine ⟨houter, fun n hn => ?_⟩
    rcases List.mem_append.1 hn with hn | hn
    · obtain ⟨symbol, -, hload⟩ := List.mem_map.1 hn
      exact absurd hload (symbol.place.load_ne_setGlobal n)
    · cases List.mem_singleton.1 hn

end Emission

theorem items_store {items : List Expr} (h : ∀ e ∈ items, e.Emits.Stores e.lets) :
    (Emission.all (emitsItems items)).Stores (letsItems items) := by
  rw [emitsItems_eq, letsItems_eq]
  apply Emission.Stores.all
  rw [List.forall₂_map_left_iff, List.forall₂_map_right_iff, List.forall₂_same]
  exact h

theorem body_stores {body : List Stmt} (h : ∀ s ∈ body, s.Emits.Stores s.lets) :
    (Emission.all (emitsBody body)).Stores (letsBody body) := by
  rw [emitsBody_eq, letsBody_eq]
  apply Emission.Stores.all
  rw [List.forall₂_map_left_iff, List.forall₂_map_right_iff, List.forall₂_same]
  exact h

theorem block_stores {b : Block} (h : ∀ s ∈ b.body, s.Emits.Stores s.lets) :
    b.Emits.Stores b.lets := by
  obtain ⟨loc, body⟩ := b
  rw [Block.Emits, Block.lets]
  exact body_stores h

theorem else_stores {no : Option Block} (h : ∀ s ∈ Block.elseBody no, s.Emits.Stores s.lets) :
    (emitsElse no).Stores (letsElse no) := by
  cases no with
  | none => exact Emission.stores_one nofun
  | some b => exact (block_stores h).branch

theorem pairs_store {pairs : List (Expr × Expr)}
    (h : ∀ p ∈ pairs, p.1.Emits.Stores p.1.lets ∧ p.2.Emits.Stores p.2.lets) :
    (Emission.all (pairs.map fun p => p.1.Emits.seq p.2.Emits)).Stores
      (pairs.map fun p => p.1.lets ++ p.2.lets).flatten := by
  apply Emission.Stores.all
  rw [List.forall₂_map_left_iff, List.forall₂_map_right_iff, List.forall₂_same]
  intro p hp
  exact (h p hp).1.seq (h p hp).2

/-- What a node is compiled to stores to the names that the node binds outside function
literals. -/
theorem tree_stores :
    TreeSteps (fun e => e.Emits.Stores e.lets) (fun s => s.Emits.Stores s.lets) where
  ident id := Emission.stores_ident id.name
  int loc literal value := Emission.stores_const _
  string loc value := Emission.stores_const _
  bool loc value := Emission.stores_one (by cases value <;> decide)
  unary loc op right hright := by
    rw [Expr.Emits, Expr.lets, ← List.append_nil right.lets]
    exact hright.seq (Emission.stores_operator _)
  binary loc op left right hleft hright := by
    rw [Expr.Emits, Expr.lets]
    split
    · rw [← List.append_nil left.lets]
      exact hright.seq (hleft.seq (Emission.stores_operator _))
    · rw [← List.append_nil right.lets]
      exact hleft.seq (hright.seq (Emission.stores_operator _))
  cond loc test yes no htest hyes hno := by
    rw [Expr.Emits, Expr.lets]
    exact htest.cond (block_stores hyes).branch (else_stores hno)
  function loc name params body hbody := by
    rw [Expr.Emits, Expr.lets]
    exact .given ((block_stores hbody).function name params)
  call loc callee args hcallee hargs := by
    rw [Expr.Emits, Expr.lets, ← List.append_nil (letsItems args)]
    exact .given (hcallee.seq ((items_store hargs).seq (Emission.stores_one (by simp))))
  array loc items hitems := by
    rw [Expr.Emits, Expr.lets, ← List.append_nil (letsItems items)]
    exact .given ((items_store hitems).seq (Emission.stores_one (by simp)))
  hash loc pairs hpairs := by
    rw [Expr.Emits, Expr.lets, emitsPairs_inOrder, letsPairs_inOrder,
      ← List.append_nil (List.flatten _)]
    exact .given ((pairs_store fun p hp => hpairs p (Expr.mem_inOrder.1 hp)).seq
      (Emission.stores_one (by simp)))
  index loc left index hleft hindex := by
    rw [Expr.Emits, Expr.lets, ← List.append_nil index.lets]
    exact hleft.seq (hindex.seq (Emission.stores_one (by decide)))
  missing := by
    intro _ _ _ _ h
    cases h
  bind loc id value hvalue := hvalue.bind id.name
  retNone loc := Emission.stores_one nofun
  ret loc value hvalue := by
    rw [Stmt.Emits, Stmt.lets, ← List.append_nil value.lets]
    exact hvalue.seq (Emission.stores_one (by decide))
  expr loc value hvalue := by
    rw [Stmt.Emits, Stmt.lets, ← List.append_nil value.lets]
    exact hvalue.seq (Emission.stores_one (by decide))
  block body hbody := by
    rw [Stmt.Emits, Stmt.lets]
    exact block_stores hbody
  missingStmt := by
    intro _ _ _ _ h
    cases h

/-! ### Code -/

/-- The code stores to global variables with slots in the set at most. -/
def Code.StoresIn (code : Code) (W : Set Nat) : Prop :=
  ∀ offset n, (offset, .instr ⟨.setGlobal, [n]⟩) ∈ code.walk → n ∈ W

theorem Code.storesIn_ofInstrs {is : List Instr} {W : Set Nat} (hfits : ∀ i ∈ is, i.Fits)
    (h : ∀ n, ⟨.setGlobal, [n]⟩ ∈ is → n ∈ W) : (Code.ofInstrs is).StoresIn W := by
  intro offset n hn
  obtain ⟨before, i, after, rfl, -, hi⟩ := (mem_walk_ofInstrs hfits).1 hn
  obtain rfl := Fetched.instr.inj hi
  exact h n (by simp)

/-- The slots of global variables that a program binds outside function literals, by the names of
the table. -/
def Program.boundSlots (p : Program) (t : Table) : Set Nat :=
  {n | ∃ x ∈ letsBody p.body, t.find? x = some (.global n)}

/-- Main code stores to the global variables that the program binds outside function literals. -/
theorem Program.Emits.stores {p : Program} {σ τ : Context} {is : List Instr}
    (h : p.Emits 0 σ is τ) (n : Nat) (hn : ⟨.setGlobal, [n]⟩ ∈ is) : n ∈ p.boundSlots τ.table := by
  obtain ⟨-, hstores⟩ := body_stores (fun s _ => tree_stores.stmt_all s) _ _ _ _ h
  exact (hstores n hn).2

theorem Context.enter_enclosed (σ : Context) (name : Bytes) (params : List Ident) :
    (σ.enter name params).table.enclosed = true := by
  have hparams : ∀ t : Table, t.enclosed = true →
      (params.foldl (fun t p => (t.define p.name).2) t).enclosed = true := by
    induction params with
    | nil => exact fun t ht => ht
    | cons p params ih => exact fun t ht => ih _ ((t.define_enclosed p.name).trans ht)
  refine hparams _ ?_
  split <;> rfl

/-- Functions store to no global variable. -/
theorem Function.Formed.storesIn {constants : Array Value} {globals : Nat} {f : Function}
    (h : f.Formed constants globals) (hglobals : globals ≤ maxOperand 2 + 1) :
    f.code.StoresIn ∅ := by
  obtain ⟨hlocals, is, free, ⟨σ, params, body, s, τ, hs, -, -, rfl⟩, hcode, hfree, hlegal, -⟩ := h
  rw [hcode]
  refine Code.storesIn_ofInstrs (fun i hi => (hlegal i hi).fits hglobals hlocals hfree) ?_
  intro n hn
  obtain ⟨hle, hstores⟩ := block_stores (fun s _ => tree_stores.stmt_all s) _ _ _ _ hs
  obtain hn | hn | hn := Instr.mem_close hn
  · have henclosed := (hstores n hn).1
    cases hle with
    | cons htable _ =>
      rw [htable.enclosed, Context.enter_enclosed] at henclosed
      cases henclosed
  · cases hn
  · cases hn

end StackScript
