import StackScript.Proofs.Compile.Heap
import StackScript.Proofs.Tree.Induction

/-!
# A compilation keeps to its own

A compilation defines names, captures them and adds constants in the heap as it
goes on, and it may end in a fault at any place, with functions begun and not
finished. However it ends, it has changed no table but those of the functions it
was in and those it has made itself, and no constants but its own. If it does not
end in a fault, it is back in the functions it was in.

## Main definitions

* `Compile.Sat`: how a step of a compilation ends.
* `Compiler.Frame`: what one state of a compilation leaves of the heap of another.
* `Compile.Spares`: a step changes nothing of others.

## Main results

* `Compile.tree_spares`, `Program.compile_spares`: compiling changes nothing of others.
-/

namespace StackScript

namespace Compiler

/-! ### Frames -/

/-- The numbers of the tables that a compilation works on, from the inside out. -/
def numbers (c : Compiler) : List Nat := c.layer.table :: c.around.map (·.table)

theorem numbers_eq_chain (c : Compiler) : c.numbers = c.heap.tables.chain c.layer.table :=
  c.linked.symm

/-- The second state is one that the compilation may come to from the first: what does not belong to
it lies in the heap as before. -/
structure Frame (c c' : Compiler) : Prop where
  pool : c'.pool = c.pool
  pools : ∀ j, j ≠ c.pool → c'.heap.pool j = c.heap.pool j
  size : c.heap.tables.size ≤ c'.heap.tables.size
  numbers : ∀ i ∈ c'.numbers, i ∈ c.numbers ∨ c.heap.tables.size ≤ i
  tables : ∀ i < c.heap.tables.size, i ∉ c.numbers → c'.heap.tables.node i = c.heap.tables.node i

namespace Frame

variable {c c' c'' : Compiler}

theorem refl (c : Compiler) : Frame c c :=
  ⟨rfl, fun _ _ => rfl, Nat.le_refl _, fun _ hi => .inl hi, fun _ _ _ => rfl⟩

theorem trans (h : Frame c c') (h' : Frame c' c'') : Frame c c'' where
  pool := h'.pool.trans h.pool
  pools j hj := (h'.pools j (h.pool ▸ hj)).trans (h.pools j hj)
  size := Nat.le_trans h.size h'.size
  numbers i hi := by
    obtain hi | hi := h'.numbers i hi
    · exact h.numbers i hi
    · exact .inr (Nat.le_trans h.size hi)
  tables i hi hown := by
    have hown' : i ∉ c'.numbers := fun hmem => (h.numbers i hmem).elim hown (Nat.not_le.2 hi)
    exact (h'.tables i (Nat.lt_of_lt_of_le hi h.size) hown').trans (h.tables i hi hown)

end Frame

theorem frame_addConstant (c : Compiler) (v : Value) : Frame c (c.addConstant v) where
  pool := rfl
  pools j hj := by rw [Heap.pool, addConstant, Array.getElem?_modify, if_neg hj.symm, Heap.pool]
  size := Nat.le_refl _
  numbers _ hi := .inl hi
  tables _ _ _ := rfl

theorem frame_update (c : Compiler) (op : Table → Place × Table) : Frame c (c.update op).2 where
  pool := rfl
  pools _ _ := rfl
  size := Nat.le_of_eq (Forest.size_set _ _ _).symm
  numbers _ hi := .inl hi
  tables i _ hown := by
    have hne : c.layer.table ≠ i := fun heq => hown (heq ▸ List.mem_cons_self ..)
    change (c.heap.tables.set c.layer.table _).node i = _
    rw [Forest.node_set, if_neg fun h => hne h.1]

theorem frame_resolve (c : Compiler) (name : Bytes) : Frame c (c.resolve name).2 := by
  rw [resolve]
  split
  · exact .refl c
  · next place tables heq =>
    rw [Forest.resolve_eq] at heq
    obtain ⟨⟨p, us⟩, -, hus⟩ := Option.map_eq_some_iff.1 heq
    obtain ⟨rfl, rfl⟩ := Prod.mk.inj hus
    refine ⟨rfl, fun _ _ => rfl, Nat.le_of_eq (Forest.size_setAll _ _).symm, fun _ hi => .inl hi,
      ?_⟩
    intro i _ hown
    apply Forest.node_setAll_of_not_mem
    rintro pair hpair rfl
    rw [numbers_eq_chain] at hown
    exact hown (List.of_mem_zip hpair).1

theorem numbers_resolve (c : Compiler) (name : Bytes) : (c.resolve name).2.numbers = c.numbers := by
  rw [resolve]
  split <;> rfl

theorem frame_enclose (c : Compiler) : Frame c c.enclose where
  pool := rfl
  pools _ _ := rfl
  size := by simp [enclose, Forest.enclose, Forest.add]
  numbers i hi := by
    obtain rfl | hi := List.mem_cons.1 hi
    · exact .inr (Nat.le_refl _)
    · exact .inl hi
  tables i hi _ := by
    simp [enclose, Forest.enclose, Forest.add, Forest.node, Array.getElem?_push, Nat.ne_of_lt hi]

theorem frame_leave? {c c' : Compiler} (h : c.leave? = some c') :
    Frame c c' ∧ c'.numbers = c.numbers.tail := by
  rw [leave?] at h
  split at h
  · cases h
  · next l around heq =>
    cases h
    have hnumbers : c.numbers = c.layer.table :: l.table :: around.map (·.table) := by
      rw [numbers, heq]
      rfl
    refine ⟨⟨rfl, fun _ _ => rfl, Nat.le_refl _, fun i hi => .inl ?_, fun _ _ _ => rfl⟩, ?_⟩
    · rw [hnumbers]
      exact .tail _ hi
    · rw [hnumbers]
      rfl

end Compiler

namespace Compile

open Compiler

variable {α β : Type} {x : Compile α} {f : α → Compile β} {c c' : Compiler} {a : α}

/-! ### Results -/

theorem bind_ok {c'' : Compiler} {b : β} (h : (x >>= f) c = .ok b c'') :
    ∃ a c', x c = .ok a c' ∧ f a c' = .ok b c'' := by
  change EStateM.bind x f c = _ at h
  unfold EStateM.bind at h
  split at h
  · next a c' hx => exact ⟨a, c', hx, h⟩
  · cases h

theorem bind_of_ok (h : x c = .ok a c') : (x >>= f) c = f a c' := by
  change EStateM.bind x f c = _
  rw [EStateM.bind, h]

/-- The result is as described if the compilation succeeds, and the fault if it does not. -/
def Sat (x : Compile α) (c : Compiler) (Q : α → Compiler → Prop)
    (E : CompileError → Compiler → Prop) : Prop :=
  match x c with
  | .ok a c' => Q a c'
  | .error e c' => E e c'

variable {Q : α → Compiler → Prop} {R : β → Compiler → Prop} {D E : CompileError → Compiler → Prop}

theorem Sat.mono {Q' : α → Compiler → Prop} (h : Sat x c Q D) (hQ : ∀ a c', Q a c' → Q' a c')
    (hE : ∀ e c', D e c' → E e c') : Sat x c Q' E := by
  unfold Sat at h ⊢
  split at h
  · exact hQ _ _ h
  · exact hE _ _ h

theorem Sat.bind (hx : Sat x c Q D) (hf : ∀ a c', Q a c' → Sat (f a) c' R E)
    (hE : ∀ e c', D e c' → E e c') : Sat (x >>= f) c R E := by
  have hbind : (x >>= f) c = EStateM.bind x f c := rfl
  unfold Sat at hx ⊢
  rw [hbind, EStateM.bind]
  cases hxc : x c with
  | ok a c' =>
    rw [hxc] at hx
    exact hf a c' hx
  | error e c' =>
    rw [hxc] at hx
    exact hE e c' hx

/-- Go on after what succeeds. -/
theorem Sat.step (hx : x c = .ok a c') (hf : Sat (f a) c' R E) : Sat (x >>= f) c R E := by
  unfold Sat
  rwa [bind_of_ok hx]

theorem check_sat {pos : Pos} {n width : Nat} {what : Quantity}
    (hover : maxOperand width < n → E ⟨.operandOverflow what, pos⟩ c) :
    Sat (check pos n width what) c (fun _ c' => c' = c) E := by
  unfold check
  split
  · exact rfl
  · next hn => exact hover (Nat.not_le.1 hn)

theorem Sat.check {f : Unit → Compile β} {pos : Pos} {n width : Nat} {what : Quantity}
    (hf : Sat (f ()) c R E) (hover : maxOperand width < n → E ⟨.operandOverflow what, pos⟩ c) :
    Sat (check pos n width what >>= f) c R E := by
  refine (check_sat hover).bind ?_ fun _ _ h => h
  rintro _ _ rfl
  exact hf

/-! ### Steps -/

/-- The step changes nothing of others, however it ends. Unless it ends in a fault, the numbers of
its tables are related in the given way to those before. -/
def Moves (x : Compile α) (R : List Nat → List Nat → Prop) : Prop :=
  ∀ c, Sat x c (fun _ c' => Compiler.Frame c c' ∧ R c.numbers c'.numbers)
    fun _ c' => Compiler.Frame c c'

/-- The step changes nothing of others, and ends in the functions where it began unless in a
fault. -/
def Spares (x : Compile α) : Prop := Moves x Eq

theorem Moves.bind {R S T : List Nat → List Nat → Prop} (hx : Moves x R) (hf : ∀ a, Moves (f a) S)
    (hT : ∀ l m n, R l m → S m n → T l n) : Moves (x >>= f) T := by
  intro c
  refine (hx c).bind ?_ fun _ _ h => h
  rintro a c₁ ⟨hframe, hR⟩
  refine (hf a c₁).mono ?_ fun _ _ h => hframe.trans h
  rintro _ c₂ ⟨hframe', hS⟩
  exact ⟨hframe.trans hframe', hT _ _ _ hR hS⟩

namespace Spares

theorem bind (hx : Spares x) (hf : ∀ a, Spares (f a)) : Spares (x >>= f) :=
  Moves.bind hx hf fun _ _ _ => Eq.trans

/-- A step that moves comes after one that does not. -/
theorem moves {R : List Nat → List Nat → Prop} (hx : Spares x) (hf : ∀ a, Moves (f a) R) :
    Moves (x >>= f) R :=
  Moves.bind hx hf fun _ _ _ hl hR => hl ▸ hR

theorem pure (a : α) : Spares (Pure.pure a : Compile α) := fun c => ⟨.refl c, rfl⟩

theorem get : Spares (get : Compile Compiler) := fun c => ⟨.refl c, rfl⟩

theorem fail (pos : Pos) (cause : CompileError.Cause) : Spares (fail pos cause : Compile α) :=
  fun c => .refl c

end Spares

theorem check_spares (pos : Pos) (n width : Nat) (what : Quantity) :
    Spares (check pos n width what) := by
  intro c
  refine (check_sat fun _ => Compiler.Frame.refl c).mono ?_ fun _ _ h => h
  rintro _ _ rfl
  exact ⟨.refl _, rfl⟩

theorem modifyDraft_spares (g : Draft → Draft) : Spares (modifyDraft g) := fun _ =>
  ⟨⟨rfl, fun _ _ => rfl, Nat.le_refl _, fun _ hi => .inl hi, fun _ _ _ => rfl⟩, rfl⟩

theorem draft_spares : Spares draft := .bind .get fun _ => .pure _

theorem emit_spares (op : Opcode) (operands : List Nat) : Spares (emit op operands) :=
  modifyDraft_spares _

theorem emitJump_spares (op : Opcode) : Spares (emitJump op) :=
  .bind draft_spares fun _ => .bind (emit_spares _ _) fun _ => .pure _

theorem constant_spares (pos : Pos) (make : Nat → Value) : Spares (constant pos make) :=
  .bind .get fun _ => .bind (fun c => ⟨c.frame_addConstant _, rfl⟩) fun _ =>
    .bind (check_spares _ _ _ _) fun _ => .pure _

theorem define_spares (name : Bytes) : Spares (define name) := fun c => ⟨c.frame_update _, rfl⟩

theorem defineSelf_spares (name : Bytes) : Spares (defineSelf name) := by
  unfold defineSelf
  split
  · exact .pure ()
  · exact fun c => ⟨c.frame_update _, rfl⟩

theorem defineAll_spares (params : List Ident) : Spares (defineAll params) := by
  induction params with
  | nil => exact .pure ()
  | cons p rest ih => exact .bind (define_spares _) fun _ => ih

theorem lookup_spares (name : Bytes) : Spares (lookup name) := fun c =>
  ⟨c.frame_resolve name, (c.numbers_resolve name).symm⟩

theorem load_spares (place : Place) : Spares (load place) := by
  cases place <;> exact emit_spares _ _

theorem loadAll_spares (symbols : List Symbol) : Spares (loadAll symbols) := by
  induction symbols with
  | nil => exact .pure ()
  | cons s rest ih => exact .bind (load_spares _) fun _ => ih

theorem operator_spares (pos : Pos) (op? : Option Opcode) (text : Bytes) :
    Spares (match op? with
      | some code => emit code []
      | none => fail pos (.unknownOperator text)) := by
  cases op? with
  | some code => exact emit_spares _ _
  | none => exact .fail _ _

/-! ### Functions -/

/-- A function is begun in a table of its own, inside the others. -/
theorem enter_moves (name : Bytes) (params : List Ident) :
    Moves (enter name params) fun l m => m.tail = l := by
  have henclose : Moves (modify Compiler.enclose) fun l m => m.tail = l := fun c =>
    ⟨c.frame_enclose, rfl⟩
  have hdefine : Spares (do defineSelf name; defineAll params) :=
    .bind (defineSelf_spares name) fun _ => defineAll_spares params
  refine henclose.bind (fun _ => hdefine) ?_
  rintro _ _ _ rfl rfl
  rfl

theorem leave_moves : Moves leave fun l m => m = l.tail := by
  intro c
  refine .step rfl ?_
  cases h : c.leave? with
  | none => exact .refl c
  | some c' => exact frame_leave? h

theorem closeFunction_moves (pos : Pos) (name : Bytes) (params : Nat) :
    Moves (closeFunction pos name params) fun l m => m = l.tail := by
  refine (modifyDraft_spares _).moves fun _ => Spares.get.moves fun c => ?_
  refine (check_spares _ _ _ _).moves fun _ => (check_spares _ _ _ _).moves fun _ => ?_
  refine leave_moves.bind (S := Eq) (fun _ => ?_) ?_
  · exact Spares.bind (loadAll_spares _) fun _ => .bind (constant_spares _ _) fun _ =>
      emit_spares _ _
  · rintro _ _ _ rfl rfl
    rfl

theorem function_spares (loc : Loc) (name : Bytes) (params : List Ident) {body : Block}
    (hbody : Spares body.compile) : Spares (Expr.function loc name params body).compile := by
  rw [Expr.compile]
  refine .bind (check_spares _ _ _ _) fun _ => ?_
  refine (enter_moves name params).bind (fun _ => hbody.moves fun _ => closeFunction_moves _ _ _) ?_
  rintro _ _ _ rfl rfl
  rfl

/-! ### Trees -/

theorem items_spare {items : List Expr} (h : ∀ e ∈ items, Spares e.compile) :
    Spares (compileItems items) := by
  induction items with
  | nil => exact .pure ()
  | cons e rest ih =>
    obtain ⟨he, hrest⟩ := List.forall_mem_cons.1 h
    rw [compileItems]
    exact .bind he fun _ => ih hrest

theorem body_spares {body : List Stmt} (h : ∀ s ∈ body, Spares s.compile) :
    Spares (compileBody body) := by
  induction body with
  | nil => exact .pure ()
  | cons s rest ih =>
    obtain ⟨hs, hrest⟩ := List.forall_mem_cons.1 h
    rw [compileBody]
    exact .bind hs fun _ => ih hrest

theorem block_spares {b : Block} (h : ∀ s ∈ b.body, Spares s.compile) : Spares b.compile := by
  cases b with
  | mk loc body => exact body_spares h

theorem else_spares {no : Option Block} (h : ∀ s ∈ Block.elseBody no, Spares s.compile) :
    Spares (compileElse no) := by
  cases no with
  | none => exact emit_spares _ _
  | some b => exact .bind (block_spares h) fun _ => modifyDraft_spares _

theorem runAll_spares {steps : List (Bytes × Compile Unit)} (h : ∀ p ∈ steps, Spares p.2) :
    Spares (runAll steps) := by
  induction steps with
  | nil => exact .pure ()
  | cons p rest ih =>
    obtain ⟨hp, hrest⟩ := List.forall_mem_cons.1 h
    exact .bind hp fun _ => ih hrest

theorem compilePairs_eq (acc : List (Bytes × Compile Unit)) (pairs : List (Expr × Expr)) :
    compilePairs acc pairs =
      acc.reverse ++ pairs.map fun p => (p.1.render, do p.1.compile; p.2.compile) := by
  induction pairs generalizing acc with
  | nil => simp [compilePairs]
  | cons p rest ih => simp [compilePairs, ih]

theorem pairs_spare {pairs : List (Expr × Expr)}
    (h : ∀ p ∈ pairs, Spares p.1.compile ∧ Spares p.2.compile) :
    Spares (runAll ((compilePairs [] pairs).mergeSort fun a b => Bytes.le a.1 b.1)) := by
  refine runAll_spares fun step hstep => ?_
  rw [List.mem_mergeSort, compilePairs_eq, List.reverse_nil, List.nil_append] at hstep
  obtain ⟨p, hp, rfl⟩ := List.mem_map.1 hstep
  exact .bind (h p hp).1 fun _ => (h p hp).2

/-- Compiling a tree changes nothing of others. -/
theorem tree_spares : TreeSteps (fun e => Spares e.compile) (fun s => Spares s.compile) where
  ident id := by
    rw [Expr.compile]
    refine .bind (lookup_spares _) fun place? => ?_
    cases place? with
    | some place => exact load_spares place
    | none => exact .fail _ _
  int _ _ _ := .bind (constant_spares _ _) fun _ => emit_spares _ _
  string _ _ := .bind (constant_spares _ _) fun _ => emit_spares _ _
  bool _ _ := emit_spares _ _
  unary _ _ _ hright := .bind hright fun _ => operator_spares _ _ _
  binary loc op left right hleft hright := by
    rw [Expr.compile]
    split
    · exact .bind hright fun _ => .bind hleft fun _ => operator_spares _ _ _
    · exact .bind hleft fun _ => .bind hright fun _ => operator_spares _ _ _
  cond loc test yes no htest hyes hno := by
    rw [Expr.compile]
    refine .bind htest fun _ => .bind (emitJump_spares _) fun _ =>
      .bind (block_spares hyes) fun _ => ?_
    refine .bind (modifyDraft_spares _) fun _ => .bind (emitJump_spares _) fun _ => ?_
    refine .bind (modifyDraft_spares _) fun _ => .bind (else_spares hno) fun _ => ?_
    exact .bind (modifyDraft_spares _) fun _ => .bind draft_spares fun _ => check_spares _ _ _ _
  function loc name params body hbody := function_spares loc name params (block_spares hbody)
  call loc callee args hcallee hargs := by
    rw [Expr.compile]
    exact .bind (check_spares _ _ _ _) fun _ => .bind hcallee fun _ => .bind (items_spare hargs)
      fun _ => emit_spares _ _
  array loc items hitems := by
    rw [Expr.compile]
    exact .bind (check_spares _ _ _ _) fun _ => .bind (items_spare hitems) fun _ => emit_spares _ _
  hash loc pairs hpairs := by
    rw [Expr.compile]
    refine .bind (check_spares _ _ _ _) fun _ => ?_
    split
    · exact .bind (.fail _ _) fun _ => .bind (pairs_spare hpairs) fun _ => emit_spares _ _
    · exact .bind (pairs_spare hpairs) fun _ => emit_spares _ _
  index _ _ _ hleft hindex := .bind hleft fun _ => .bind hindex fun _ => emit_spares _ _
  missing := .fail _ _
  bind loc id value hvalue := by
    rw [Stmt.compile]
    refine .bind (define_spares _) fun place => ?_
    cases place with
    | global slot =>
      exact .bind (check_spares _ _ _ _) fun _ => .bind hvalue fun _ => emit_spares _ _
    | _ => exact .bind (check_spares _ _ _ _) fun _ => .bind hvalue fun _ => emit_spares _ _
  retNone _ := emit_spares _ _
  ret _ _ hvalue := .bind hvalue fun _ => emit_spares _ _
  expr _ _ hvalue := .bind hvalue fun _ => emit_spares _ _
  block _ hbody := block_spares hbody
  missingStmt := .fail _ _

end Compile

/-- Compiling a program changes nothing of others, however it ends, and ends where it began unless
in a fault. -/
theorem Program.compile_spares (p : Program) : Compile.Spares p.compile :=
  Compile.body_spares fun s _ => Compile.tree_spares.stmt_all s

end StackScript
