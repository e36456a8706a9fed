import StackScript.Proofs.Compile.Realization
import StackScript.Proofs.Tree.Parsed

/-!
# Faults of compilation

A compilation ends in one of the faults that its parts may end in. The pairs of
a hash literal are compiled in the order of their keys' texts; a key without a
text cannot come from a source, so every source is either compiled or has a
fault of its own.

## Main definitions

* `Compile.Fails`: what holds of all faults of a compilation.

## Main results

* `Program.ordered_of_error`: a program that was read can be put in order.
-/

namespace StackScript

namespace Compile

variable {α β : Type} {x : Compile α} {f : α → Compile β} {Q : CompileError → Prop}

/-- The property holds of every fault that the compilation ends in. -/
def Fails (x : Compile α) (Q : CompileError → Prop) : Prop := ∀ c e c', x c = .error e c' → Q e

theorem Fails.bind (hx : Fails x Q) (hf : ∀ a, Fails (f a) Q) : Fails (x >>= f) Q := by
  intro c e c' h
  change EStateM.bind x f c = _ at h
  unfold EStateM.bind at h
  split at h
  · next a c₁ _ => exact hf a c₁ e c' h
  · next hxc =>
    cases h
    exact hx c _ _ hxc

theorem Fails.pure (a : α) : Fails (Pure.pure a : Compile α) Q := by
  intro c e c' h
  cases h

theorem Fails.modifyGet (g : Compiler → α × Compiler) : Fails (modifyGet g : Compile α) Q := by
  intro c e c' h
  cases h

theorem Fails.get : Fails (get : Compile Compiler) Q := by
  intro c e c' h
  cases h

theorem Fails.set (c : Compiler) : Fails (set c : Compile Unit) Q := by
  intro c e c' h
  cases h

theorem Fails.fail {pos : Pos} {cause : CompileError.Cause} (h : Q ⟨cause, pos⟩) :
    Fails (fail pos cause : Compile α) Q := by
  intro c e c' he
  cases he
  exact h

/-! ### The parts of a compilation -/

/-- The fault is not that pairs cannot be put in order. -/
abbrev Ordered (e : CompileError) : Prop := e.cause ≠ .unorderedKey

theorem check_fails (pos : Pos) (n width : Nat) (what : Quantity) :
    Fails (check pos n width what) Ordered := by
  unfold check
  split
  · exact .pure _
  · exact .fail nofun

theorem emit_fails (op : Opcode) (operands : List Nat) : Fails (emit op operands) Ordered :=
  .modifyGet _

theorem emitJump_fails (op : Opcode) : Fails (emitJump op) Ordered :=
  .bind (.bind .get fun _ => .pure _) fun _ => .bind (emit_fails _ _) fun _ => .pure _

theorem constant_fails (pos : Pos) (make : Nat → Value) : Fails (constant pos make) Ordered :=
  .bind .get fun _ => .bind (.modifyGet _) fun _ => .bind (check_fails _ _ _ _) fun _ => .pure _

theorem load_fails (place : Place) : Fails (load place) Ordered := by
  cases place <;> exact emit_fails _ _

theorem loadAll_fails (symbols : List Symbol) : Fails (loadAll symbols) Ordered := by
  induction symbols with
  | nil => exact .pure _
  | cons s rest ih => exact .bind (load_fails _) fun _ => ih

theorem defineAll_fails (params : List Ident) : Fails (defineAll params) Ordered := by
  induction params with
  | nil => exact .pure _
  | cons p rest ih => exact .bind (.modifyGet _) fun _ => ih

theorem enter_fails (name : Bytes) (params : List Ident) : Fails (enter name params) Ordered := by
  refine .bind (.modifyGet _) fun _ => .bind ?_ fun _ => defineAll_fails params
  unfold defineSelf
  split
  · exact .pure _
  · exact .modifyGet _

theorem leave_fails : Fails leave Ordered := by
  refine .bind .get fun c => ?_
  split
  · exact .fail nofun
  · exact .set _

theorem closeFunction_fails (pos : Pos) (name : Bytes) (params : Nat) :
    Fails (closeFunction pos name params) Ordered :=
  .bind (.modifyGet _) fun _ => .bind .get fun _ => .bind (check_fails _ _ _ _) fun _ =>
    .bind (check_fails _ _ _ _) fun _ => .bind leave_fails fun _ =>
      .bind (loadAll_fails _) fun _ => .bind (constant_fails _ _) fun _ => emit_fails _ _

theorem operator_fails (pos : Pos) (op? : Option Opcode) (text : Bytes) :
    Fails (match op? with
      | some code => emit code []
      | none => fail pos (.unknownOperator text)) Ordered := by
  cases op? with
  | some code => exact emit_fails _ _
  | none => exact .fail nofun

theorem items_fail {items : List Expr} (h : ∀ e ∈ items, Fails e.compile Ordered) :
    Fails (compileItems items) Ordered := by
  induction items with
  | nil => exact .pure _
  | cons e rest ih =>
    obtain ⟨he, hrest⟩ := List.forall_mem_cons.1 h
    rw [compileItems]
    exact .bind he fun _ => ih hrest

theorem body_fails {body : List Stmt} (h : ∀ s ∈ body, Fails s.compile Ordered) :
    Fails (compileBody body) Ordered := by
  induction body with
  | nil => exact .pure _
  | cons s rest ih =>
    obtain ⟨hs, hrest⟩ := List.forall_mem_cons.1 h
    rw [compileBody]
    exact .bind hs fun _ => ih hrest

theorem runAll_fails {steps : List (Bytes × Compile Unit)} (h : ∀ p ∈ steps, Fails p.2 Ordered) :
    Fails (runAll steps) Ordered := by
  induction steps with
  | nil => exact .pure _
  | cons p rest ih =>
    obtain ⟨hp, hrest⟩ := List.forall_mem_cons.1 h
    exact .bind hp fun _ => ih hrest

theorem block_fails {b : Block} (h : ∀ s ∈ b.body, s.renderable = true → Fails s.compile Ordered)
    (hb : b.renderable = true) : Fails b.compile Ordered := by
  cases b with
  | mk loc body =>
    refine body_fails fun s hs => h s hs ?_
    exact Parse.renderableBody_iff.1 hb s hs

theorem else_fails {no : Option Block}
    (h : ∀ s ∈ Block.elseBody no, s.renderable = true → Fails s.compile Ordered)
    (hno : renderableElse no = true) : Fails (compileElse no) Ordered := by
  cases no with
  | none => exact emit_fails _ _
  | some b => exact .bind (block_fails h hno) fun _ => .modifyGet _

/-- The value of a statement is renderable, or it is a hole, which is a fault of its own. -/
theorem value_fails {value : Expr} (h : value.renderable = true → Fails value.compile Ordered)
    (hvalue : value ≠ .missing → value.renderable = true) : Fails value.compile Ordered := by
  by_cases hhole : value = .missing
  · subst hhole
    exact .fail nofun
  · exact h (hvalue hhole)

theorem bind_fails (loc : Loc) (id : Ident) {value : Expr} (h : Fails value.compile Ordered) :
    Fails (Stmt.bind loc id value).compile Ordered := by
  rw [Stmt.compile]
  refine .bind (.modifyGet _) fun place => ?_
  cases place with
  | global slot => exact .bind (check_fails _ _ _ _) fun _ => .bind h fun _ => emit_fails _ _
  | _ => exact .bind (check_fails _ _ _ _) fun _ => .bind h fun _ => emit_fails _ _

theorem tree_fails : TreeSteps (fun e => e.renderable = true → Fails e.compile Ordered)
    (fun s => s.renderable = true → Fails s.compile Ordered) where
  ident id _ := by
    rw [Expr.compile]
    refine .bind (.modifyGet _) fun place? => ?_
    cases place? with
    | some place => exact load_fails place
    | none => exact .fail (by simp)
  int loc literal value _ := .bind (constant_fails _ _) fun _ => emit_fails _ _
  string loc value _ := .bind (constant_fails _ _) fun _ => emit_fails _ _
  bool loc value _ := emit_fails _ _
  unary loc op right hright h := .bind (hright h) fun _ => operator_fails _ _ _
  binary loc op left right hleft hright h := by
    obtain ⟨hl, hr⟩ := Bool.and_eq_true_iff.1 h
    rw [Expr.compile]
    split
    · exact .bind (hright hr) fun _ => .bind (hleft hl) fun _ => operator_fails _ _ _
    · exact .bind (hleft hl) fun _ => .bind (hright hr) fun _ => operator_fails _ _ _
  cond loc test yes no htest hyes hno h := by
    obtain ⟨h, hn⟩ := Bool.and_eq_true_iff.1 h
    obtain ⟨ht, hy⟩ := Bool.and_eq_true_iff.1 h
    rw [Expr.compile]
    exact .bind (htest ht) fun _ => .bind (emitJump_fails _) fun _ => .bind (block_fails hyes hy)
      fun _ => .bind (.modifyGet _) fun _ => .bind (emitJump_fails _) fun _ => .bind (.modifyGet _)
      fun _ => .bind (else_fails hno hn) fun _ => .bind (.modifyGet _) fun _ =>
      .bind (.bind .get fun _ => .pure _) fun _ => check_fails _ _ _ _
  function loc name params body hbody h := by
    rw [Expr.compile]
    exact .bind (check_fails _ _ _ _) fun _ => .bind (enter_fails _ _) fun _ =>
      .bind (block_fails hbody h) fun _ => closeFunction_fails _ _ _
  call loc callee args hcallee hargs h := by
    obtain ⟨hc, ha⟩ := Bool.and_eq_true_iff.1 h
    rw [Expr.compile]
    refine .bind (check_fails _ _ _ _) fun _ => .bind (hcallee hc) fun _ => .bind (items_fail ?_)
      fun _ => emit_fails _ _
    exact fun e he => hargs e he (Parse.renderableItems_iff.1 ha e he)
  array loc items hitems h := by
    rw [Expr.compile]
    refine .bind (check_fails _ _ _ _) fun _ => .bind (items_fail ?_) fun _ => emit_fails _ _
    exact fun e he => hitems e he (Parse.renderableItems_iff.1 h e he)
  hash loc pairs hpairs h := by
    have hboth := Parse.renderablePairs_iff.1 h
    have hkeys : ¬(2 ≤ pairs.length ∧ pairs.any (fun p => !p.1.renderable) = true) := by
      rintro ⟨-, hany⟩
      obtain ⟨p, hp, hhole⟩ := List.any_eq_true.1 hany
      simp [(hboth p hp).1] at hhole
    rw [Expr.compile]
    refine .bind (check_fails _ _ _ _) fun _ => ?_
    rw [if_neg hkeys, compilePairs_eq, List.reverse_nil, List.nil_append]
    refine .bind (runAll_fails ?_) fun _ => emit_fails _ _
    intro step hstep
    obtain ⟨p, hp, rfl⟩ := List.mem_map.1 (List.mem_mergeSort.1 hstep)
    exact .bind ((hpairs p hp).1 (hboth p hp).1) fun _ => (hpairs p hp).2 (hboth p hp).2
  index loc left index hleft hindex h := by
    obtain ⟨hl, hi⟩ := Bool.and_eq_true_iff.1 h
    rw [Expr.compile]
    exact .bind (hleft hl) fun _ => .bind (hindex hi) fun _ => emit_fails _ _
  missing h := by cases h
  bind loc id value hvalue h := by
    refine bind_fails loc id (value_fails hvalue fun hhole => ?_)
    cases value with
    | missing => exact absurd rfl hhole
    | _ => exact h
  retNone loc _ := emit_fails _ _
  ret loc value hvalue h := .bind (hvalue h) fun _ => emit_fails _ _
  expr loc value hvalue h := by
    rw [Stmt.compile]
    refine .bind (value_fails hvalue fun hhole => ?_) fun _ => emit_fails _ _
    cases value with
    | missing => exact absurd rfl hhole
    | _ => exact h
  block body hbody h := block_fails hbody h
  missingStmt h := by cases h

end Compile

/-- A program that was read does not end its compilation because pairs cannot be put in order. -/
theorem Program.ordered_of_error {source : Bytes} {c c' : Compiler} {e : CompileError}
    (h : (Program.parse source).program.compile c = .error e c') : e.cause ≠ .unorderedKey := by
  have hbody := Parse.renderableBody_iff.1 (renderable_parse source)
  exact Compile.body_fails (fun s hs => Compile.tree_fails.stmt_all s (hbody s hs)) c e c' h

end StackScript
