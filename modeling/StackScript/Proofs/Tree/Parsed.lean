import StackScript.Tree.Parse
import StackScript.Tree.Render

/-!
# Trees that were read

A reader makes a node of the parts it has read and fails if one of them could
not be read, so what it yields has no hole where its text needs a part.

## Main definitions

* `Parse.Yields`: what holds of all that a reader yields.

## Main results

* `Program.renderable_parse`: a program that was read can be written down.
* `Program.ne_block_of_mem_parse`: none of its statements is a block of its own.
-/

namespace StackScript

namespace Parse

variable {α β : Type} {x : Parse α} {f : α → Parse β} {Q : α → Prop} {R : β → Prop}

theorem bind_some {a : α} {s s' : Stream} (h : x s = (some a, s')) (f : α → Parse β) :
    (x >>= f) s = f a s' := by
  simp only [Bind.bind, bind, h]

theorem bind_none {s s' : Stream} (h : x s = (none, s')) (f : α → Parse β) :
    (x >>= f) s = (none, s') := by
  simp only [Bind.bind, bind, h]

theorem attempt_eq {r : Option α} {s s' : Stream} (h : x s = (r, s')) :
    attempt x s = (some r, s') := by
  simp only [attempt, h]

/-- The property holds of all that the reader yields. -/
def Yields (x : Parse α) (Q : α → Prop) : Prop := ∀ s a s', x s = (some a, s') → Q a

theorem Yields.bind (hx : x.Yields Q) (hf : ∀ a, Q a → (f a).Yields R) : (x >>= f).Yields R := by
  intro s b s' h
  cases hxs : x s with
  | mk r s₁ =>
    cases r with
    | some a =>
      rw [bind_some hxs] at h
      exact hf a (hx s a s₁ hxs) s₁ b s' h
    | none =>
      rw [bind_none hxs] at h
      cases h

/-- What a reader before yields does not matter. -/
theorem Yields.after (hf : ∀ a, (f a).Yields R) : (x >>= f).Yields R :=
  Yields.bind (fun _ _ _ _ => trivial) fun a (_ : True) => hf a

theorem Yields.pure {a : α} (h : Q a) : (Pure.pure a : Parse α).Yields Q := by
  intro s b s' hb
  cases hb
  exact h

theorem Yields.fail : (fail : Parse α).Yields Q := by
  intro s a s' h
  cases h

theorem Yields.exhausted : (exhausted : Parse α).Yields Q := by
  intro s a s' h
  cases h

theorem Yields.attempt (hx : x.Yields Q) : (attempt x).Yields fun r => ∀ a, r = some a → Q a := by
  intro s r s' h
  cases hxs : x s with
  | mk r₁ s₁ =>
    rw [attempt_eq hxs] at h
    cases h
    rintro a rfl
    exact hx s a _ hxs

theorem Yields.ite {p : Prop} [Decidable p] {y : Parse α} (hx : p → x.Yields Q)
    (hy : ¬p → y.Yields Q) : (if p then x else y).Yields Q := by
  split
  · next hp => exact hx hp
  · next hp => exact hy hp

/-! ### Lists of trees -/

theorem renderableItems_iff {items : List Expr} :
    renderableItems items = true ↔ ∀ e ∈ items, e.renderable = true := by
  induction items with
  | nil => simp [renderableItems]
  | cons e rest ih => simp [renderableItems, ih]

theorem renderablePairs_iff {pairs : List (Expr × Expr)} :
    renderablePairs pairs = true ↔ ∀ p ∈ pairs, p.1.renderable = true ∧ p.2.renderable = true := by
  induction pairs with
  | nil => simp [renderablePairs]
  | cons p rest ih => simp [renderablePairs, ih, and_assoc]

theorem renderableBody_iff {body : List Stmt} :
    renderableBody body = true ↔ ∀ s ∈ body, s.renderable = true := by
  induction body with
  | nil => simp [renderableBody]
  | cons s rest ih => simp [renderableBody, ih]

theorem renderable_named (name : Bytes) (e : Expr) : (e.named name).renderable = e.renderable := by
  cases e <;> simp [Expr.named, Expr.renderable]

theorem renderable_bind {loc : Loc} {id : Ident} {value : Expr} (h : value.renderable = true) :
    (Stmt.bind loc id value).renderable = true := by
  cases value with
  | missing => rfl
  | _ => exact h

theorem renderable_expr {loc : Loc} {value : Expr} (h : value.renderable = true) :
    (Stmt.expr loc value).renderable = true := by
  cases value with
  | missing => rfl
  | _ => exact h

/-! ### Readers -/

/-- What the readers yield at a depth is renderable. -/
structure Reads (depth : Nat) : Prop where
  expr : ∀ precedence, (expr depth precedence).Yields (·.renderable = true)
  primary : (primary depth).Yields (·.renderable = true)
  unary : ∀ pos op, (unary depth pos op).Yields (·.renderable = true)
  conditional : ∀ pos, (conditional depth pos).Yields (·.renderable = true)
  operators : ∀ precedence left, left.renderable = true →
    (operators depth precedence left).Yields (·.renderable = true)
  list : ∀ close, (list depth close).Yields fun es => ∀ e ∈ es, e.renderable = true
  moreItems : ∀ close acc, (∀ e ∈ acc, e.renderable = true) →
    (moreItems depth close acc).Yields fun es => ∀ e ∈ es, e.renderable = true
  pairs : ∀ acc, (∀ p ∈ acc, p.1.renderable = true ∧ p.2.renderable = true) →
    (pairs depth acc).Yields fun ps => ∀ p ∈ ps, p.1.renderable = true ∧ p.2.renderable = true
  block : (block depth).Yields (·.renderable = true)
  statements : ∀ inBlock acc, (∀ s ∈ acc, s.renderable = true) →
    (statements depth inBlock acc).Yields fun ss => ∀ s ∈ ss, s.renderable = true
  statement : (statement depth).Yields (·.renderable = true)

namespace Reads

variable {depth : Nat} (h : Reads depth)

include h

theorem primary_succ : (Parse.primary (depth + 1)).Yields (·.renderable = true) := by
  rw [Parse.primary]
  refine .after fun t => ?_
  split
  · exact .after fun id => .pure rfl
  · unfold integer
    exact .after fun t => .ite (fun _ => .pure rfl) fun _ => .after fun _ => .fail
  · exact .pure rfl
  · exact .pure rfl
  · exact .pure rfl
  · exact h.unary _ _
  · exact h.unary _ _
  · refine .after fun _ => .bind (.attempt (h.expr _)) fun e he => .after fun _ => ?_
    cases e with
    | some e => exact .pure (he e rfl)
    | none => exact .fail
  · exact h.conditional _
  · exact .after fun _ => .after fun ps => .after fun _ => .bind h.block fun body hbody =>
      .after fun _ => .pure hbody
  · exact .bind (h.list _) fun items hitems => .after fun _ => .pure (renderableItems_iff.2 hitems)
  · exact .bind (h.pairs [] nofun) fun ps hps => .after fun _ => .pure (renderablePairs_iff.2 hps)
  · exact .after fun _ => .fail

theorem conditional_succ (pos : Pos) :
    (Parse.conditional (depth + 1) pos).Yields (·.renderable = true) := by
  rw [Parse.conditional]
  refine .after fun _ => .after fun _ => .bind (h.expr _) fun test htest => ?_
  refine .after fun _ => .after fun _ => .bind h.block fun yes hyes => .after fun p => ?_
  refine .ite (fun _ => ?_) fun _ => ?_
  · refine .after fun _ => .after fun _ => .bind h.block fun no hno => .after fun _ => .pure ?_
    simp [Expr.renderable, renderableElse, htest, hyes, hno]
  · refine .after fun _ => .pure ?_
    simp [Expr.renderable, renderableElse, htest, hyes]

theorem operators_succ (precedence : Nat) (left : Expr) (hleft : left.renderable = true) :
    (Parse.operators (depth + 1) precedence left).Yields (·.renderable = true) := by
  rw [Parse.operators]
  refine .after fun t => .ite (fun _ => .after fun _ => ?_) fun _ => .pure hleft
  dsimp only
  split
  · refine .bind (h.list _) fun args hargs => .after fun _ => h.operators _ _ ?_
    simp [Expr.renderable, hleft, renderableItems_iff.2 hargs]
  · refine .after fun _ => .bind (h.expr _) fun index hindex => .after fun _ => .after fun _ =>
      h.operators _ _ ?_
    simp [Expr.renderable, hleft, hindex]
  · split
    · refine .after fun _ => .bind (h.expr _) fun right hright => h.operators _ _ ?_
      simp [Expr.renderable, hleft, hright]
    · exact .pure hleft

theorem moreItems_succ (close : Token.Kind) (acc : List Expr)
    (hacc : ∀ e ∈ acc, e.renderable = true) :
    (Parse.moreItems (depth + 1) close acc).Yields fun es => ∀ e ∈ es, e.renderable = true := by
  rw [Parse.moreItems]
  refine .after fun t => .ite (fun _ => ?_) fun _ => ?_
  · refine .after fun _ => .after fun _ => .bind (h.expr _) fun e he => h.moreItems _ _ ?_
    exact List.forall_mem_cons.2 ⟨he, hacc⟩
  · exact .after fun _ => .pure (by simpa using hacc)

theorem list_succ (close : Token.Kind) :
    (Parse.list (depth + 1) close).Yields fun es => ∀ e ∈ es, e.renderable = true := by
  rw [Parse.list]
  refine .after fun t => .ite (fun _ => ?_) fun _ => ?_
  · exact .after fun _ => .pure nofun
  · refine .after fun _ => .bind (h.expr _) fun e he => h.moreItems _ _ ?_
    simpa using he

theorem pairs_succ (acc : List (Expr × Expr))
    (hacc : ∀ p ∈ acc, p.1.renderable = true ∧ p.2.renderable = true) :
    (Parse.pairs (depth + 1) acc).Yields fun ps =>
      ∀ p ∈ ps, p.1.renderable = true ∧ p.2.renderable = true := by
  rw [Parse.pairs]
  refine .after fun t => .ite (fun _ => ?_) fun _ => ?_
  · exact .after fun _ => .pure (by simpa using hacc)
  · refine .after fun _ => .bind (h.expr _) fun key hkey => .after fun _ => .after fun _ =>
      .bind (h.expr _) fun value hvalue => .after fun t => ?_
    have hmore := h.pairs ((key, value) :: acc) (List.forall_mem_cons.2 ⟨⟨hkey, hvalue⟩, hacc⟩)
    exact .ite (fun _ => .after fun _ => hmore) fun _ => hmore

theorem block_succ : (Parse.block (depth + 1)).Yields (·.renderable = true) := by
  rw [Parse.block]
  refine .after fun _ => .after fun _ => .bind (h.statements true [] nofun) fun body hbody =>
    .after fun stop => ?_
  have hblock (loc : Loc) : (Block.mk loc body).renderable = true := renderableBody_iff.2 hbody
  exact .ite (fun _ => .after fun _ => .pure (hblock _)) fun _ => .pure (hblock _)

theorem statements_succ (inBlock : Bool) (acc : List Stmt) (hacc : ∀ s ∈ acc, s.renderable = true) :
    (Parse.statements (depth + 1) inBlock acc).Yields fun ss => ∀ s ∈ ss, s.renderable = true := by
  rw [Parse.statements]
  refine .after fun t => .ite (fun _ => .pure (by simpa using hacc)) fun _ => ?_
  refine .ite (fun _ => .after fun _ => h.statements _ _ hacc) fun _ => ?_
  refine .bind (.attempt h.statement) fun r hr => .after fun _ => h.statements _ _ ?_
  intro s hs
  obtain hs | hs := List.mem_append.1 hs
  · exact hr s (Option.mem_toList.1 hs)
  · exact hacc s hs

theorem statement_succ : (Parse.statement (depth + 1)).Yields (·.renderable = true) := by
  rw [Parse.statement]
  refine .after fun t => ?_
  split
  · refine .after fun _ => .after fun id => .after fun _ => .after fun _ => .bind (h.expr _)
      fun value hvalue => .after fun _ => ?_
    have hbind (loc : Loc) : (Stmt.bind loc id (value.named id.name)).renderable = true :=
      renderable_bind (by rwa [renderable_named])
    exact .ite (fun _ => .after fun _ => .after fun _ => .pure (hbind _)) fun _ =>
      .after fun _ => .pure (hbind _)
  · refine .after fun p => .ite (fun _ => .after fun _ => .pure rfl) fun _ => ?_
    refine .ite (fun _ => .pure rfl) fun _ => ?_
    refine .after fun _ => .bind (h.expr _) fun value hvalue => .after fun _ => ?_
    exact .ite (fun _ => .after fun _ => .after fun _ => .pure hvalue) fun _ =>
      .after fun _ => .pure hvalue
  · refine .bind (h.expr _) fun value hvalue => .after fun _ => ?_
    exact .ite (fun _ => .after fun _ => .pure (renderable_expr hvalue)) fun _ =>
      .pure (renderable_expr hvalue)

end Reads

theorem reads (depth : Nat) : Reads depth := by
  induction depth with
  | zero =>
    exact ⟨fun _ => .exhausted, .exhausted, fun _ _ => .exhausted, fun _ => .exhausted,
      fun _ _ _ => .exhausted, fun _ => .exhausted, fun _ _ _ => .exhausted, fun _ _ => .exhausted,
      .exhausted, fun _ _ _ => .exhausted, .exhausted⟩
  | succ depth h =>
    exact {
      expr := fun precedence => .bind h.primary fun left hleft => h.operators _ _ hleft
      primary := h.primary_succ
      unary := fun pos op => .after fun _ => .bind (h.expr _) fun right hright => .pure hright
      conditional := h.conditional_succ
      operators := h.operators_succ
      list := h.list_succ
      moreItems := h.moreItems_succ
      pairs := h.pairs_succ
      block := h.block_succ
      statements := h.statements_succ
      statement := h.statement_succ }

/-! ### Statements -/

/-- What holds of every statement that is read holds of all the statements of a body. -/
theorem statements_yields {Q : Stmt → Prop} (hstatement : ∀ depth, (Parse.statement depth).Yields Q)
    (depth : Nat) (inBlock : Bool) (acc : List Stmt) (hacc : ∀ s ∈ acc, Q s) :
    (Parse.statements depth inBlock acc).Yields fun ss => ∀ s ∈ ss, Q s := by
  induction depth generalizing acc with
  | zero => exact .exhausted
  | succ depth ih =>
    rw [Parse.statements]
    refine .after fun t => .ite (fun _ => .pure (by simpa using hacc)) fun _ => ?_
    refine .ite (fun _ => .after fun _ => ih acc hacc) fun _ => ?_
    refine .bind (.attempt (hstatement depth)) fun r hr => .after fun _ => ih _ ?_
    intro s hs
    obtain hs | hs := List.mem_append.1 hs
    · exact hr s (Option.mem_toList.1 hs)
    · exact hacc s hs

/-- Blocks stand in conditions and functions only. -/
theorem statement_ne_block (depth : Nat) :
    (Parse.statement depth).Yields fun s => ∀ body, s ≠ .block body := by
  cases depth with
  | zero => exact .exhausted
  | succ depth =>
    rw [Parse.statement]
    refine .after fun t => ?_
    split
    · refine .after fun _ => .after fun _ => .after fun _ => .after fun _ => .after fun _ =>
        .after fun _ => ?_
      exact .ite (fun _ => .after fun _ => .after fun _ => .pure nofun) fun _ =>
        .after fun _ => .pure nofun
    · refine .after fun _ => .ite (fun _ => .after fun _ => .pure nofun) fun _ => ?_
      refine .ite (fun _ => .pure nofun) fun _ => .after fun _ => .after fun _ => .after fun _ => ?_
      exact .ite (fun _ => .after fun _ => .after fun _ => .pure nofun) fun _ =>
        .after fun _ => .pure nofun
    · refine .after fun _ => .after fun _ => ?_
      exact .ite (fun _ => .after fun _ => .pure nofun) fun _ => .pure nofun

end Parse

/-- What holds of the statements that are read holds of those of a program. -/
theorem Program.forall_body_parse {Q : Stmt → Prop} (source : Bytes)
    (hyields : ∀ depth, (Parse.statements depth false []).Yields fun ss => ∀ s ∈ ss, Q s) :
    ∀ s ∈ (Program.parse source).program.body, Q s := by
  change ∀ s ∈ (Parse.statements (Parse.depthFor (Token.scan source).1.length) false []
    ⟨(Token.scan source).1, (Token.scan source).2, [], false⟩).1.getD [], Q s
  cases hresult : Parse.statements (Parse.depthFor (Token.scan source).1.length) false []
      ⟨(Token.scan source).1, (Token.scan source).2, [], false⟩ with
  | mk body s =>
    cases body with
    | none => exact nofun
    | some body => exact hyields _ _ body s hresult

/-- A program that was read has no hole where its text needs a part, even if there are faults. -/
theorem Program.renderable_parse (source : Bytes) :
    (Program.parse source).program.renderable = true :=
  Parse.renderableBody_iff.2 (Program.forall_body_parse source fun depth =>
    (Parse.reads depth).statements false [] nofun)

theorem Program.ne_block_of_mem_parse (source : Bytes) :
    ∀ s ∈ (Program.parse source).program.body, ∀ body, s ≠ .block body :=
  Program.forall_body_parse source fun depth =>
    Parse.statements_yields Parse.statement_ne_block depth false [] nofun

end StackScript
