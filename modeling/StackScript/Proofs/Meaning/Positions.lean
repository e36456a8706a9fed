import StackScript.Proofs.Meaning.Expressions

/-!
# Arguments by position

The variables of a call start with the arguments in the order of their slots. If
no function has a parameter twice, this is the order of the parameters, and a
program means the same by either rule: each evaluation by slots is one by
positions, and ends with the same value, fault, output and store.

## Main definitions

* `Distinct`: no function in a tree has a parameter twice.
* `Eval.Agree`: two evaluations do the same in stores without such functions.

## Main results

* `Lambda.bySlot_eq_byPosition`: the rules are the same for a function that has no parameter twice.
* `tree_agree`: a tree is evaluated alike by two ways of calling that agree.
* `Program.eval_agree`: a program means the same by either rule.
-/

namespace StackScript

/-! ### The two rules -/

/-- Names that have no argument start with null. -/
theorem startWith_append {names rest : List Bytes} {args : List Value}
    (hlength : args.length = names.length) : startWith (names ++ rest) args = startWith names args := by
  funext x
  unfold startWith List.idxOf?
  rw [List.findIdx?_append]
  cases names.findIdx? (· == x) with
  | some k => rfl
  | none =>
    -- A name after them has a position that no argument has.
    cases rest.findIdx? (· == x) with
    | none => rfl
    | some k => simp [← hlength]

/-- If the parameters have different names, each starts with the argument of its position. -/
theorem Lambda.bySlot_eq_byPosition (c : Lambda) {args : List Value}
    (hnodup : (c.params.map (·.name)).Nodup) (hlength : args.length = c.params.length) :
    c.bySlot args = c.byPosition args := by
  obtain ⟨rest, hrest⟩ := prefix_foldl_addName (c.params.map (·.name)) c.body.lets
  have hslots : c.slots = c.params.map (·.name) ++ rest := by
    rw [Lambda.slots, List.foldl_append, hrest]
    congr 1
    exact foldl_addName_of_nodup hnodup
  rw [Lambda.bySlot, Lambda.byPosition, hslots, startWith_append]
  rw [hlength, List.length_map]

/-- Of three parameters of which the first two have the same name, the third has the second slot, and
so the second argument. -/
example (pos : Loc) (names : Names) (v₁ v₂ v₃ : Value) :
    (⟨[], [⟨pos, "x"⟩, ⟨pos, "x"⟩, ⟨pos, "y"⟩], .mk pos [], names, []⟩ : Lambda).bySlot [v₁, v₂, v₃] "y" =
      v₂ := by
  cbv

/-! ### Functions that have no parameter twice -/

/-- No function that is the node or a part of it has a parameter twice. -/
def Distinct (x : Expr ⊕ Stmt) : Prop :=
  ∀ loc name params body, Within (.function loc name params body) x → (params.map (·.name)).Nodup

/-- Neither the function nor one in its body has a parameter twice. -/
def Lambda.Distinct (c : Lambda) : Prop :=
  (c.params.map (·.name)).Nodup ∧ ∀ s ∈ c.body.body, StackScript.Distinct (.inr s)

/-- No closure has a parameter twice. -/
def Store.Distinct (st : Store) : Prop := ∀ c ∈ st.lambdas, c.Distinct

/-- No function in the program has a parameter twice. -/
def Program.Distinct (p : Program) : Prop := ∀ s ∈ p.body, StackScript.Distinct (.inr s)

/-- What is not repeated in a node is not repeated in its parts. -/
theorem Distinct.part {x y : Expr ⊕ Stmt} (h : Distinct x) (hpart : ∀ e, Within e y → Within e x) :
    Distinct y :=
  fun loc name params body hwithin => h loc name params body (hpart _ hwithin)

theorem Lambda.find?_mem {lambdas : List Lambda} {id : Nat} {c : Lambda}
    (h : Lambda.find? lambdas id = some c) : c ∈ lambdas := by
  cases id with
  | zero => cases h
  | succ n => exact List.mem_of_getElem? h

/-! ### Evaluations that agree -/

namespace Eval

variable {α β : Type} {x y : Eval α} {f g : α → Eval β}

/-- In a store without repeated parameters the evaluations do the same, and such a store is left. -/
def Agree (x y : Eval α) : Prop :=
  ∀ st : Store, st.Distinct →
    x st = y st ∧ x.Sat st (fun _ st' => st'.Distinct) fun _ st' => st'.Distinct

namespace Agree

theorem bind (h : Agree x y) (hf : ∀ a, Agree (f a) (g a)) : Agree (x >>= f) (y >>= g) := by
  intro st hst
  obtain ⟨heq, hkept⟩ := h st hst
  change EStateM.bind x f st = EStateM.bind y g st ∧ _
  rw [sat_bind, EStateM.bind, EStateM.bind, ← heq]
  unfold Sat at hkept ⊢
  cases hx : x st with
  | ok a st' =>
    rw [hx] at hkept
    exact hf a st' hkept
  | error b st' =>
    rw [hx] at hkept
    exact ⟨rfl, hkept⟩

/-- What comes next may rely on the store. -/
theorem bind_get {f g : Store → Eval β} (h : ∀ st, st.Distinct → Agree (f st) (g st)) :
    Agree (get >>= f) (get >>= g) :=
  fun st hst => h st hst st hst

protected theorem pure (a : α) : Agree (pure a) (pure a) := fun _ hst => ⟨rfl, hst⟩

protected theorem throw (b : Break) : Agree (throw b : Eval α) (throw b) := fun _ hst => ⟨rfl, hst⟩

protected theorem modify {f : Store → Store} (h : ∀ st, (f st).lambdas = st.lambdas) :
    Agree (modify f) (modify f) := by
  refine fun st hst => ⟨rfl, ?_⟩
  rw [sat_modify, Store.Distinct, h]
  exact hst

protected theorem lift (r : Except Fault Value) : Agree (lift r) (lift r) := by
  cases r with
  | ok v => exact .pure v
  | error f => exact .throw _

protected theorem catchReturn {x y : Eval Value} (h : Agree x y) :
    Agree (catchReturn x) (catchReturn y) := by
  intro st hst
  obtain ⟨heq, hkept⟩ := h st hst
  rw [sat_catchReturn, catchReturn, catchReturn, ← heq]
  refine ⟨rfl, ?_⟩
  unfold Sat at hkept ⊢
  cases hx : x st with
  | ok a st' =>
    rw [hx] at hkept
    exact hkept
  | error b st' =>
    rw [hx] at hkept
    cases b <;> exact hkept

protected theorem makeClosure {c : Lambda} (hc : c.Distinct) :
    Agree (makeClosure c) (makeClosure c) := by
  refine fun st hst => ⟨rfl, ?_⟩
  intro c' hc'
  obtain hc' | hc' := List.mem_append.1 hc'
  · exact hst c' hc'
  · obtain rfl := List.mem_singleton.1 hc'
    exact hc

protected theorem assign (current : Option Current) (name : Bytes) (v : Value) :
    Agree (assign current name v) (assign current name v) :=
  .modify fun _ => by cases current <;> rfl

end Agree

end Eval

/-! ### Trees -/

section

open Eval (Agree)

variable {call call' : Value → List Value → Eval Value} {current : Option Current}

theorem unary_agree (op : UnaryOp) (v : Value) : Agree (op.eval v) (op.eval v) := by
  cases op with
  | not => exact .pure _
  | neg => exact .lift _
  | other _ => exact .throw _

theorem binary_agree (op : BinaryOp) (a b : Value) : Agree (op.eval a b) (op.eval a b) := by
  cases op with
  | equal | notEqual => exact .pure _
  | other _ => exact .throw _
  | _ => exact .lift _

theorem items_agree {items : List Expr}
    (h : ∀ e ∈ items, ∀ names, Agree (e.eval call current names) (e.eval call' current names))
    (names : Names) :
    Agree (evalItems call current names items) (evalItems call' current names items) := by
  induction items generalizing names with
  | nil => exact .pure _
  | cons e rest ih =>
    obtain ⟨he, hrest⟩ := List.forall_mem_cons.1 h
    rw [evalItems, evalItems]
    exact .bind (he names) fun _ => .bind (ih hrest _) fun _ => .pure _

theorem pairs_agree {pairs : List (Expr × Expr)}
    (h : ∀ p ∈ pairs,
      (∀ names, Agree (p.1.eval call current names) (p.1.eval call' current names)) ∧
      ∀ names, Agree (p.2.eval call current names) (p.2.eval call' current names))
    (names : Names) :
    Agree (PairEval.runAll names (pairs.map (pairEval call current)))
      (PairEval.runAll names (pairs.map (pairEval call' current))) := by
  induction pairs generalizing names with
  | nil => exact .pure _
  | cons p rest ih =>
    obtain ⟨⟨hkey, hvalue⟩, hrest⟩ := List.forall_mem_cons.1 h
    rw [List.map_cons, List.map_cons, PairEval.runAll, PairEval.runAll]
    refine .bind ?_ fun _ => .bind (ih hrest _) fun _ => .pure _
    exact .bind (hkey _) fun _ => .bind (hvalue _) fun _ => .pure _

theorem body_agree {body : List Stmt}
    (h : ∀ s ∈ body, ∀ names last,
      Agree (s.eval call current names last) (s.eval call' current names last))
    (names : Names) (last : Last) :
    Agree (evalBody call current names last body) (evalBody call' current names last body) := by
  induction body generalizing names last with
  | nil => exact .pure _
  | cons s rest ih =>
    obtain ⟨hs, hrest⟩ := List.forall_mem_cons.1 h
    rw [evalBody, evalBody]
    exact .bind (hs names last) fun _ => ih hrest _ _

theorem block_agree {b : Block}
    (h : ∀ s ∈ b.body, ∀ names last,
      Agree (s.eval call current names last) (s.eval call' current names last))
    (names : Names) (last : Last) :
    Agree (b.eval call current names last) (b.eval call' current names last) := by
  cases b with
  | mk loc body =>
    rw [Block.eval, Block.eval]
    exact body_agree h names last

theorem else_agree {no : Option Block}
    (h : ∀ s ∈ Block.elseBody no, ∀ names last,
      Agree (s.eval call current names last) (s.eval call' current names last))
    (names : Names) :
    Agree (evalElse call current names no) (evalElse call' current names no) := by
  cases no with
  | none => exact .pure _
  | some b =>
    rw [evalElse, evalElse]
    exact block_agree h names .none

/-- If two ways of calling agree, so do the evaluations of a tree. -/
theorem tree_agree (current : Option Current)
    (hcall : ∀ v args, Agree (call v args) (call' v args)) :
    TreeSteps
      (fun e => Distinct (.inl e) → ∀ names,
        Agree (e.eval call current names) (e.eval call' current names))
      (fun s => Distinct (.inr s) → ∀ names last,
        Agree (s.eval call current names last) (s.eval call' current names last)) where
  ident id _ names := by
    rw [Expr.eval, Expr.eval]
    refine .bind_get fun st _ => ?_
    split
    · exact .pure _
    · exact .throw _
  int _ _ _ _ _ := .pure _
  string _ _ _ _ := .pure _
  bool _ _ _ _ := .pure _
  unary loc op right hright h names := by
    rw [Expr.eval, Expr.eval]
    exact .bind (hright (h.part fun _ => .operand) names) fun v => unary_agree op v
  binary loc op left right hleft hright h names := by
    have hleft := hleft (h.part fun _ => .left)
    have hright := hright (h.part fun _ => .right)
    rw [Expr.eval, Expr.eval]
    split
    · exact .bind (hright _) fun b => .bind (hleft _) fun a => binary_agree op a b
    · exact .bind (hleft _) fun a => .bind (hright _) fun b => binary_agree op a b
  cond loc test yes no htest hyes hno h names := by
    rw [Expr.eval, Expr.eval]
    refine .bind (htest (h.part fun _ => .test) _) fun v => ?_
    split
    · refine .bind (block_agree (fun s hs => ?_) _ _) fun _ => .pure _
      exact hyes s hs (h.part fun _ => .yes hs)
    · refine .bind (else_agree (fun s hs => ?_) _) fun _ => .pure _
      exact hno s hs (h.part fun _ => .no hs)
  function loc name params body _ h names := by
    rw [Expr.eval, Expr.eval]
    refine .bind_get fun st _ => .makeClosure ⟨h _ _ _ _ .self, fun s hs => ?_⟩
    exact h.part fun _ => .function hs
  call loc callee args hcallee hargs h names := by
    rw [Expr.eval, Expr.eval]
    refine .bind (hcallee (h.part fun _ => .callee) _) fun f => ?_
    refine .bind (items_agree (fun e he => ?_) _) fun vs => hcall f vs
    exact hargs e he (h.part fun _ => .arg he)
  array loc items hitems h names := by
    rw [Expr.eval, Expr.eval]
    refine .bind (items_agree (fun e he => ?_) _) fun _ => .pure _
    exact hitems e he (h.part fun _ => .item he)
  hash loc pairs hpairs h names := by
    rw [Expr.eval, Expr.eval, evalPairs_inOrder, evalPairs_inOrder]
    refine .bind (pairs_agree (fun p hp => ?_) _) fun _ => .lift _
    have hp := List.mem_mergeSort.1 hp
    exact ⟨(hpairs p hp).1 (h.part fun _ => .key hp), (hpairs p hp).2 (h.part fun _ => .value hp)⟩
  index loc left index hleft hindex h names := by
    rw [Expr.eval, Expr.eval]
    refine .bind (hleft (h.part fun _ => .indexed) _) fun v => ?_
    exact .bind (hindex (h.part fun _ => .index) _) fun i => .lift _
  missing _ _ := .throw _
  bind loc id value hvalue h names last := by
    rw [Stmt.eval, Stmt.eval]
    refine .bind (hvalue (h.part fun _ => .bind) _) fun v => ?_
    exact .bind (.assign current id.name v) fun _ => .pure _
  retNone _ _ _ _ := .throw _
  ret loc value hvalue h names last := by
    rw [Stmt.eval, Stmt.eval]
    exact .bind (hvalue (h.part fun _ => .ret) _) fun _ => .throw _
  expr loc value hvalue h names last := by
    rw [Stmt.eval, Stmt.eval]
    exact .bind (hvalue (h.part fun _ => .expr) _) fun _ => .pure _
  block body hbody h names last := by
    rw [Stmt.eval, Stmt.eval]
    exact block_agree (fun s hs => hbody s hs (h.part fun _ => .block hs)) names last
  missingStmt _ _ _ := .throw _

/-! ### Calls -/

theorem run_agree (hcall : ∀ v args, Agree (call v args) (call' v args)) (self : Value) {c : Lambda}
    (hc : c.Distinct) {args : List Value} (hlength : args.length = c.params.length) :
    Agree (c.run Lambda.bySlot call self args) (c.run Lambda.byPosition call' self args) := by
  have hbody := fun s hs => (tree_agree (some ⟨self, c.around⟩) hcall).stmt_all s (hc.2 s hs)
  rw [Lambda.run, Lambda.run, c.bySlot_eq_byPosition hc.1 hlength]
  refine .bind_get fun st _ => .bind (.modify fun _ => rfl) fun _ => ?_
  refine .bind (.catchReturn ?_) fun v => ?_
  · exact .bind (block_agree hbody _ _) fun _ => .pure _
  · exact .bind (.modify fun _ => rfl) fun _ => .pure _

theorem applyInside_agree [Casing] {inside inside' : Option (Value → List Value → Eval Value)}
    (h : Option.Rel (fun call call' => ∀ v args, Agree (call v args) (call' v args)) inside inside')
    (v : Value) (args : List Value) :
    Agree (applyInside Lambda.bySlot inside v args)
      (applyInside Lambda.byPosition inside' v args) := by
  unfold applyInside
  split
  · refine .bind_get fun st hst => ?_
    split
    · exact .throw _
    · next c hfind =>
      split
      · next hlength =>
        cases h with
        | none => exact .throw _
        | some hcall => exact run_agree hcall _ (hst c (Lambda.find?_mem hfind)) hlength
      · exact .throw _
  · exact .bind (.modify fun _ => rfl) fun _ => .pure _
  · exact .throw _

theorem apply_agree [Casing] (depth : Nat) (v : Value) (args : List Value) :
    Agree (apply Lambda.bySlot depth v args) (apply Lambda.byPosition depth v args) := by
  induction depth generalizing v args with
  | zero => exact applyInside_agree .none v args
  | succ depth ih => exact applyInside_agree (.some ih) v args

/-- A program in which no function has a parameter twice means the same by either rule, in a store
whose closures have none twice. -/
theorem Program.eval_agree [Casing] {p : Program} (hp : p.Distinct) (depth : Nat)
    (globals : List Bytes) :
    Agree (p.eval Lambda.bySlot depth globals) (p.eval Lambda.byPosition depth globals) :=
  .catchReturn (.bind
    (body_agree (fun s hs => (tree_agree none (apply_agree depth)).stmt_all s (hp s hs)) _ _)
    fun _ => .pure _)

end

end StackScript
