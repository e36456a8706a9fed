import StackScript.Proofs.Compile.Isolation

/-!
# Compilation follows the scheme

Whenever the compilation of a node succeeds, the draft of the current function
has grown by instructions that the scheme allows for the node, and the drafts of
the functions around it are as before. The proof follows the steps of the
compilation. The only step that reaches back into a draft is the landing of a
jump, so a conditional is where drafts are computed with; everything else is
composed from `Realizes.seq`.

## Main definitions

* `Draft.append`: a draft with more instructions at its end.
* `Compile.Realizes`: a step of a compilation emits what is described.

## Main results

* `Compile.tree_realizes`: expressions and statements are compiled by the scheme.
* `Session.compile_emits`: so is the source of a session.
-/

namespace StackScript

/-! ### Drafts -/

namespace Draft

/-- The draft with more instructions at its end. -/
def append (d : Draft) (seg : List Instr) : Draft :=
  ⟨d.instrs ++ seg.toArray, d.size + Instr.bytes seg⟩

@[simp] theorem append_nil (d : Draft) : d.append [] = d := by
  simp [append]

@[simp] theorem append_append (d : Draft) (s t : List Instr) :
    (d.append s).append t = d.append (s ++ t) := by
  simp [append, Nat.add_assoc]

theorem size_instrs_append (d : Draft) (seg : List Instr) :
    (d.append seg).instrs.size = d.instrs.size + seg.length := by
  simp [append]

theorem emit_eq_append (d : Draft) (i : Instr) : d.emit i = d.append [i] := by
  simp [emit, append]

theorem lastIs_append (d : Draft) (seg : List Instr) (i : Instr) (op : Opcode) :
    (d.append (seg ++ [i])).lastIs op = (i.op == op) := by
  simp [lastIs, append]

theorem dropLast_append (d : Draft) (seg : List Instr) {i : Instr} (h : i.op.size = 1) :
    (d.append (seg ++ [i])).dropLast = d.append seg := by
  simp only [append, dropLast, Instr.bytes_append, Instr.bytes_cons, h]
  simp only [Draft.mk.injEq]
  constructor
  · simp
  · simp

/-- What follows an instruction that is neither a pop nor a return is kept as a branch by itself. -/
theorem keepValue_append {d : Draft} (hpop : d.lastIs .pop = false) (hret : d.returns = false)
    (seg : List Instr) : (d.append seg).keepValue = d.append (Instr.keepValue seg) := by
  rcases List.eq_nil_or_concat seg with rfl | ⟨seg, i, rfl⟩
  · simp [keepValue, hpop, hret, Instr.keepValue, emit_eq_append]
  · simp only [List.concat_eq_append, keepValue, returns, lastIs_append, Instr.keepValue,
      List.getLast?_append, List.getLast?_singleton, Option.some_or, beq_iff_eq, Bool.or_eq_true,
      Instr.Returns]
    split
    · next h => rw [dropLast_append d seg (by rw [h]; rfl), List.dropLast_concat]
    · split
      · rfl
      · rw [emit_eq_append, append_append]

theorem close_empty_append (seg : List Instr) :
    (empty.append seg).close = empty.append (Instr.close seg) := by
  rcases List.eq_nil_or_concat seg with rfl | ⟨seg, i, rfl⟩
  · rfl
  · simp only [List.concat_eq_append, close, lastIs_append, Instr.close,
      List.getLast?_append, List.getLast?_singleton, Option.some_or, beq_iff_eq, Instr.Returns]
    by_cases h : i.op = .pop
    · simp only [h, if_true, List.dropLast_concat]
      rw [dropLast_append empty seg (by rw [h]; rfl), emit_eq_append, append_append]
      simp [returns, lastIs_append]
    · simp only [h, if_false, returns, lastIs_append, beq_iff_eq, Bool.or_eq_true]
      split
      · rfl
      · rw [emit_eq_append, append_append]

private theorem modify_length_append {α : Type} (l r : List α) (a : α) (f : α → α) :
    (l ++ a :: r).modify l.length f = l ++ f a :: r := by
  induction l with
  | nil => simp
  | cons b l ih => simp [ih]

/-- Giving a jump its target. -/
theorem patch_append (d : Draft) (s t : List Instr) (i : Instr) (target : Nat) :
    (d.append (s ++ i :: t)).patch (d.instrs.size + s.length) target =
      d.append (s ++ ⟨i.op, [target]⟩ :: t) := by
  have hmodify := modify_length_append (d.instrs.toList ++ s) t i (fun i => ⟨i.op, [target]⟩)
  simp only [patch, append, Instr.bytes_append, Instr.bytes_cons, Draft.mk.injEq, and_true]
  apply Array.toList_inj.1
  simpa using hmodify

end Draft

/-! ### Steps of a compilation -/

namespace Compile

/-- The compilation after more was emitted, with other names and constants. -/
structure Extends (c : Compiler) (seg : List Instr) (c' : Compiler) : Prop where
  draft : c'.scope.draft = c.scope.draft.append seg
  outer : c'.outer.map (·.draft) = c.outer.map (·.draft)

/-- Whenever the step succeeds, it emits what is described. -/
def Realizes (x : Compile Unit) (p : Emission) : Prop :=
  ∀ c c', x c = .ok () c' →
    ∃ seg, p c.scope.draft.size c.context seg c'.context ∧ Extends c seg c'

theorem get_ok {c c' a : Compiler} (h : (get : Compile Compiler) c = .ok a c') :
    a = c ∧ c' = c := by
  cases h
  exact ⟨rfl, rfl⟩

theorem modifyGet_ok {α : Type} {f : Compiler → α × Compiler} {c c' : Compiler} {a : α}
    (h : (modifyGet f : Compile α) c = .ok a c') : f c = (a, c') := by
  have heq : (modifyGet f : Compile α) c = .ok (f c).1 (f c).2 := rfl
  rw [heq] at h
  obtain ⟨rfl, rfl⟩ := EStateM.Result.ok.inj h
  rfl

theorem modifyDraft_ok {f : Draft → Draft} {c c' : Compiler} (h : modifyDraft f c = .ok () c') :
    c' = c.modifyDraft f := by
  cases h
  rfl

theorem check_ok {pos : Pos} {n width : Nat} {what : Quantity} {c c' : Compiler}
    (h : check pos n width what c = .ok () c') : n ≤ maxOperand width ∧ c' = c := by
  unfold check at h
  split at h
  · next hn =>
    cases h
    exact ⟨hn, rfl⟩
  · cases h

theorem constant_ok {pos : Pos} {make : Nat → Value} {c c' : Compiler} {n : Nat}
    (h : constant pos make c = .ok n c') :
    n = c.constants.size ∧ n ≤ maxOperand 2 ∧
      c' = c.addConstant (make n) := by
  obtain ⟨_, _, hget, h⟩ := bind_ok h
  cases hget
  obtain ⟨_, _, hmodify, h⟩ := bind_ok h
  cases hmodify
  obtain ⟨_, _, hcheck, h⟩ := bind_ok h
  obtain ⟨hn, rfl⟩ := check_ok hcheck
  cases h
  exact ⟨rfl, hn, rfl⟩

theorem emit_realizes (op : Opcode) (ns : List Nat) : Realizes (emit op ns) (.one ⟨op, ns⟩) := by
  intro c c' h
  cases h
  exact ⟨[⟨op, ns⟩], ⟨rfl, rfl⟩, Draft.emit_eq_append _ _, rfl⟩

theorem Realizes.seq {x y : Compile Unit} {p q : Emission} (hx : Realizes x p) (hy : Realizes y q) :
    Realizes (do x; y) (p.seq q) := by
  intro c c'' h
  obtain ⟨_, c', h₁, h₂⟩ := bind_ok h
  obtain ⟨s, hs, hext⟩ := hx c c' h₁
  obtain ⟨t, ht, hext'⟩ := hy c' c'' h₂
  rw [hext.draft] at ht
  refine ⟨s ++ t, ⟨s, c'.context, t, hs, ht, rfl⟩, ?_, ?_⟩
  · rw [hext'.draft, hext.draft, Draft.append_append]
  · rw [hext'.outer, hext.outer]

theorem lookup_ok {name : Bytes} {c c' : Compiler} {place : Place}
    (h : lookup name c = .ok (some place) c') :
    resolve name c.context.tables = some (place, c'.context.tables) ∧
      c'.context.constants = c.context.constants ∧ Extends c [] c' := by
  replace h : c.resolve name = (some place, c') := modifyGet_ok h
  cases hres : resolve name c.context.tables with
  | none =>
    rw [Compiler.resolve_eq_none hres] at h
    cases h
  | some r =>
    obtain ⟨place', us⟩ := r
    obtain ⟨c₁, hc₁, htables, hconstants, hdraft, hdrafts, -⟩ := Compiler.resolve_eq_some hres
    rw [hc₁] at h
    cases h
    exact ⟨by rw [htables], hconstants, by rw [Draft.append_nil, hdraft], hdrafts⟩

theorem load_realizes (place : Place) : Realizes (load place) (.one place.load) := by
  cases place <;> exact emit_realizes _ _

theorem Realizes.given {x : Compile Unit} {p : Emission} (h : Realizes x p) (pos : Pos)
    (n width : Nat) (what : Quantity) :
    Realizes (do check pos n width what; x) (.given (n ≤ maxOperand width) p) := by
  intro c c' hrun
  obtain ⟨_, _, hcheck, hx⟩ := bind_ok hrun
  obtain ⟨hn, rfl⟩ := check_ok hcheck
  obtain ⟨seg, hseg, hext⟩ := h _ c' hx
  exact ⟨seg, ⟨hn, hseg⟩, hext⟩

theorem operator_realizes (op : Option Opcode) (pos : Pos) (cause : CompileError.Cause) :
    Realizes (match op with
      | some code => emit code []
      | none => fail pos cause) (.operator op) := by
  intro c c' h
  cases op with
  | none => cases h
  | some code =>
    obtain ⟨seg, ⟨rfl, hctx⟩, hext⟩ := emit_realizes code [] c c' h
    exact ⟨_, ⟨code, rfl, rfl, hctx⟩, hext⟩

theorem ident_realizes (id : Ident) : Realizes (Expr.ident id).compile (.ident id.name) := by
  intro c c'' h
  rw [Expr.compile] at h
  obtain ⟨r, c', hlookup, h⟩ := bind_ok h
  cases r with
  | none => cases h
  | some place =>
    obtain ⟨hres, hconst, hext⟩ := lookup_ok hlookup
    obtain ⟨seg, ⟨rfl, hctx⟩, hext'⟩ := load_realizes place c' c'' h
    refine ⟨_, ⟨place, by rw [hres, hctx], rfl, by rw [hctx, hconst]⟩, ?_, ?_⟩
    · rw [hext'.draft, hext.draft, Draft.append_append, List.nil_append]
    · rw [hext'.outer, hext.outer]

theorem const_realizes (pos : Pos) (v : Value) :
    Realizes (do let number ← constant pos fun _ => v; emit .const [number]) (.const v) := by
  intro c c'' h
  obtain ⟨number, c', hconst, h⟩ := bind_ok h
  obtain ⟨rfl, hn, rfl⟩ := constant_ok hconst
  obtain ⟨seg, ⟨rfl, hctx⟩, hext⟩ := emit_realizes _ _ _ c'' h
  exact ⟨_, ⟨hn, rfl, hctx.trans (c.context_addConstant v)⟩, hext.draft, hext.outer⟩

theorem define_ok {name : Bytes} {c c' : Compiler} {place : Place}
    (h : define name c = .ok place c') :
    place = (c.scope.table.define name).1 ∧ c'.context = c.context.define name ∧
      c'.scope.draft = c.scope.draft ∧ c'.outer = c.outer := by
  cases h
  exact ⟨rfl, c.context_update _, rfl, c.outer_update _⟩

theorem defineAll_ok {params : List Ident} {c c' : Compiler} (h : defineAll params c = .ok () c') :
    c'.context = { c.context with
        table := params.foldl (fun t p => (t.define p.name).2) c.context.table } ∧
      c'.scope.draft = c.scope.draft ∧ c'.outer = c.outer := by
  induction params generalizing c with
  | nil =>
    cases h
    exact ⟨rfl, rfl, rfl⟩
  | cons p rest ih =>
    obtain ⟨_, c₁, hdefine, hrest⟩ := bind_ok h
    obtain ⟨-, hx, hd, ho⟩ := define_ok hdefine
    obtain ⟨hx', hd', ho'⟩ := ih hrest
    exact ⟨hx'.trans (by rw [hx]; rfl), hd'.trans hd, ho'.trans ho⟩

theorem enter_ok {name : Bytes} {params : List Ident} {c c' : Compiler}
    (h : enter name params c = .ok () c') :
    c'.context = c.context.enter name params ∧ c'.scope.draft = .empty ∧
      c'.outer = c.scope :: c.outer := by
  obtain ⟨_, _, henclose, h⟩ := bind_ok h
  cases henclose
  obtain ⟨_, c₁, hself, h⟩ := bind_ok h
  obtain ⟨hx, hd, ho⟩ : c₁.context = ⟨c.constants,
      if name = [] then .empty true else ((Table.empty true).defineSelf name).2, c.context.tables⟩ ∧
      c₁.scope.draft = .empty ∧ c₁.outer = c.scope :: c.outer := by
    rw [defineSelf] at hself
    split at hself
    · next hname =>
      cases hself
      exact ⟨by rw [if_pos hname, c.context_enclose], rfl, c.outer_enclose⟩
    · next hname =>
      cases hself
      refine ⟨?_, rfl, (Compiler.outer_update _ _).trans c.outer_enclose⟩
      rw [if_neg hname, Compiler.context_update, c.context_enclose]
  obtain ⟨hx', hd', ho'⟩ := defineAll_ok h
  exact ⟨hx'.trans (by rw [hx]; rfl), hd'.trans hd, ho'.trans ho⟩

theorem exists_defineAll (params : List Ident) (c : Compiler) :
    ∃ c', defineAll params c = .ok () c' := by
  induction params generalizing c with
  | nil => exact ⟨c, rfl⟩
  | cons p rest ih => exact ih (c.update (·.define p.name)).2

/-- A function can always be begun. -/
theorem exists_enter (name : Bytes) (params : List Ident) (c : Compiler) :
    ∃ c', enter name params c = .ok () c' := by
  obtain ⟨c₁, hself⟩ : ∃ c₁, defineSelf name c.enclose = .ok () c₁ := by
    unfold defineSelf
    split <;> exact ⟨_, rfl⟩
  obtain ⟨c₂, hparams⟩ := exists_defineAll params c₁
  exact ⟨c₂, (bind_of_ok hself).trans hparams⟩

theorem loadAll_realizes (symbols : List Symbol) :
    Realizes (loadAll symbols)
      (fun _ σ seg σ' => seg = symbols.map (·.place.load) ∧ σ' = σ) := by
  induction symbols with
  | nil =>
    intro c c' h
    cases h
    exact ⟨[], ⟨rfl, rfl⟩, by simp, rfl⟩
  | cons s rest ih =>
    intro c c' h
    obtain ⟨seg, ⟨s₁, τ, s₂, ⟨rfl, rfl⟩, ⟨rfl, hctx⟩, rfl⟩, hext⟩ :=
      (load_realizes s.place).seq ih c c' h
    exact ⟨_, ⟨rfl, hctx⟩, hext⟩

/-- A function that lies in something can be finished. -/
theorem exists_leave {c : Compiler} {scope : Scope} {outer : List Scope}
    (houter : c.outer = scope :: outer) :
    ∃ c', leave c = .ok () c' ∧ c'.scope = scope ∧ c'.outer = outer ∧
      c'.constants = c.constants := by
  obtain ⟨c', hc', hleft⟩ := Compiler.leave?_eq_some houter
  refine ⟨c', ?_, hleft⟩
  have hget : (get : Compile Compiler) c = .ok c c := rfl
  rw [leave, bind_of_ok hget, hc']
  rfl

theorem leave_ok {c c' : Compiler} {scope : Scope} {outer : List Scope} (h : leave c = .ok () c')
    (houter : c.outer = scope :: outer) :
    c'.scope = scope ∧ c'.outer = outer ∧ c'.constants = c.constants := by
  obtain ⟨c₁, hleave, hleft⟩ := exists_leave houter
  rw [hleave] at h
  cases h
  exact hleft

theorem closeFunction_ok {pos : Pos} {name : Bytes} {params : Nat} {c c' : Compiler} {s : List Instr}
    {scope : Scope} {outer : List Scope} (hdraft : c.scope.draft = Draft.empty.append s)
    (houter : c.outer = scope :: outer) (h : closeFunction pos name params c = .ok () c') :
    ∃ seg, c.scope.table.definitions ≤ maxOperand 1 ∧ c.scope.table.free.size ≤ maxOperand 1 ∧
      c.constants.size ≤ maxOperand 2 ∧
      seg = c.scope.table.free.toList.map (·.place.load) ++
        [⟨.closure, [c.constants.size, c.scope.table.free.size]⟩] ∧
      c'.context = ⟨c.constants.push (.function (some ⟨c.constants.size, name,
        .ofInstrs (Instr.close s), c.scope.table.definitions, params⟩)), scope.table,
        outer.map (·.table)⟩ ∧
      c'.scope.draft = scope.draft.append seg ∧ c'.outer.map (·.draft) = outer.map (·.draft) := by
  obtain ⟨_, _, hclose, h⟩ := bind_ok h
  obtain rfl := modifyDraft_ok hclose
  obtain ⟨_, _, hget, h⟩ := bind_ok h
  obtain ⟨rfl, rfl⟩ := get_ok hget
  obtain ⟨_, _, hcheck, h⟩ := bind_ok h
  obtain ⟨hlocals, rfl⟩ := check_ok hcheck
  obtain ⟨_, _, hcheck, h⟩ := bind_ok h
  obtain ⟨hfree, rfl⟩ := check_ok hcheck
  obtain ⟨_, c₁, hleave, h⟩ := bind_ok h
  obtain ⟨rfl, rfl, hpool⟩ := leave_ok hleave houter
  obtain ⟨_, c₂, hload, h⟩ := bind_ok h
  obtain ⟨loads, ⟨rfl, hctx⟩, hext⟩ := loadAll_realizes _ _ _ hload
  obtain ⟨number, c₃, hconst, h⟩ := bind_ok h
  obtain ⟨rfl, hnumber, rfl⟩ := constant_ok hconst
  have hconstants : c₂.constants = c.constants := (congrArg Context.constants hctx).trans hpool
  obtain ⟨seg, ⟨rfl, hctx'⟩, hext'⟩ := emit_realizes _ _ _ _ h
  have hcode : (c.scope.draft.close).code = .ofInstrs (Instr.close s) := by
    rw [hdraft, Draft.close_empty_append]
    simp [Draft.code, Draft.append, Draft.empty]
  rw [hconstants] at hnumber hext' hctx'
  refine ⟨_, hlocals, hfree, hnumber, rfl, ?_, ?_, ?_⟩
  · rw [hctx', Compiler.context_addConstant, hctx, ← hcode, Context.push]
    change (⟨c₁.constants.push _, c₁.scope.table, _⟩ : Context) = _
    rw [hpool]
    rfl
  · rw [hext'.draft, Compiler.scope_addConstant, hext.draft, Draft.append_append]
    rfl
  · rw [hext'.outer, Compiler.outer_addConstant, hext.outer]

theorem modifyDraft_eqs {f : Draft → Draft} {c c' : Compiler} (h : modifyDraft f c = .ok () c') :
    c'.context = c.context ∧ c'.scope.draft = f c.scope.draft ∧ c'.outer = c.outer := by
  cases h
  exact ⟨rfl, rfl, rfl⟩

theorem emitJump_ok {op : Opcode} {c c' : Compiler} {n : Nat} (h : emitJump op c = .ok n c') :
    n = c.scope.draft.instrs.size ∧ c'.context = c.context ∧
      c'.scope.draft = c.scope.draft.append [⟨op, [9999]⟩] ∧ c'.outer = c.outer := by
  cases h
  exact ⟨rfl, rfl, Draft.emit_eq_append _ _, rfl⟩

/-- Whenever the step succeeds after an instruction that is neither a pop nor a return, it emits
what is described. -/
def RealizesBranch (x : Compile Unit) (p : Emission) : Prop :=
  ∀ c c', c.scope.draft.lastIs .pop = false → c.scope.draft.returns = false → x c = .ok () c' →
    ∃ seg, p c.scope.draft.size c.context seg c'.context ∧ Extends c seg c'

theorem Realizes.branch {x : Compile Unit} {p : Emission} (hx : Realizes x p) :
    RealizesBranch (do x; modifyDraft Draft.keepValue) (.branch p) := by
  intro c c' hpop hret h
  obtain ⟨_, c₁, hrun, h⟩ := bind_ok h
  obtain ⟨s, hs, hd₁, ho₁⟩ := hx c c₁ hrun
  obtain ⟨hx₂, hd₂, ho₂⟩ := modifyDraft_eqs h
  refine ⟨_, ⟨s, by rw [hx₂]; exact hs, rfl⟩, ?_, by rw [ho₂, ho₁]⟩
  rw [hd₂, hd₁, Draft.keepValue_append hpop hret]

theorem cond_realizes {test yes no : Compile Unit} {p q r : Emission} (htest : Realizes test p)
    (hyes : Realizes yes q) (hno : RealizesBranch no r) (pos : Pos) :
    Realizes (do
      test
      let toElse ← emitJump .jumpIfFalse
      yes
      modifyDraft Draft.keepValue
      let toEnd ← emitJump .jump
      land toElse
      no
      land toEnd
      let target := (← draft).size
      check pos target 2 (.jump target)) (.cond p (.branch q) r) := by
  intro c c₉ h
  obtain ⟨_, c₁, htested, h⟩ := bind_ok h
  obtain ⟨toElse, c₂, hjump, h⟩ := bind_ok h
  obtain ⟨_, c₃, hyesRun, h⟩ := bind_ok h
  obtain ⟨_, c₄, hkeep, h⟩ := bind_ok h
  obtain ⟨toEnd, c₅, hjump', h⟩ := bind_ok h
  obtain ⟨_, c₆, hland, h⟩ := bind_ok h
  obtain ⟨_, c₇, hnoRun, h⟩ := bind_ok h
  obtain ⟨_, c₈, hland', h⟩ := bind_ok h
  obtain ⟨_, _, hget, h⟩ := bind_ok h
  cases hget
  obtain ⟨hsize, rfl⟩ := check_ok h
  obtain ⟨s, hs, hd₁, ho₁⟩ := htest c c₁ htested
  obtain ⟨rfl, hx₂, hd₂, ho₂⟩ := emitJump_ok hjump
  obtain ⟨t, ht, hd₃, ho₃⟩ := hyes c₂ c₃ hyesRun
  obtain ⟨hx₄, hd₄, ho₄⟩ := modifyDraft_eqs hkeep
  obtain ⟨rfl, hx₅, hd₅, ho₅⟩ := emitJump_ok hjump'
  obtain ⟨hx₆, hd₆, ho₆⟩ := modifyDraft_eqs hland
  rw [hd₁, Draft.append_append] at hd₂
  rw [hd₃, hd₂, Draft.keepValue_append (by rw [Draft.lastIs_append]; rfl)
    (by rw [Draft.returns, Draft.lastIs_append, Draft.lastIs_append]; rfl)] at hd₄
  simp only [Draft.append_append, List.append_assoc, List.singleton_append] at hd₄
  simp only [hd₄, Draft.append_append, List.append_assoc, List.cons_append] at hd₅
  rw [hd₅, hd₁, Draft.size_instrs_append, Draft.patch_append] at hd₆
  obtain ⟨u, hu, hd₇, ho₇⟩ := hno c₆ c₇
    (by rw [hd₆, ← List.cons_append, ← List.append_assoc, Draft.lastIs_append]; rfl)
    (by
      rw [hd₆, ← List.cons_append, ← List.append_assoc, Draft.returns, Draft.lastIs_append,
        Draft.lastIs_append]
      rfl) hnoRun
  obtain ⟨hx₈, hd₈, ho₈⟩ := modifyDraft_eqs hland'
  simp only [hd₆, Draft.append_append, List.append_assoc, List.cons_append, List.nil_append] at hd₇
  have hlen (n m : Nat) : (s ++ ⟨.jumpIfFalse, [n]⟩ :: Instr.keepValue t).length =
      (s ++ ⟨.jumpIfFalse, [m]⟩ :: Instr.keepValue t).length := by
    simp
  rw [← List.cons_append, ← List.append_assoc] at hd₇
  rw [hd₇, hd₄, Draft.size_instrs_append, hlen, Draft.patch_append, List.append_assoc,
    List.cons_append] at hd₈
  rw [hd₈] at hsize
  rw [hx₂, hd₂] at ht
  rw [hx₆, hx₅, hx₄, hd₆] at hu
  rw [hx₈]
  refine ⟨_, ⟨s, _, _, _, u, _, _, _, hs, ⟨t, ht, rfl⟩, hu, ?_, ?_, ?_, hsize, rfl⟩, ?_, ?_⟩
  · simp [Draft.append, Nat.add_assoc]
  · simp [Draft.append, Nat.add_assoc]
  · simp [Draft.append, Nat.add_assoc]
  · rw [hd₈]
    simp [Draft.append]
  · rw [ho₈, ho₇, ho₆, ho₅, ho₄, ho₃, ho₂, ho₁]

theorem nothing_realizes : Realizes (pure ()) .nothing := by
  intro c c' h
  cases h
  exact ⟨[], ⟨rfl, rfl⟩, by simp, rfl⟩

theorem compileItems_realizes {items : List Expr} (h : ∀ e ∈ items, Realizes e.compile e.Emits) :
    Realizes (compileItems items) (.all (emitsItems items)) := by
  induction items with
  | nil => exact nothing_realizes
  | cons e rest ih =>
    rw [List.forall_mem_cons] at h
    exact h.1.seq (ih h.2)

theorem compileBody_realizes {body : List Stmt} (h : ∀ s ∈ body, Realizes s.compile s.Emits) :
    Realizes (compileBody body) (.all (emitsBody body)) := by
  induction body with
  | nil => exact nothing_realizes
  | cons s rest ih =>
    rw [List.forall_mem_cons] at h
    exact h.1.seq (ih h.2)

theorem block_realizes {b : Block} (h : ∀ s ∈ b.body, Realizes s.compile s.Emits) :
    Realizes b.compile b.Emits := by
  cases b
  exact compileBody_realizes h

theorem else_realizes {no : Option Block}
    (h : ∀ s ∈ Block.elseBody no, Realizes s.compile s.Emits) :
    RealizesBranch (compileElse no) (emitsElse no) := by
  cases no with
  | none =>
    intro c c' _ _ hrun
    exact emit_realizes _ _ c c' hrun
  | some b => exact (block_realizes h).branch

theorem runAll_realizes {steps : List (Expr × Expr)}
    (h : ∀ p ∈ steps, Realizes p.1.compile p.1.Emits ∧ Realizes p.2.compile p.2.Emits) :
    Realizes (runAll (steps.map fun p => (p.1.render, do p.1.compile; p.2.compile)))
      (.all (steps.map fun p => p.1.Emits.seq p.2.Emits)) := by
  induction steps with
  | nil => exact nothing_realizes
  | cons p rest ih =>
    rw [List.forall_mem_cons] at h
    exact (h.1.1.seq h.1.2).seq (ih h.2)

theorem store_realizes {value : Compile Unit} {p : Emission} (hvalue : Realizes value p)
    (pos : Pos) (name : Bytes) (place : Place) :
    Realizes (match place with
      | .global slot => do
        check pos slot 2 (.binding name)
        value
        emit .setGlobal [slot]
      | place => do
        check pos place.index.toNat 1 (.binding name)
        value
        emit .setLocal [place.index.toNat])
      (.given place.Storable (p.seq (.one place.store))) := by
  cases place <;> exact (hvalue.seq (emit_realizes _ _)).given _ _ _ _

theorem bind_realizes {value : Expr} (hvalue : Realizes value.compile value.Emits) (loc : Loc)
    (id : Ident) : Realizes (Stmt.compile (.bind loc id value)) (.bind id.name value.Emits) := by
  intro c c' h
  rw [Stmt.compile] at h
  obtain ⟨place, c₁, hdefine, h⟩ := bind_ok h
  obtain ⟨rfl, hx, hd, ho⟩ := define_ok hdefine
  obtain ⟨seg, ⟨hstorable, s, τ, t, hs, ⟨rfl, hτ⟩, rfl⟩, hext⟩ :=
    store_realizes hvalue loc.pos id.name _ c₁ c' h
  rw [hx, hd] at hs
  refine ⟨_, ⟨hstorable, s, by rw [hτ]; exact hs, rfl⟩, ?_, ?_⟩
  · rw [hext.draft, hd]
    rfl
  · rw [hext.outer, ho]

theorem tree_realizes : TreeSteps (fun e => Realizes e.compile e.Emits)
    (fun s => Realizes s.compile s.Emits) where
  ident id := ident_realizes id
  int loc literal value := const_realizes loc.pos (.int value)
  string loc value := const_realizes loc.pos (.string value)
  bool loc value := emit_realizes _ _
  unary loc op right hright := hright.seq (operator_realizes _ _ _)
  binary loc op left right hleft hright := by
    rw [Expr.compile, Expr.Emits]
    split
    · exact hright.seq (hleft.seq (operator_realizes _ _ _))
    · exact hleft.seq (hright.seq (operator_realizes _ _ _))
  cond loc test yes no htest hyes hno := by
    rw [Expr.compile, Expr.Emits]
    exact cond_realizes htest (block_realizes hyes) (else_realizes hno) loc.pos
  function loc name params body hbody := by
    rw [Expr.compile, Expr.Emits]
    apply Realizes.given
    intro c c' h
    obtain ⟨_, c₁, henter, h⟩ := bind_ok h
    obtain ⟨_, c₂, hrun, h⟩ := bind_ok h
    obtain ⟨hx₁, hd₁, ho₁⟩ := enter_ok henter
    obtain ⟨s, hs, hd₂, ho₂⟩ := block_realizes hbody c₁ c₂ hrun
    rw [hx₁, hd₁] at hs
    rw [hd₁] at hd₂
    rw [ho₁, List.map_cons] at ho₂
    obtain ⟨scope, outer, houter, hscope, hrest⟩ := List.map_eq_cons_iff.1 ho₂
    obtain ⟨seg, hlocals, hfree, hconst, hseg, hx₃, hd₃, ho₃⟩ := closeFunction_ok hd₂ houter h
    refine ⟨seg, ⟨s, c₂.context, scope.table, outer.map Scope.table, hs, ?_, hlocals, hfree, hconst,
      hseg, hx₃⟩, ?_, ?_⟩
    · rw [Compiler.context, houter, List.map_cons]
    · rw [hd₃, hscope]
    · rw [ho₃, hrest]
  call loc callee args hcallee hargs := by
    rw [Expr.compile, Expr.Emits]
    exact (hcallee.seq ((compileItems_realizes hargs).seq (emit_realizes _ _))).given _ _ _ _
  array loc items hitems := by
    rw [Expr.compile, Expr.Emits]
    exact ((compileItems_realizes hitems).seq (emit_realizes _ _)).given _ _ _ _
  hash loc pairs hpairs := by
    rw [Expr.compile, Expr.Emits]
    apply Realizes.given
    intro c c' h
    split at h
    · cases h
    · rw [compilePairs_eq, List.reverse_nil, List.nil_append, Expr.mergeSort_keyed] at h
      rw [emitsPairs_inOrder]
      refine (runAll_realizes ?_).seq (emit_realizes _ _) c c' h
      intro p hp
      exact hpairs p (Expr.mem_inOrder.1 hp)
  index loc left index hleft hindex := hleft.seq (hindex.seq (emit_realizes _ _))
  missing := by
    intro c c' h
    cases h
  bind loc id value hvalue := bind_realizes hvalue loc id
  retNone loc := emit_realizes _ _
  ret loc value hvalue := hvalue.seq (emit_realizes _ _)
  expr loc value hvalue := hvalue.seq (emit_realizes _ _)
  block body hbody := block_realizes hbody
  missingStmt := by
    intro c c' h
    cases h

end Compile

/-- A program is compiled by the scheme. -/
theorem Program.compile_emits {p : Program} {c c' : Compiler} (h : p.compile c = .ok () c') :
    ∃ seg, p.Emits c.scope.draft.size c.context seg c'.context ∧ Compile.Extends c seg c' :=
  Compile.compileBody_realizes (fun s _ => Compile.tree_realizes.stmt_all s) c c' h

/-- The code of a program is what the scheme allows for it. -/
theorem Program.bytecode_emits {p : Program} {c c' : Compiler} (hdraft : c.scope.draft = .empty)
    (houter : c.outer = []) (h : p.compile c = .ok () c') :
    ∃ seg, c'.bytecode.code = .ofInstrs seg ∧
      p.Emits 0 c.context seg ⟨c'.bytecode.constants, c'.scope.table, []⟩ := by
  obtain ⟨seg, hseg, hext⟩ := Program.compile_emits h
  have houter' : c'.outer = [] := by
    apply List.map_eq_nil_iff.1
    rw [hext.outer, houter, List.map_nil]
  refine ⟨seg, ?_, ?_⟩
  · simp [Compiler.bytecode, Draft.code, hext.draft, hdraft, Draft.append, Draft.empty]
  · rw [hdraft, Compiler.context.eq_def c', houter'] at hseg
    exact hseg

end StackScript
