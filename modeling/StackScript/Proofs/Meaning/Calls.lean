import StackScript.Proofs.Meaning.Statements

/-!
# Calls

The code of a tree follows its evaluation as soon as calls do. A call of a
closure runs the code of its function in a new frame, inside which there may be
one call less. So calls follow their evaluation by induction on how many there
may be inside each other.

The variables of a call are on the stack, in the order in which the function
binds their names, and the first of them are the arguments.

## Main definitions

* `Calls`: calls that follow an evaluation.
* `Call.inner`: the call of a closure inside another call.

## Main results

* `tree_simulates`: the code of every tree follows its evaluation.
* `calls_apply`: calls of all values do.
-/

namespace StackScript

/-- The instruction that calls a value follows the evaluation, in any call inside which there may be
`d` others. -/
def Calls [Casing] (P : Array Value) (G : List Bytes) (R : Machine.Ending → Machine → Prop)
    (d : Nat) (call : Value → List Value → Eval Value) : Prop :=
  ∀ (K : Call) (B : Break → Store → Prop) (st : Store) (m : Machine) (next : Nat) (ops : List Value)
    (callee : Value) (args : List Value), K.Ok P G → K.depth = d → K.Breaks P G R B →
    K.Standing P G st m next (ops ++ callee :: args) →
    (call callee.outline (args.map Value.outline)).Sat st (fun v st' => ∀ w m', w.outline = v →
      K.Standing P G st' m' next (ops ++ [w]) → m'.Runs R) B →
    Exec.Sat (Exec.exec ⟨.call, [args.length]⟩) m (fun _ m' => m'.Runs R) (Machine.Stops R)

variable {P : Array Value} {G : List Bytes} {R : Machine.Ending → Machine → Prop} {d : Nat}

/-! ### Trees -/

section

variable {p q : Emission} {xs ys : List Bytes}

/-- A piece that pushes a function and its arguments, and then calls it. -/
theorem Pushes.call [Casing] {x : Option Current → Names → Eval (Value × List Value)} {n : Nat}
    {call : Value → List Value → Eval Value} (hT : Tolerates P G R) (hcall : Calls P G R d call)
    (hx : Pushes P G R d p xs x fun c => c.1 :: c.2)
    (hn : ∀ current names st,
      (x current names).Sat st (fun c _ => c.2.length = n) fun _ _ => True) :
    Pushes P G R d (p.seq (Emission.one ⟨.call, [n]⟩)) xs
      (fun current names => do
        let c ← x current names
        call c.1 c.2) fun v => [v] := by
  intro K B offset σ seg τ names st m ops hpiece hcode hstanding h
  obtain ⟨s, rfl, hfirst⟩ := hpiece.split_one
  rw [Eval.sat_bind] at h
  apply hx K B offset σ s τ names st m ops hfirst hcode.left hstanding
  apply (h.and (hn _ _ _)).mono
  rintro ⟨f, vs⟩ st₁ ⟨h₁, hlength⟩ ws m₁ hws hstanding₁
  obtain ⟨callee, args, rfl, rfl, rfl⟩ := List.map_eq_cons_iff.1 hws
  obtain rfl : args.length = n := (List.length_map _).symm.trans hlength
  apply hstanding₁.step hT hpiece.ok hcode.right
  intro m₂ hstanding₂
  apply hcall K B st₁ m₂ _ ops callee args hpiece.ok hpiece.depth hpiece.breaks hstanding₂
  apply h₁.mono
  intro v st₂ h₂ w m₃ hw hstanding₃
  apply h₂ [w] m₃
  · rw [List.map_singleton, hw]
  · rw [Instr.bytes_append, Instr.bytes_cons, Instr.bytes_nil, Nat.add_zero, ← Nat.add_assoc]
    exact hstanding₃

/-- A piece whose values an operator is applied to, if the operator has an instruction. -/
theorem Pushes.operator [Casing] {α : Type} {x : Option Current → Names → Eval α}
    {vals : α → List Value} {op : Option Opcode} {g : α → Eval Value} (hT : Tolerates P G R)
    (hx : Pushes P G R d p xs x vals)
    (hg : ∀ code, op = some code → Applies (fun _ => True) ⟨code, []⟩ vals g) :
    Pushes P G R d (p.seq (Emission.operator op)) xs (fun current names => x current names >>= g)
      fun v => [v] := by
  intro K B offset σ seg τ names st m ops hpiece
  obtain ⟨s, _, _, hs, ⟨code, hop, rfl, rfl⟩, rfl⟩ := hpiece.emits
  have hpiece' : Piece P G R d K B (p.seq (Emission.one ⟨code, []⟩)) xs offset σ
      (s ++ [⟨code, []⟩]) _ names :=
    hpiece.of_emits ⟨s, _, _, hs, ⟨rfl, rfl⟩, rfl⟩
  exact hx.apply hT (fun _ _ _ => .true _ _) (hg code hop) K B offset σ _ _ names st m ops hpiece'

/-- Two pieces whose values are taken as a pair. -/
theorem Pushes.pair [Casing] {x y : Option Current → Names → Eval Value}
    (hx : Pushes P G R d p xs x fun v => [v]) (hy : Pushes P G R d q ys y fun v => [v])
    (hp : p.Lawful) (hq : q.Lawful) (hbinds : p.Binds xs) :
    Pushes P G R d (p.seq q) (xs ++ ys)
      (fun current names => do
        let a ← x current names
        let b ← y current (names.bindAll xs)
        return (a, b)) fun c => [c.1, c.2] :=
  hx.seq hy hp hq hbinds fun _ _ => rfl

end

section

variable {call : Value → List Value → Eval Value}

theorem follows_block [Casing] {b : Block} (hT : Tolerates P G R)
    (h : ∀ s ∈ b.body, Follows P G R d s.Emits s.lets
      fun current names last => s.eval call current names last) :
    Follows P G R d b.Emits b.lets fun current names last => b.eval call current names last := by
  cases b
  exact follows_body hT h

/-- An alternative pushes the value of its last statement, and null if it is missing. -/
theorem pushes_else [Casing] {no : Option Block} (hT : Tolerates P G R)
    (h : ∀ s ∈ Block.elseBody no, Follows P G R d s.Emits s.lets
      fun current names last => s.eval call current names last) :
    Pushes P G R d (emitsElse no) (letsElse no)
      (fun current names => do return (← evalElse call current names no).value) fun v => [v] := by
  cases no with
  | none => exact pushes_value hT (fun _ => rfl) rfl fun C => .null
  | some b => exact (follows_block hT h).branch hT

/-- The operands are evaluated from left to right, but for those of `<`, which is `>` with its
operands exchanged. -/
theorem pushes_binary [Casing] {left right : Expr} (hT : Tolerates P G R)
    (hleft : Pushes P G R d left.Emits left.lets
      (fun current names => left.eval call current names) fun v => [v])
    (hright : Pushes P G R d right.Emits right.lets
      (fun current names => right.eval call current names) fun v => [v])
    (loc : Loc) (op : BinaryOp) :
    Pushes P G R d (Expr.binary loc op left right).Emits (Expr.binary loc op left right).lets
      (fun current names => (Expr.binary loc op left right).eval call current names)
      fun v => [v] := by
  have hl := tree_lawful.expr_all left
  have hr := tree_lawful.expr_all right
  rw [Expr.Emits, Expr.lets]
  by_cases hless : op = .less
  · subst hless
    rw [if_pos rfl, if_pos rfl, ← Emission.seq_assoc]
    have hcode (code : Opcode) (h : BinaryOp.less.opcode? = some code) :
        Applies (fun _ => True) ⟨code, []⟩ (fun c : Value × Value => [c.1, c.2])
          fun c => BinaryOp.less.eval c.2 c.1 := by
      obtain rfl := Option.some.inj h
      exact BinaryOp.applies_less
    apply ((hright.pair hleft hr hl (tree_binds.expr_all right)).operator hT hcode).congr
    intro current names
    simp only [Expr.eval, if_true, bind_assoc, pure_bind]
  · rw [if_neg hless, if_neg hless, ← Emission.seq_assoc]
    apply ((hleft.pair hright hl hr (tree_binds.expr_all left)).operator hT
      fun code => BinaryOp.applies hless).congr
    intro current names
    simp only [Expr.eval, if_neg hless, bind_assoc, pure_bind]

/-- The callee is evaluated before its arguments, and they before it is called. -/
theorem pushes_call [Casing] {callee : Expr} {args : List Expr} (hT : Tolerates P G R)
    (hcall : Calls P G R d call) (hcallee : Pushes P G R d callee.Emits callee.lets
      (fun current names => callee.eval call current names) fun v => [v])
    (hargs : ∀ e ∈ args, Pushes P G R d e.Emits e.lets
      (fun current names => e.eval call current names) fun v => [v])
    (loc : Loc) :
    Pushes P G R d (Expr.call loc callee args).Emits (Expr.call loc callee args).lets
      (fun current names => (Expr.call loc callee args).eval call current names) fun v => [v] := by
  rw [Expr.Emits, Expr.lets, ← Emission.seq_assoc]
  apply Pushes.given
  intro _
  have hboth : Pushes P G R d (callee.Emits.seq (Emission.all (emitsItems args)))
      (callee.lets ++ letsItems args)
      (fun current names => do
        let f ← callee.eval call current names
        let vs ← evalItems call current (names.bindAll callee.lets) args
        return (f, vs)) fun c => c.1 :: c.2 :=
    hcallee.seq (pushes_items hargs) (tree_lawful.expr_all callee)
      (items_lawful fun e _ => tree_lawful.expr_all e) (tree_binds.expr_all callee) fun _ _ => rfl
  have hlength (current : Option Current) (names : Names) (st : Store) :
      (do
        let f ← callee.eval call current names
        let vs ← evalItems call current (names.bindAll callee.lets) args
        return (f, vs) : Eval (Value × List Value)).Sat st
        (fun c _ => c.2.length = args.length) fun _ _ => True := by
    rw [Eval.sat_bind]
    apply (Eval.Sat.true _ _).mono
    intro f st₁ _
    rw [Eval.sat_bind]
    exact (evalItems_length _ _ args st₁).mono fun vs st₂ hvs => hvs
  apply (hboth.call hT hcall hlength).congr
  intro current names
  simp only [Expr.eval, bind_assoc, pure_bind]

/-- The pairs of a hash are evaluated in the order of their rendered keys. -/
theorem pushes_hash [Casing] {pairs : List (Expr × Expr)} (hT : Tolerates P G R)
    (hpairs : ∀ p ∈ pairs,
      Pushes P G R d p.1.Emits p.1.lets (fun current names => p.1.eval call current names)
        (fun v => [v]) ∧
      Pushes P G R d p.2.Emits p.2.lets (fun current names => p.2.eval call current names)
        fun v => [v])
    (loc : Loc) :
    Pushes P G R d (Expr.hash loc pairs).Emits (Expr.hash loc pairs).lets
      (fun current names => (Expr.hash loc pairs).eval call current names) fun v => [v] := by
  rw [Expr.Emits, Expr.lets, emitsPairs_inOrder, letsPairs_inOrder]
  apply Pushes.given
  intro _
  have hsorted : ∀ p ∈ Expr.inOrder pairs, _ := fun p hp => hpairs p (Expr.mem_inOrder.1 hp)
  have hlength (current : Option Current) (names : Names) (st : Store) :
      (PairEval.runAll names ((Expr.inOrder pairs).map (pairEval call current))).Sat st
        (fun vs _ => vs.length = 2 * pairs.length) fun _ _ => True := by
    have h := @runAll_length call current names (Expr.inOrder pairs) st
    rwa [Expr.length_inOrder] at h
  apply ((pushes_pairs hsorted).apply hT hlength (applies_hash pairs.length)).congr
  intro current names
  rw [Expr.eval, evalPairs_inOrder]

end

/-- The code of a tree follows its evaluation, if calls do. -/
theorem tree_simulates [Casing] {call : Value → List Value → Eval Value} (hT : Tolerates P G R)
    (hcall : Calls P G R d call) :
    TreeSteps
      (fun e => Pushes P G R d e.Emits e.lets (fun current names => e.eval call current names)
        fun v => [v])
      (fun s => Follows P G R d s.Emits s.lets
        fun current names last => s.eval call current names last) where
  ident id := pushes_ident hT call id
  int loc literal value := by
    apply (pushes_const hT rfl fun C => .int value).congr
    intro current names
    rw [Expr.eval]
  string loc value := by
    apply (pushes_const hT rfl fun C => .string value).congr
    intro current names
    rw [Expr.eval]
  bool loc value := by
    have hsource (m : Machine) : (⟨if value then .true else .false, []⟩ : Instr).source? m =
        some (.ok (.bool value)) := by
      cases value <;> rfl
    apply (pushes_value hT hsource rfl fun C => .bool value).congr
    intro current names
    rw [Expr.eval]
  unary loc op right hright := by
    rw [Expr.Emits, Expr.lets]
    apply (hright.operator hT fun code => UnaryOp.applies).congr
    intro current names
    rw [Expr.eval]
  binary loc op left right hleft hright := pushes_binary hT hleft hright loc op
  cond loc test yes no htest hyes hno := by
    have hyes' : yes.Emits.Lawful := block_lawful fun s _ => tree_lawful.stmt_all s
    have hno' : (emitsElse no).Lawful := else_lawful fun s _ => tree_lawful.stmt_all s
    have hbinds : yes.Emits.Binds yes.lets := block_binds fun s _ => tree_binds.stmt_all s
    rw [Expr.Emits, Expr.lets]
    apply (htest.cond ((follows_block hT hyes).branch hT) (pushes_else hT hno) hT
      (tree_lawful.expr_all test) hyes'.branch hno' (tree_binds.expr_all test) hbinds.branch).congr
    intro current names
    rw [Expr.eval]
  function loc name params body _ := by
    rw [Expr.Emits, Expr.lets]
    exact .given fun _ => pushes_function hT call loc name params body
  call loc callee args hcallee hargs := pushes_call hT hcall hcallee hargs loc
  array loc items hitems := by
    rw [Expr.Emits, Expr.lets]
    apply Pushes.given
    intro _
    apply ((pushes_items hitems).apply hT (fun current names st =>
      evalItems_length current names items st) (applies_array items.length)).congr
    intro current names
    rw [Expr.eval]
  hash loc pairs hpairs := pushes_hash hT hpairs loc
  index loc left index hleft hindex := by
    rw [Expr.Emits, Expr.lets, ← Emission.seq_assoc]
    apply ((hleft.pair hindex (tree_lawful.expr_all left) (tree_lawful.expr_all index)
      (tree_binds.expr_all left)).apply hT (fun _ _ _ => .true _ _) applies_index).congr
    intro current names
    simp only [Expr.eval, bind_assoc, pure_bind]
  missing := by
    intro K B offset σ seg τ names st m ops hpiece
    exact hpiece.emits.elim
  bind loc id value hvalue := follows_bind id.name hvalue hT
  retNone loc := follows_retNone hT
  ret loc value hvalue := follows_ret hvalue hT
  expr loc value hvalue := follows_expr hvalue
  block body hbody := follows_block hT hbody
  missingStmt := by
    constructor
    · rintro offset σ τ ⟨⟩
    · intro K B offset σ seg τ names st m ops last hpiece
      exact hpiece.emits.elim

/-! ### Entering a closure -/

/-- The names at the end of a function's body. -/
theorem Lambda.names_end (c : Lambda) :
    (c.names.enter c.name c.params).bindAll c.body.lets =
      ⟨c.names.globals, ⟨c.name, c.slots⟩ :: c.names.levels⟩ := by
  rw [Names.enter, Names.bindAll_cons, Lambda.slots, List.foldl_append]

namespace Lambda.Compiled

variable {c : Lambda} {f : Function} {free : List Value} {σ τ : Context} {s : List Instr}

/-- The table at the end of the body has a slot for each variable. -/
theorem table_match (h : c.Compiled P G f free σ s τ) :
    (⟨c.name, c.slots⟩ : Level).Match τ.table := by
  have hbinds : c.body.Emits.Binds c.body.lets := block_binds fun s _ => tree_binds.stmt_all s
  have hmatch := hbinds _ _ _ _ _ h.emits (Names.Match.enter h.names c.name c.params)
  rw [c.names_end] at hmatch
  exact hmatch.1

theorem code_fits (h : c.Compiled P G f free σ s τ) : ∀ i ∈ Instr.close s, i.Fits := by
  have hlawful : c.body.Emits.Lawful := block_lawful fun s _ => tree_lawful.stmt_all s
  obtain ⟨hτ, -, hlegal⟩ := hlawful _ _ _ _ h.emits (h.context.enter c.name c.params)
  intro i hi
  exact (Emission.legal_close hτ h.table_match.enclosed hlegal h.few.1 h.few.2 i hi).2

theorem length_slots (h : c.Compiled P G f free σ s τ) : c.slots.length = f.locals := by
  rw [h.locals, h.table_match.lists.count]

end Lambda.Compiled

/-- A variable starts with the argument of its position. -/
theorem startWith_getElem? {slots : List Bytes} (hnodup : slots.Nodup) {k : Nat} {x : Bytes}
    (hx : slots[k]? = some x) (args : List Value) : startWith slots args x = args[k]?.getD .null := by
  obtain ⟨hk, hget⟩ := List.getElem?_eq_some_iff.1 hx
  have hindex : slots.idxOf? x = some k := by
    rw [List.idxOf?_eq_some_iff]
    refine ⟨hk, hget, ?_⟩
    intro j hj hjx
    have hj' : slots[j]? = some x := List.getElem?_eq_some_iff.2 ⟨by omega, hjx⟩
    have hkj : k = j := (List.getElem?_inj hk hnodup).1 (hx.trans hj'.symm)
    omega
  rw [startWith, hindex, Option.bind_some]

/-- The variables of a call start with its arguments, and with null where there are none. -/
theorem forall₂_startWith {S : Value → Value → Prop} {slots : List Bytes} (hnodup : slots.Nodup)
    {f : Function} (hlocals : slots.length = f.locals) {args : List Value}
    (hargs : ∀ w ∈ args, S w w.outline) (hnull : S .null .null) :
    List.Forall₂ (fun x w => S w (startWith slots (args.map Value.outline) x)) slots
      (Exec.locals f args) := by
  rw [List.forall₂_iff_get]
  refine ⟨by rw [Exec.length_locals, hlocals], ?_⟩
  intro k hk hk'
  have hx : slots[k]? = some (slots.get ⟨k, hk⟩) := List.getElem?_eq_getElem hk
  rw [startWith_getElem? hnodup hx, List.getElem?_map]
  by_cases harg : k < args.length
  · have hlocal : (Exec.locals f args).get ⟨k, hk'⟩ = args[k] := by
      simp [Exec.locals, List.getElem_append_left harg]
    rw [hlocal, List.getElem?_eq_getElem harg]
    exact hargs _ (List.getElem_mem harg)
  · have hlocal : (Exec.locals f args).get ⟨k, hk'⟩ = .null := by
      simp [Exec.locals, List.getElem_append_right (Nat.not_lt.1 harg)]
    rw [hlocal, List.getElem?_eq_none (Nat.not_lt.1 harg)]
    exact hnull

/-- The call of a closure inside another call, whose operands and locals are below it on the stack. -/
def Call.inner (K : Call) (next : Nat) (below : List Value) (heap : List Lambda) (id : Nat)
    (f : Function) (free : List Value) (c : Lambda) (s : List Instr) (τ : Context) (d : Nat) : Call where
  fn := f
  id := id
  free := free
  base := below.length
  callers := K.callers.push ⟨K.fn, K.id, K.free, next, K.base⟩
  below := below
  instrs := Instr.close s
  final := τ
  slots := c.slots
  levels := c.names.levels
  current := some ⟨(Value.closure id (some f) free).outline, c.around⟩
  heap := heap
  depth := d

section

variable {K : Call} {next : Nat} {below : List Value} {heap : List Lambda} {id : Nat} {f : Function}
  {free : List Value} {c : Lambda} {σ τ : Context} {s : List Instr}

theorem Call.inner_ok (hG : G.Nodup) (hc : c.Compiled P G f free σ s τ)
    (hclosure : (Value.closure id (some f) free).Every (ClosureShows P G heap)) :
    (K.inner next below heap id f free c s τ d).Ok P G where
  code := hc.code
  fits := hc.code_fits
  constants := hc.constants
  base := rfl
  globals := hG
  nodup := hc.table_match.lists.nodup
  self := by
    rintro _ ⟨⟩
    exact ⟨rfl, hclosure⟩
  captured := by
    rintro _ ⟨⟩
    exact hc.captured

/-- The body of the closure is the code of the inner call. -/
theorem Call.inner_piece [Casing] {B : Break → Store → Prop} (hc : c.Compiled P G f free σ s τ)
    (hok : (K.inner next below heap id f free c s τ d).Ok P G)
    (hbreaks : (K.inner next below heap id f free c s τ d).Breaks P G R B) :
    Piece P G R d (K.inner next below heap id f free c s τ d) B c.body.Emits c.body.lets 0
      (σ.enter c.name c.params) s τ (c.names.enter c.name c.params) where
  ok := hok
  depth := rfl
  breaks := hbreaks
  emits := hc.emits
  context := hc.context.enter c.name c.params
  known := Names.Match.enter hc.names c.name c.params
  grows := .refl τ
  covers := by
    rw [c.names_end]
    exact ⟨hc.globals, List.prefix_rfl, rfl, rfl⟩

/-- The machine at the start of the inner call. -/
theorem Call.Standing.enter_inner {st : Store} {m m' : Machine} {below args : List Value}
    {ops : List Value} (h : K.Standing P G st m next ops) (hdepth : K.depth = d + 1)
    (hc : c.Compiled P G f free σ s τ) (hargs : ∀ w ∈ args, w.Every (ClosureShows P G st.lambdas))
    (hagrees : { m with
      callers := m.callers.push m.frame
      frame := ⟨f, id, free, 0, below.length⟩ }.Agrees m')
    (hfits : m'.Fits) (hlive : m'.live = below ++ Exec.locals f args) :
    (K.inner next below st.lambdas id f free c s τ d).Standing P G
      { st with vars := c.bySlot (args.map Value.outline) } m' 0 [] where
  mirrors := (h.mirrors.transfer hagrees.constants hagrees.fresh hagrees.output hagrees.globals).withVars _
  fits := hfits
  frame := hagrees.frame
  callers := by
    rw [hagrees.callers, h.frame, h.callers]
    rfl
  depth := by
    rw [hagrees.maxFrames]
    change m.maxFrames = (K.callers.push _).size + 1 + d
    rw [h.depth, hdepth, Array.size_push]
    omega
  grown := List.prefix_rfl
  -- Locals are the arguments, each in the slot of its parameter, and null in the others.
  live := by
    refine ⟨Exec.locals f args, by rw [hlive, List.append_nil]; rfl, ?_⟩
    apply forall₂_startWith hc.table_match.lists.nodup hc.length_slots
    · intro w hw
      exact ⟨rfl, hargs w hw⟩
    · exact ⟨rfl, .null⟩
  ops := nofun

/-- The inner call is left to the call around it, which has its variables back. -/
theorem Call.inner_leave [Casing] {st st' : Store} {m m' : Machine} {ops args : List Value}
    {callee v w : Value}
    {locals : List Value} (h : K.Standing P G st m next (ops ++ callee :: args)) (hdepth : K.depth = d + 1)
    (hlocals : List.Forall₂ (fun x (u : Value) => u.Shows P G st.lambdas (st.vars x)) K.slots locals)
    (hbelow : below = K.below ++ (locals ++ ops) ++ [callee])
    (hw : w.Shows P G st'.lambdas v)
    (hinside : (K.inner next below st.lambdas id f free c s τ d).Inside P G st' m')
    (hreturn : ∀ (u : Value) m'', u.outline = v →
      K.Standing P G { st' with vars := st.vars } m'' next (ops ++ [u]) → m''.Runs R) :
    Exec.Sat (Exec.leave w) m' (fun _ m'' => m''.Runs R) (Machine.Stops R) := by
  obtain ⟨rest, hlive⟩ := hinside.live
  obtain ⟨next', hframe⟩ := hinside.frame
  have hgrown : st.lambdas <+: st'.lambdas := hinside.grown
  have hcaller : m'.callers.back? = some ⟨K.fn, K.id, K.free, next, K.base⟩ := by
    rw [hinside.callers]
    exact Array.back?_push
  have hlive' : m'.live = (K.below ++ (locals ++ ops)) ++ (callee :: rest) := by
    rw [hlive]
    change below ++ rest = _
    rw [hbelow, List.append_assoc, List.singleton_append]
  have hbase : m'.frame.base = (K.below ++ (locals ++ ops)).length + 1 := by
    rw [hframe]
    change below.length = _
    rw [hbelow, List.length_append, List.length_singleton]
  have hmirrors {m'' : Machine} (hagrees : { m' with
      callers := m'.callers.pop
      frame := ⟨K.fn, K.id, K.free, next, K.base⟩ }.Agrees m'') : Mirrors P G st' m'' :=
    hinside.mirrors.transfer hagrees.constants hagrees.fresh hagrees.output hagrees.globals
  apply Exec.leave_sat hinside.fits hcaller hlive' (by simp) hbase
  · intro m'' hagrees hfits hlive''
    apply hreturn w m'' hw.1
    refine ⟨(hmirrors hagrees).withVars _, hfits, hagrees.frame, ?_, ?_, h.grown.trans hgrown, ?_, ?_⟩
    · rw [hagrees.callers]
      change m'.callers.pop = K.callers
      rw [hinside.callers]
      exact Array.pop_push
    · rw [hagrees.maxFrames]
      change m'.maxFrames = _
      rw [hinside.depth, hdepth]
      change (K.callers.push _).size + 1 + d = _
      rw [Array.size_push]
      omega
    · refine ⟨locals, by rw [hlive'', List.append_assoc, List.append_assoc], ?_⟩
      exact hlocals.imp fun _ _ hshows => hshows.grow hgrown
    · intro u hu
      rcases List.mem_append.1 hu with hu | hu
      · exact (h.ops u (List.mem_append_left _ hu)).grow hgrown
      · obtain rfl := List.mem_singleton.1 hu
        exact hw.2

end

/-! ### Calling values -/

section

variable {start : StartRule} {inside : Option (Value → List Value → Eval Value)} {st : Store}
  {Q : Value → Store → Prop} {B : Break → Store → Prop}

/-- The variables of the call around are back after the call, also if its body returns. -/
theorem Lambda.sat_run {call : Value → List Value → Eval Value} {self : Value} {c : Lambda}
    {args : List Value} :
    (c.run start call self args).Sat st Q B ↔
      (do return (← c.body.eval call (some ⟨self, c.around⟩) (c.names.enter c.name c.params)
        .none).value : Eval Value).Sat { st with vars := start c args }
        (fun v st' => Q v { st' with vars := st.vars })
        (Eval.Caught (fun v st' => Q v { st' with vars := st.vars }) B) := by
  simp only [Lambda.run, Eval.sat_bind, Eval.sat_get, Eval.sat_modify, Eval.sat_catchReturn,
    Eval.sat_pure]

theorem sat_applyInside_closure [Casing] {id : Nat} {fn : Option Function} {free args : List Value}
    {c : Lambda} (hc : Lambda.find? st.lambdas id = some c) :
    (applyInside start inside (.closure id fn free) args).Sat st Q B ↔
      (if args.length = c.params.length then
        match inside with
        | none => throw .tooDeep
        | some call => c.run start call (.closure id fn free) args
      else throw (.fault (.wrongArguments c.params.length args.length)) : Eval Value).Sat st Q B := by
  cases inside <;> simp only [applyInside, Eval.sat_bind, Eval.sat_get, hc]

theorem sat_applyInside_builtin [Casing] {b : Builtin} {args : List Value} :
    (applyInside start inside (.builtin (.known b)) args).Sat st Q B ↔
      Q (b.value args) { st with output := st.output ++ b.output args } := by
  simp only [applyInside, Eval.sat_bind, Eval.sat_modify, Eval.sat_pure]

theorem applyInside_other [Casing] {callee : Value} {args : List Value}
    (hclosure : ∀ id fn free, callee ≠ .closure id fn free) (hnative : ∀ b, callee ≠ .builtin b) :
    applyInside start inside callee args = throw (.fault (.notCallable callee.typeName)) := by
  cases callee with
  | closure id fn free => exact absurd rfl (hclosure id fn free)
  | builtin b => exact absurd rfl (hnative b)
  | _ => rfl

end

/-- A call of a closure follows its evaluation, if the calls in its body do. -/
theorem calls_closure [Casing] {inside : Option (Value → List Value → Eval Value)} {K : Call}
    {B : Break → Store → Prop} {st : Store} {m : Machine} {next id : Nat} {f : Function}
    {ops args free : List Value} (hT : Tolerates P G R) (hK : K.Ok P G) (hbreaks : K.Breaks P G R B)
    (hnone : inside = none → K.depth = 0)
    (hsome : ∀ call, inside = some call → ∃ d, K.depth = d + 1 ∧ Calls P G R d call)
    (hstanding : K.Standing P G st m next (ops ++ .closure id (some f) free :: args))
    (h : (applyInside Lambda.bySlot inside (Value.closure id (some f) free).outline
      (args.map Value.outline)).Sat st (fun v st' => ∀ w m', w.outline = v →
        K.Standing P G st' m' next (ops ++ [w]) → m'.Runs R) B) :
    Exec.Sat (Exec.exec ⟨.call, [args.length]⟩) m (fun _ m' => m'.Runs R) (Machine.Stops R) := by
  have hclosure := hstanding.ops (.closure id (some f) free) (by simp)
  obtain ⟨c, hfind, σ, s, τ, hc⟩ : ClosureShows P G st.lambdas id f free := by
    cases hclosure with
    | closure hshows _ => exact hshows
  obtain ⟨locals, hlive, hlocals⟩ := hstanding.live
  have hlive' : m.live = (K.below ++ (locals ++ ops)) ++ .closure id (some f) free :: args := by
    simp [hlive]
  have hmirrors := hstanding.mirrors
  rw [Value.outline, sat_applyInside_closure hfind, List.length_map, ← hc.params] at h
  apply Exec.call_closure_sat hstanding.fits hlive'
  · intro m' harity hframes hagrees hfits hlive''
    rw [if_pos harity] at h
    cases inside with
    | none =>
      have hdepth := hstanding.depth
      rw [hnone rfl, ← hstanding.callers] at hdepth
      omega
    | some call =>
      obtain ⟨d, hdepth, hcall⟩ := hsome call rfl
      obtain ⟨below, hbelow⟩ : ∃ below, below =
          K.below ++ (locals ++ ops) ++ [.closure id (some f) free] := ⟨_, rfl⟩
      have hlength : below.length = (K.below ++ (locals ++ ops)).length + 1 := by
        rw [hbelow, List.length_append, List.length_singleton]
      rw [← hlength] at hagrees
      have hargs : ∀ w ∈ args, w.Every (ClosureShows P G st.lambdas) := fun w hw =>
        hstanding.ops w (by simp [hw])
      have hstart := hstanding.enter_inner hdepth hc hargs hagrees hfits
        (by simp [hlive'', hbelow])
      have hok : (K.inner next below st.lambdas id f free c _ _ d).Ok P G :=
        Call.inner_ok hK.globals hc hclosure
      simp only [Lambda.sat_run] at h
      apply ((follows_block hT fun s _ => (tree_simulates hT hcall).stmt_all s).leaves hT
        (Call.inner_piece hc hok ?_) rfl hstart)
      · apply h.mono
        intro v st' hreturn w m'' hw hinside
        exact Call.inner_leave hstanding hdepth hlocals hbelow hw hinside hreturn
      · constructor
        · intro v st' hreturn w m'' hw hinside
          exact Call.inner_leave hstanding hdepth hlocals hbelow hw hinside hreturn
        · exact hbreaks.fault
        · exact hbreaks.tooDeep
  · intro harity
    rw [if_neg harity] at h
    exact hbreaks.fault _ st h m hmirrors
  · intro harity hframes
    rw [if_pos harity] at h
    cases inside with
    | none => exact hbreaks.tooDeep st h m hmirrors
    | some call =>
      obtain ⟨d, hdepth, -⟩ := hsome call rfl
      have hmax := hstanding.depth
      rw [hdepth, ← hstanding.callers] at hmax
      omega
  · intro _
    exact (hT st m hmirrors).2 _ trivial

theorem Mirrors.write {st : Store} {m : Machine} (h : Mirrors P G st m) (text : Bytes) :
    Mirrors P G { st with output := st.output ++ text } { m with output := text :: m.output } where
  constants := h.constants
  fresh := h.fresh
  written := by
    rw [← h.written]
    simp [Machine.written]
  globals := h.globals
  spare := h.spare
  unset := h.unset

/-- A call of a builtin function writes its output and pushes its value. -/
theorem calls_builtin [Casing] {inside : Option (Value → List Value → Eval Value)} {K : Call}
    {B : Break → Store → Prop} {st : Store} {m : Machine} {next : Nat} {b : Builtin}
    {ops args : List Value}
    (hstanding : K.Standing P G st m next (ops ++ .builtin (.known b) :: args))
    (h : (applyInside Lambda.bySlot inside (.builtin (.known b)) (args.map Value.outline)).Sat st
      (fun v st' => ∀ w m', w.outline = v → K.Standing P G st' m' next (ops ++ [w]) → m'.Runs R) B) :
    Exec.Sat (Exec.exec ⟨.call, [args.length]⟩) m (fun _ m' => m'.Runs R) (Machine.Stops R) := by
  obtain ⟨locals, hlive, hlocals⟩ := hstanding.live
  have hlive' : m.live = (K.below ++ (locals ++ ops)) ++ .builtin (.known b) :: args := by
    simp [hlive]
  rw [sat_applyInside_builtin, Builtin.value_outline, Builtin.output_outline] at h
  apply Exec.call_builtin_sat hstanding.fits hlive'
  intro m' hagrees hfits hlive''
  apply h (b.value args) m' rfl
  refine ⟨(hstanding.mirrors.write _).of_agrees hagrees, hfits, hagrees.frame.trans hstanding.frame,
    hagrees.callers.trans hstanding.callers, hagrees.maxFrames.trans hstanding.depth,
    hstanding.grown, ⟨locals, by simp [hlive''], hlocals⟩, ?_⟩
  intro w hw
  rcases List.mem_append.1 hw with hw | hw
  · exact hstanding.ops w (List.mem_append_left _ hw)
  · obtain rfl := List.mem_singleton.1 hw
    exact .apply b fun u hu => hstanding.ops u (by simp [hu])

/-- A call of any value follows its evaluation, if the calls in the bodies of functions do. -/
theorem calls_applyInside [Casing] {inside : Option (Value → List Value → Eval Value)}
    (hT : Tolerates P G R) (hnone : inside = none → d = 0)
    (hsome : ∀ call, inside = some call → ∃ d', d = d' + 1 ∧ Calls P G R d' call) :
    Calls P G R d (applyInside Lambda.bySlot inside) := by
  rintro K B st m next ops callee args hK rfl hbreaks hstanding h
  have hother (hclosure : ∀ id fn free, callee ≠ .closure id fn free)
      (hnative : ∀ b, callee ≠ .builtin b) (hhollow : callee ≠ .noClosure)
      (hcallee : ∀ id fn free, callee.outline ≠ .closure id fn free)
      (hbuiltin : ∀ b, callee.outline ≠ .builtin b) :
      Exec.Sat (Exec.exec ⟨.call, [args.length]⟩) m (fun _ m' => m'.Runs R) (Machine.Stops R) := by
    obtain ⟨locals, hlive, -⟩ := hstanding.live
    have hlive' : m.live = (K.below ++ (locals ++ ops)) ++ callee :: args := by simp [hlive]
    rw [applyInside_other hcallee hbuiltin, Eval.sat_throw, Value.typeName_outline] at h
    exact Exec.call_other_sat hstanding.fits hlive' hclosure hnative hhollow
      (hbreaks.fault _ st h m hstanding.mirrors)
  cases hstanding.ops callee (by simp) with
  | closure hshows hfree => exact calls_closure hT hK hbreaks hnone hsome hstanding h
  | builtin b => exact calls_builtin hstanding h
  | null => exact hother nofun nofun nofun nofun nofun
  | int n => exact hother nofun nofun nofun nofun nofun
  | bool b => exact hother nofun nofun nofun nofun nofun
  | string s => exact hother nofun nofun nofun nofun nofun
  | error message => exact hother nofun nofun nofun nofun nofun
  | array _ => exact hother nofun nofun nofun (by simp) (by simp)
  | hash _ _ => exact hother nofun nofun nofun (by simp) (by simp)

/-- Calls follow their evaluation, however many there may be inside each other. -/
theorem calls_apply [Casing] (hT : Tolerates P G R) (d : Nat) : Calls P G R d
    (apply Lambda.bySlot d) := by
  induction d with
  | zero =>
    apply calls_applyInside hT
    · intro _
      rfl
    · rintro call ⟨⟩
  | succ d ih =>
    apply calls_applyInside hT
    · rintro ⟨⟩
    · rintro _ ⟨⟩
      exact ⟨d, rfl, ih⟩

end StackScript
