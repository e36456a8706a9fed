import StackScript.Proofs.Meaning.Simulation

/-!
# The code of expressions

Each form of expression has code that follows its evaluation: names and
literals, operators, arrays, hashes and function literals.

## Main results

* `pushes_ident`, `pushes_const`: names and literals.
* `UnaryOp.applies`, `BinaryOp.applies`: operators.
* `pushes_items`, `pushes_pairs`: values one after another.
* `pushes_function`: function literals.
-/

namespace StackScript

variable {P : Array Value} {G : List Bytes} {R : Machine.Ending → Machine → Prop} {d : Nat}

/-! ### Names -/

/-- The value of a name is found where the name is resolved to, unless the global store is too
small. -/
theorem Call.Standing.denoted {K : Call} {st : Store} {m : Machine} {next : Nat} {ops : List Value}
    {names : Names} {ts : List Table} {x : Bytes} {p : Place} (h : K.Standing P G st m next ops)
    (hK : K.Ok P G) (hnames : names.Match ts) (hdenotes : Denotes names.globals x names.levels ts p)
    (hcovers : K.Covers G names)
    (hfree : ∀ t rest, ts = t :: rest → t.free.toList <+: K.final.table.free.toList) :
    ∃ v r, names.lookup x (Current.activations K.current st.vars) st.globals = some v ∧
      p.load.source? m = some r ∧ (∀ w, r = .ok w → w.Shows P G st.lambdas v) ∧
      ∀ f, r = .error f → f.Cut := by
  obtain ⟨globals, levels⟩ := names
  cases hdenotes with
  | own hx hown =>
    obtain ⟨w, hsource, hevery, hlookup⟩ :=
      h.load hK hnames.1 hcovers (hfree _ _ rfl) hx
    refine ⟨w.outline, .ok w, ?_, hsource, ?_, by simp⟩
    · rw [Names.lookup, hlookup, Option.some_or]
    · intro u hu
      obtain rfl := Except.ok.inj hu
      exact ⟨rfl, hevery⟩
  | @global _ _ k hlevels hk =>
    have hlookup : Names.lookup ⟨globals, levels⟩ x (Current.activations K.current st.vars)
        st.globals = some (st.globals x) := by
      rw [Names.lookup, lookupLevels_none hlevels, Option.none_or, if_pos (List.mem_of_getElem? hk)]
    -- The names known here are the first of those that the whole source leaves, so the slot is that
    -- of the name.
    have hslot : G[k]? = some x := by
      obtain ⟨rest, hrest⟩ := hcovers.1
      rw [← hrest, List.getElem?_append_left (List.getElem?_eq_some_iff.1 hk).1]
      exact hk
    cases hget : m.globals[k]? with
    | some w =>
      refine ⟨_, .ok w, hlookup, by simp [Place.load, Instr.source?, hget], ?_, by simp⟩
      intro u hu
      obtain rfl := Except.ok.inj hu
      exact h.mirrors.globals k x w hslot hget
    | none =>
      refine ⟨_, .error (.globalRange k m.globals.size), hlookup,
        by simp [Place.load, Instr.source?, hget], by simp, ?_⟩
      rintro f hf
      obtain rfl := Except.error.inj hf
      trivial
  | @builtin _ _ b hlevels hmem hb =>
    refine ⟨.builtin (.known b), .ok (.builtin (.known b)), ?_, ?_, ?_, by simp⟩
    · rw [Names.lookup, lookupLevels_none hlevels, Option.none_or, if_neg hmem, hb, Option.map_some]
    · simp [Place.load, Instr.source?, Builtin.ofSlot?_slot]
    · intro w hw
      obtain rfl := Except.ok.inj hw
      exact ⟨rfl, .builtin b⟩

/-- The result of an evaluation that reads the store only. -/
theorem pushes_source [Casing] (hT : Tolerates P G R) {p : Emission} {xs : List Bytes}
    {x : Option Current → Names → Eval Value}
    (h : ∀ K B offset σ seg τ names, Piece P G R d K B p xs offset σ seg τ names →
      ∃ i, seg = [i] ∧ ∀ st m next ops, K.Standing P G st m next ops →
        ∃ v r, x K.current names st = .ok v st ∧ i.source? m = some r ∧
          (∀ w, r = .ok w → w.Shows P G st.lambdas v) ∧ ∀ f, r = .error f → f.Cut) :
    Pushes P G R d p xs x (fun v => [v]) := by
  intro K B offset σ seg τ names st m ops hpiece hcode hstanding hx
  obtain ⟨i, rfl, hsource⟩ := h K B offset σ seg τ names hpiece
  refine hstanding.step hT hpiece.ok hcode ?_
  intro m' hstanding'
  obtain ⟨v, r, heq, hr, hok, herror⟩ := hsource st m' _ ops hstanding'
  rw [Eval.Sat, heq] at hx
  have hstanding'' : K.Standing P G st m' (offset + i.op.size) (ops ++ []) := by
    rwa [List.append_nil]
  refine hstanding''.yields hT (.source hr) (fun w hw => (hok w hw).2) ?_ ?_
  · intro w m'' hw hstanding'''
    refine hx [w] m'' ?_ ?_
    · rw [List.map_singleton, (hok w hw).1]
    · rw [Instr.bytes_cons, Instr.bytes_nil, Nat.add_zero]
      exact hstanding'''
  · intro f m'' hf hmirrors
    exact (hT st m'' hmirrors).2 f (herror f hf)

theorem pushes_ident [Casing] (hT : Tolerates P G R) (call : Value → List Value → Eval Value)
    (id : Ident) :
    Pushes P G R d (Emission.ident id.name) []
      (fun current names => Expr.eval call current names (.ident id)) (fun v => [v]) := by
  apply pushes_source hT
  intro K B offset σ seg τ names hpiece
  obtain ⟨place, hres, rfl, -⟩ := hpiece.emits
  obtain ⟨hnames', hdenotes⟩ := LevelsMatch.resolve hpiece.known hres
  refine ⟨place.load, rfl, ?_⟩
  intro st m next ops hstanding
  have hfree : ∀ t rest, τ.tables = t :: rest → t.free.toList <+: K.final.table.free.toList := by
    rintro t rest htables
    obtain ⟨rfl, -⟩ := List.cons.inj htables
    exact hpiece.grows.table.free
  obtain ⟨v, r, hlookup, hsource, hok, herror⟩ :=
    hstanding.denoted hpiece.ok hnames' hdenotes hpiece.covers hfree
  refine ⟨v, r, ?_, hsource, hok, herror⟩
  have hget : (MonadState.get : Eval Store) st = .ok st st := rfl
  simp only [Expr.eval, bind, EStateM.bind, hget, hlookup]
  rfl

/-! ### Literals -/

theorem pushes_const [Casing] (hT : Tolerates P G R) {v : Value} (hv : v.outline = v)
    (hevery : ∀ C, v.Every C) :
    Pushes P G R d (Emission.const v) [] (fun _ _ => pure v) (fun v => [v]) := by
  apply pushes_source hT
  intro K B offset σ seg τ names hpiece
  obtain ⟨-, rfl, rfl⟩ := hpiece.emits
  refine ⟨_, rfl, ?_⟩
  intro st m next ops hstanding
  have hconst : m.constants[σ.constants.size]? = some v := by
    rw [hstanding.mirrors.constants]
    refine getElem?_mono (hpiece.grows.constants.trans hpiece.ok.constants) ?_
    simp [Context.push]
  refine ⟨v, .ok v, rfl, by simp [Instr.source?, hconst], ?_, by simp⟩
  intro w hw
  obtain rfl := Except.ok.inj hw
  exact ⟨hv, hevery _⟩

theorem pushes_value [Casing] (hT : Tolerates P G R) {i : Instr} {v : Value}
    (hsource : ∀ m, i.source? m = some (.ok v)) (hv : v.outline = v) (hevery : ∀ C, v.Every C) :
    Pushes P G R d (Emission.one i) [] (fun _ _ => pure v) (fun v => [v]) := by
  apply pushes_source hT
  intro K B offset σ seg τ names hpiece
  obtain ⟨rfl, rfl⟩ := hpiece.emits
  refine ⟨_, rfl, ?_⟩
  intro st m next ops hstanding
  refine ⟨v, .ok v, rfl, hsource m, ?_, nofun⟩
  intro w hw
  obtain rfl := Except.ok.inj hw
  exact ⟨hv, hevery _⟩

/-! ### Operators -/

theorem applies_unary {i : Instr} {f : Value → Except Fault Value} (hi : i.unary? = some f)
    (hf : ∀ v, f v.outline = (f v).map Value.outline)
    (hevery : ∀ C v w, f v = .ok w → w.Every C) :
    Applies (fun _ => True) i (fun v => [v]) fun v => .lift (f v) := by
  intro a ws m _ hws
  obtain ⟨v, rfl, rfl⟩ := List.map_eq_singleton_iff.1 hws
  exact ⟨f v, .unary hi, congrArg Eval.lift (hf v), fun C w _ => hevery C v w⟩

theorem applies_binary {i : Instr} {f : Value → Value → Except Fault Value} (hi : i.binary? = some f)
    (hf : ∀ a b, f a.outline b.outline = (f a b).map Value.outline)
    (hevery : ∀ C a b w, a.Every C → f a b = .ok w → w.Every C) :
    Applies (fun _ => True) i (fun p : Value × Value => [p.1, p.2]) fun p => .lift (f p.1 p.2) := by
  rintro ⟨_, _⟩ ws m _ hws
  obtain ⟨a, ws', rfl, rfl, hws'⟩ := List.map_eq_cons_iff.1 hws
  obtain ⟨b, rfl, rfl⟩ := List.map_eq_singleton_iff.1 hws'
  exact ⟨f a b, .binary hi, congrArg Eval.lift (hf a b),
    fun C w hargs => hevery C a b w (hargs a (by simp))⟩

theorem applies_same {op : Opcode} {f : Bool → Bool}
    (hop : (⟨op, []⟩ : Instr).binary? = some fun a b => .ok (.bool (f (a.same b)))) :
    Applies (fun _ => True) ⟨op, []⟩ (fun p : Value × Value => [p.1, p.2])
      fun p => .lift (.ok (.bool (f (p.1.same p.2)))) := by
  refine applies_binary hop ?_ ?_
  · intro a b
    rw [Value.same_outline]
    rfl
  · intro C a b w _ hw
    obtain rfl := Except.ok.inj hw
    exact .bool _

/-- The instruction of an operator with one operand. -/
theorem UnaryOp.applies {op : UnaryOp} {code : Opcode} (h : op.opcode? = some code) :
    Applies (fun _ => True) ⟨code, []⟩ (fun v => [v]) op.eval := by
  cases op with
  | not =>
    obtain rfl := Option.some.inj h
    refine applies_unary (f := fun v => .ok (.bool (!v.truthy))) rfl ?_ ?_
    · intro v
      rw [Value.truthy_outline]
      rfl
    · intro C v w hw
      obtain rfl := Except.ok.inj hw
      exact .bool _
  | neg =>
    obtain rfl := Option.some.inj h
    exact applies_unary rfl Value.negate_outline fun _ _ _ => .negate
  | other text => cases h

/-- The instruction of an operator with two operands, of which the left one is evaluated first. -/
theorem BinaryOp.applies {op : BinaryOp} {code : Opcode} (hless : op ≠ .less)
    (h : op.opcode? = some code) :
    Applies (fun _ => True) ⟨code, []⟩ (fun p : Value × Value => [p.1, p.2])
      fun p => op.eval p.1 p.2 := by
  have harith (op : Opcode) (hop : (⟨op, []⟩ : Instr).binary? = some fun a b => a.arithmetic op b) :
      Applies (fun _ => True) ⟨op, []⟩ (fun p : Value × Value => [p.1, p.2])
        fun p => .lift (p.1.arithmetic op p.2) :=
    applies_binary hop (fun a b => Value.arithmetic_outline a b op) fun _ _ _ _ _ => .arithmetic
  cases op with
  | less => exact absurd rfl hless
  | other text => cases h
  | add => obtain rfl := Option.some.inj h; exact harith .add rfl
  | sub => obtain rfl := Option.some.inj h; exact harith .sub rfl
  | mul => obtain rfl := Option.some.inj h; exact harith .mul rfl
  | div => obtain rfl := Option.some.inj h; exact harith .div rfl
  | greater =>
    obtain rfl := Option.some.inj h
    exact applies_binary rfl Value.greater_outline fun _ _ _ _ _ => .greater
  | equal =>
    obtain rfl := Option.some.inj h
    exact applies_same (f := id) rfl
  | notEqual =>
    obtain rfl := Option.some.inj h
    exact applies_same (f := not) rfl

/-- "Less than" is "greater than" with the operands in the order in which they are evaluated. -/
theorem BinaryOp.applies_less :
    Applies (fun _ => True) ⟨.greater, []⟩ (fun p : Value × Value => [p.1, p.2])
      fun p => BinaryOp.less.eval p.2 p.1 :=
  applies_binary rfl Value.greater_outline fun _ _ _ _ _ => .greater

theorem applies_index :
    Applies (fun _ => True) ⟨.index, []⟩ (fun p : Value × Value => [p.1, p.2])
      fun p => .lift (p.1.index p.2) :=
  applies_binary rfl Value.index_outline fun _ _ _ _ ha => ha.index

theorem applies_array (n : Nat) :
    Applies (fun vs : List Value => vs.length = n) ⟨.array, [n]⟩ id fun vs => pure (.array vs) := by
  rintro _ ws m hn rfl
  refine ⟨.ok (.array ws), .gather (f := fun items => .ok (.array items)) rfl ?_, ?_, ?_⟩
  · exact (List.length_map _).symm.trans hn
  · change Eval.lift (.ok _) = Eval.lift (.ok _)
    rw [Value.outline_array]
  · intro C w hargs hw
    obtain rfl := Except.ok.inj hw
    exact .array hargs

theorem applies_hash (n : Nat) :
    Applies (fun vs : List Value => vs.length = 2 * n) ⟨.hash, [n]⟩ id fun vs =>
      .lift ((Entry.pairUp [] vs).map fun entries => .hash (Entry.file entries)) := by
  rintro _ ws m hn rfl
  refine ⟨_, .gather (f := fun items => (Entry.pairUp [] items).map fun es => .hash (Entry.file es))
    rfl ?_, ?_, ?_⟩
  · exact (List.length_map _).symm.trans hn
  · have hpairs := Value.pairUp_outline [] ws
    rw [List.map_nil] at hpairs
    beta_reduce
    rw [hpairs]
    cases Entry.pairUp [] ws with
    | error f => rfl
    | ok entries =>
      simp only [Except.map, Value.file_outline, Value.outline_hash]
  · intro C w hargs hw
    cases hpairs : Entry.pairUp [] ws with
    | error f =>
      rw [hpairs] at hw
      cases hw
    | ok entries =>
      rw [hpairs] at hw
      obtain rfl := Except.ok.inj hw
      exact .file (Value.Every.pairUp (by simp) hargs hpairs)

/-! ### Values one after another -/

section

variable {call : Value → List Value → Eval Value}

theorem pushes_items [Casing] {items : List Expr}
    (h : ∀ e ∈ items, Pushes P G R d e.Emits e.lets (fun current names => e.eval call current names)
      fun v => [v]) :
    Pushes P G R d (Emission.all (emitsItems items)) (letsItems items)
      (fun current names => evalItems call current names items) id := by
  induction items with
  | nil => exact .nothing rfl
  | cons e rest ih =>
    obtain ⟨he, hrest⟩ := List.forall_mem_cons.1 h
    refine (he.seq (ih hrest) (tree_lawful.expr_all e) (items_lawful fun e _ => tree_lawful.expr_all e)
      (tree_binds.expr_all e) (f := List.cons) (g := id) fun _ _ => rfl).congr ?_
    intro current names
    rw [evalItems]

theorem evalItems_length (current : Option Current) (names : Names) (items : List Expr) (st : Store) :
    (evalItems call current names items).Sat st (fun vs _ => vs.length = items.length)
      fun _ _ => True := by
  induction items generalizing names st with
  | nil => exact rfl
  | cons e rest ih =>
    rw [evalItems, Eval.sat_bind]
    refine (Eval.Sat.true _ _).mono fun v st₁ _ => ?_
    rw [Eval.sat_bind]
    refine (ih _ _).mono fun vs st₂ hvs => ?_
    rw [Eval.sat_pure, List.length_cons, List.length_cons, hvs]

/-- The evaluation of a pair. -/
def pairEval (call : Value → List Value → Eval Value) (current : Option Current) (p : Expr × Expr) :
    PairEval where
  text := p.1.render
  lets := p.1.lets ++ p.2.lets
  run names := do
    let k ← p.1.eval call current names
    let v ← p.2.eval call current (names.bindAll p.1.lets)
    return [k, v]

theorem evalPairs_eq (current : Option Current) (pairs : List (Expr × Expr)) :
    evalPairs call current pairs = pairs.map (pairEval call current) := by
  induction pairs with
  | nil => rfl
  | cons p rest ih =>
    obtain ⟨key, value⟩ := p
    rw [evalPairs, ih]
    rfl

/-- The pairs of a hash literal are evaluated in the order of their keys' texts. -/
theorem evalPairs_inOrder (current : Option Current) (pairs : List (Expr × Expr)) :
    ((evalPairs call current pairs).mergeSort fun a b => Bytes.le a.text b.text) =
      (Expr.inOrder pairs).map (pairEval call current) := by
  rw [evalPairs_eq, Expr.inOrder, List.map_mergeSort]
  intro a _ b _
  rfl

theorem pushes_pairs [Casing] {pairs : List (Expr × Expr)}
    (h : ∀ p ∈ pairs,
      Pushes P G R d p.1.Emits p.1.lets (fun current names => p.1.eval call current names)
        (fun v => [v]) ∧
      Pushes P G R d p.2.Emits p.2.lets (fun current names => p.2.eval call current names)
        fun v => [v]) :
    Pushes P G R d (Emission.all (pairs.map fun p => p.1.Emits.seq p.2.Emits))
      (pairs.map fun p => p.1.lets ++ p.2.lets).flatten
      (fun current names => PairEval.runAll names (pairs.map (pairEval call current))) id := by
  induction pairs with
  | nil => exact .nothing rfl
  | cons p rest ih =>
    obtain ⟨⟨hkey, hvalue⟩, hrest⟩ := List.forall_mem_cons.1 h
    have hlawful (e : Expr) : e.Emits.Lawful := tree_lawful.expr_all e
    have hbinds (e : Expr) : e.Emits.Binds e.lets := tree_binds.expr_all e
    have hpair : Pushes P G R d (p.1.Emits.seq p.2.Emits) (p.1.lets ++ p.2.lets)
        (fun current names => (pairEval call current p).run names) id :=
      hkey.seq hvalue (hlawful _) (hlawful _) (hbinds _) (f := fun k v => [k, v]) fun _ _ => rfl
    refine (hpair.seq (ih hrest) ((hlawful _).seq (hlawful _))
      (pairs_lawful fun p _ => ⟨hlawful _, hlawful _⟩) ((hbinds _).seq (hbinds _))
      (f := List.append) (g := id) fun _ _ => rfl).congr ?_
    intro current names
    rfl

theorem runAll_length (current : Option Current) (names : Names) (pairs : List (Expr × Expr))
    (st : Store) :
    (PairEval.runAll names (pairs.map (pairEval call current))).Sat st
      (fun vs _ => vs.length = 2 * pairs.length) fun _ _ => True := by
  induction pairs generalizing names st with
  | nil => exact rfl
  | cons p rest ih =>
    rw [List.map_cons, PairEval.runAll, Eval.sat_bind]
    have hpair : ((pairEval call current p).run names).Sat st (fun kv _ => kv.length = 2)
        fun _ _ => True := by
      rw [pairEval, Eval.sat_bind]
      refine (Eval.Sat.true _ _).mono fun k st₁ _ => ?_
      rw [Eval.sat_bind]
      exact (Eval.Sat.true _ _).mono fun v st₂ _ => rfl
    refine hpair.mono fun kv st₁ hkv => ?_
    rw [Eval.sat_bind]
    refine (ih _ _).mono fun vs st₂ hvs => ?_
    rw [Eval.sat_pure, List.length_append, hkv, hvs, List.length_cons]
    omega

end

/-! ### Function literals -/

/-- The captured values are pushed one after another. -/
theorem Call.Standing.loadAll [Casing] {K : Call} {st : Store} {names : Names} {t : Table}
    {ts : List Table}
    (hT : Tolerates P G R) (hK : K.Ok P G) (hnames : names.Match (t :: ts)) (hcovers : K.Covers G names)
    (hfree : t.free.toList <+: K.final.table.free.toList) {symbols : List Symbol}
    (hsymbols : ∀ s ∈ symbols, t.find? s.name = some s.place ∧ s.place.isShared = false)
    {m : Machine} {offset : Nat} {ops : List Value} (hstanding : K.Standing P G st m offset ops)
    (hcode : K.CodeAt offset (symbols.map (·.place.load)))
    (h : ∀ ws m', List.Forall₂ (fun (s : Symbol) (w : Value) => lookupLevels s.name names.levels
        (Current.activations K.current st.vars) = some w.outline) symbols ws →
      K.Standing P G st m' (offset + Instr.bytes (symbols.map (·.place.load))) (ops ++ ws) →
      m'.Runs R) : m.Runs R := by
  induction symbols generalizing m offset ops with
  | nil =>
    refine h [] m .nil ?_
    simpa using hstanding
  | cons s symbols ih =>
    obtain ⟨⟨hfind, hshared⟩, hrest⟩ := List.forall_mem_cons.1 hsymbols
    obtain ⟨globals, levels⟩ := names
    cases levels with
    | nil =>
      cases ts with
      | cons u rest => exact hnames.elim
      | nil =>
        obtain ⟨k, hk, -⟩ | ⟨-, b, hb, -⟩ := GlobalsMatch.cases hnames hfind
        · rw [hk] at hshared
          cases hshared
        · rw [hb] at hshared
          cases hshared
    | cons l levels =>
      refine hstanding.step hT hK hcode ?_
      intro m₁ hstanding₁
      obtain ⟨w, hsource, hevery, hlookup⟩ := hstanding₁.load hK hnames.1 hcovers hfree hfind
      have hstanding₁' : K.Standing P G st m₁ (offset + s.place.load.op.size) (ops ++ []) := by
        rwa [List.append_nil]
      refine hstanding₁'.yields hT (.source hsource) ?_ ?_ nofun
      · intro u hu
        obtain rfl := Except.ok.inj hu
        exact hevery
      · intro u m₂ hu hstanding₂
        obtain rfl := Except.ok.inj hu
        refine ih hrest hstanding₂ hcode.tail ?_
        intro ws m₃ hws hstanding₃
        refine h (w :: ws) m₃ (.cons hlookup hws) ?_
        rw [List.map_cons, Instr.bytes_cons, ← Nat.add_assoc]
        simpa using hstanding₃

/-- A machine that has made a closure represents a store that has it too. -/
theorem Mirrors.grow {st : Store} {m : Machine} (h : Mirrors P G st m) (c : Lambda) :
    Mirrors P G { st with lambdas := st.lambdas ++ [c] } { m with fresh := m.fresh + 1 } where
  constants := h.constants
  fresh := by simp [h.fresh]
  written := h.written
  globals := fun k x w hx hw => (h.globals k x w hx hw).grow (List.prefix_append _ _)
  spare := h.spare
  unset := h.unset

/-- A closure of a compiled function with the values that it has captured stands for the closure of
the literal. -/
theorem pushes_function [Casing] (hT : Tolerates P G R) (call : Value → List Value → Eval Value)
    (loc : Loc) (name : Bytes) (params : List Ident) (body : Block) :
    Pushes P G R d (Emission.function name params body.Emits) []
      (fun current names => Expr.eval call current names (.function loc name params body))
      fun v => [v] := by
  intro K B offset σ seg τ' names st m ops hpiece hcode hstanding h
  have hK := hpiece.ok
  have hσ := hpiece.context
  have hnames := hpiece.known
  have hgrows := hpiece.grows
  have hcovers := hpiece.covers
  obtain ⟨s, τ, table, outer, hs, houter, hlocals, hfree, hsize, rfl, rfl⟩ := hpiece.emits
  have hbody : body.Emits.Lawful := block_lawful fun s _ => tree_lawful.stmt_all s
  have hbinds : body.Emits.Binds body.lets := block_binds fun s _ => tree_binds.stmt_all s
  obtain ⟨hτ, -, -⟩ := hbody _ _ _ _ hs (hσ.enter name params)
  have hchain : Chain (τ.table :: table :: outer) := by
    have := hτ.chain
    rwa [Context.tables, houter] at this
  have hnames' : names.Match (table :: outer) := by
    have hinside := hbinds _ _ _ _ _ hs (Names.Match.enter hnames name params)
    rw [Names.enter, Names.bindAll_cons, Context.tables, houter] at hinside
    exact hinside.2
  have hsymbols : ∀ x ∈ τ.table.free.toList, table.find? x.name = some x.place ∧
      x.place.isShared = false := by
    intro x hx
    exact hchain.1.2.2 x (by simpa using hx)
  refine hstanding.loadAll hT hK hnames' hcovers hgrows.table.free hsymbols hcode.left ?_
  intro ws m₁ hws hstanding₁
  refine hstanding₁.step hT hK hcode.right ?_
  intro m₂ hstanding₂
  let f : Function :=
    ⟨τ.constants.size, name, .ofInstrs (Instr.close s), τ.table.definitions, params.length⟩
  let c : Lambda := ⟨name, params, body, names, Current.activations K.current st.vars⟩
  have hconstants : τ.constants.toList <+: P.toList :=
    (by simp : τ.constants.toList <+: (τ.constants.push _).toList).trans
      (hgrows.constants.trans hK.constants)
  have hconst : m₂.constants[τ.constants.size]? = some (.function (some f)) := by
    rw [hstanding₂.mirrors.constants]
    exact getElem?_mono (hgrows.constants.trans hK.constants) (by simp [f])
  have hgrown : st.lambdas <+: st.lambdas ++ [c] := List.prefix_append _ _
  have hclosure : (Value.closure m₂.fresh (some f) ws).Shows P G (st.lambdas ++ [c])
      (.closure (st.lambdas.length + 1) (some ⟨0, name, #[], 0, 0⟩) []) := by
    rw [hstanding₂.mirrors.fresh]
    refine ⟨rfl, .closure ⟨c, by simp [Lambda.find?], σ, s, τ, ?_⟩ ?_⟩
    · exact ⟨hσ, hnames, hs, hconstants, hcovers.1, rfl, rfl, rfl, rfl, ⟨hlocals, hfree⟩, hws⟩
    · intro w hw
      exact (hstanding₂.ops w (List.mem_append_right ops hw)).grow hgrown
  obtain ⟨locals, hlive, hvars⟩ := hstanding₂.live
  have hlive' : m₂.live = (K.below ++ (locals ++ ops)) ++ ws := by simp [hlive]
  have hlength : ws.length = τ.table.free.size := by
    rw [← hws.length_eq, Array.length_toList]
  refine Exec.close_sat hstanding₂.fits hlive' hlength hconst ?_ ?_
  · intro m₃ hagrees hfits hlive₃
    beta_reduce at h
    rw [Expr.eval] at h
    refine h [.closure m₂.fresh (some f) ws] m₃ (by rw [List.map_singleton, hclosure.1]) ?_
    refine ⟨(hstanding₂.mirrors.grow c).of_agrees hagrees, hfits, ?_, ?_, ?_, ?_, ?_, ?_⟩
    · rw [hagrees.frame, Instr.bytes_append, ← Nat.add_assoc]
      exact hstanding₂.frame
    · exact hagrees.callers.trans hstanding₂.callers
    · exact hagrees.maxFrames.trans hstanding₂.depth
    · exact hstanding₂.grown.trans hgrown
    · exact ⟨locals, by simp [hlive₃], hvars.imp fun _ _ hshows => hshows.grow hgrown⟩
    · intro w hw
      rcases List.mem_append.1 hw with hw | hw
      · exact (hstanding₂.ops w (List.mem_append_left ws hw)).grow hgrown
      · obtain rfl := List.mem_singleton.1 hw
        exact hclosure.2
  · intro m₃ hagrees _
    exact (hT _ _ ((hstanding₂.mirrors.grow c).of_agrees hagrees)).2 _ trivial

end StackScript
