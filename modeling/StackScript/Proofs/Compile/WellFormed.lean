import StackScript.Proofs.Compile.Balance
import StackScript.Proofs.Symbol.Chain

/-!
# Well-formed code

The operands of compiled code are in range. A constant that is pushed is a
literal, a closure is made of a function that uses no more captured values than
it is given, and slots have been given out. Names and constants only grow while
a program is compiled, so what is legal stays legal.

## Main definitions

* `Limits`, `Instr.Legal`: instructions with operands in range.
* `Function.Formed`: function constants whose code is legal and balanced.
* `Context.Ok`: names and constants as a compilation has them.

## Main results

* `tree_lawful`: all that the scheme emits is legal.
-/

namespace StackScript

/-- The value of a literal. -/
def Value.Literal : Value → Prop
  | .int _ | .string _ => True
  | _ => False

/-- What the operands of the instructions of a function, or of the main code, are checked
against. -/
structure Limits where
  constants : Array Value
  globals : Nat
  locals : Nat
  free : Nat
  /-- The code is that of a function. -/
  inside : Bool

/-- Every captured value that the code reads has a number below `n`. -/
def Code.FreeBelow (code : Code) (n : Nat) : Prop :=
  ∀ offset k, (offset, .instr ⟨.getFree, [k]⟩) ∈ code.walk → k < n

/-- The instruction has the operands of its operation, and they are in range. -/
inductive Instr.Legal (l : Limits) : Instr → Prop
  | const {n : Nat} {v : Value} : n ≤ maxOperand 2 → l.constants[n]? = some v → v.Literal →
    Legal l ⟨.const, [n]⟩
  | closure {n k : Nat} {f : Function} : n ≤ maxOperand 2 → k ≤ maxOperand 1 →
    l.constants[n]? = some (.function (some f)) → f.code.FreeBelow k → Legal l ⟨.closure, [n, k]⟩
  | global {op : Opcode} {n : Nat} : op = .getGlobal ∨ op = .setGlobal → n < l.globals →
    Legal l ⟨op, [n]⟩
  | local {op : Opcode} {n : Nat} : op = .getLocal ∨ op = .setLocal → n < l.locals →
    Legal l ⟨op, [n]⟩
  | free {n : Nat} : n < l.free → Legal l ⟨.getFree, [n]⟩
  | self : l.inside = true → Legal l ⟨.currentClosure, []⟩
  | builtin (b : Builtin) : Legal l ⟨.getBuiltin, [b.slot]⟩
  | count {op : Opcode} {n : Nat} : op = .array ∨ op = .hash → n ≤ maxOperand 2 → Legal l ⟨op, [n]⟩
  | jump {op : Opcode} {n : Nat} : op = .jump ∨ op = .jumpIfFalse → n ≤ maxOperand 2 →
    Legal l ⟨op, [n]⟩
  | call {n : Nat} : n ≤ maxOperand 1 → Legal l ⟨.call, [n]⟩
  | plain {op : Opcode} : op.widths = [] → op ≠ .currentClosure → Legal l ⟨op, []⟩

/-! ### Growing limits -/

/-- What is in range for the first limits is so for the second ones. -/
structure Limits.Le (l l' : Limits) : Prop where
  constants : l.constants.toList <+: l'.constants.toList
  globals : l.globals ≤ l'.globals
  locals : l.locals ≤ l'.locals
  free : l.free ≤ l'.free
  inside : l.inside = true → l'.inside = true

theorem getElem?_mono {a b : Array Value} (h : a.toList <+: b.toList) {n : Nat} {v : Value}
    (hv : a[n]? = some v) : b[n]? = some v := by
  obtain ⟨rest, hrest⟩ := h
  rw [← Array.getElem?_toList] at hv ⊢
  rw [← hrest]
  exact List.getElem?_append_left (List.getElem?_eq_some_iff.1 hv).1 ▸ hv

namespace Instr

variable {l l' : Limits} {i : Instr}

theorem Legal.mono (h : i.Legal l) (hle : l.Le l') : i.Legal l' := by
  cases h with
  | const hn hv hliteral => exact .const hn (getElem?_mono hle.constants hv) hliteral
  | closure hn hk hf hfree => exact .closure hn hk (getElem?_mono hle.constants hf) hfree
  | global hop hn => exact .global hop (Nat.lt_of_lt_of_le hn hle.globals)
  | «local» hop hn => exact .local hop (Nat.lt_of_lt_of_le hn hle.locals)
  | free hn => exact .free (Nat.lt_of_lt_of_le hn hle.free)
  | self hinside => exact .self (hle.inside hinside)
  | builtin b => exact .builtin b
  | count hop hn => exact .count hop hn
  | jump hop hn => exact .jump hop hn
  | call hn => exact .call hn
  | plain hop hself => exact .plain hop hself

/-- Only reads of captured values depend on how many there are. -/
theorem Legal.withFree (h : i.Legal l) {k : Nat} (hread : ∀ n, i = ⟨.getFree, [n]⟩ → n < k) :
    i.Legal { l with free := k } := by
  cases h with
  | const hn hv hliteral => exact .const hn hv hliteral
  | closure hn hk hf hfree => exact .closure hn hk hf hfree
  | global hop hn => exact .global hop hn
  | «local» hop hn => exact .local hop hn
  | free hn => exact .free (hread _ rfl)
  | self hinside => exact .self hinside
  | builtin b => exact .builtin b
  | count hop hn => exact .count hop hn
  | jump hop hn => exact .jump hop hn
  | call hn => exact .call hn
  | plain hop hself => exact .plain hop hself

/-- Operands in range fit in their bytes if there are not too many slots. -/
theorem Legal.fits (h : i.Legal l) (hglobals : l.globals ≤ maxOperand 2 + 1)
    (hlocals : l.locals ≤ maxOperand 1) (hfree : l.free ≤ maxOperand 1) : i.Fits := by
  have hone {op : Opcode} {width n : Nat} (hop : op.widths = [width]) (hn : n ≤ maxOperand width) :
      Fits ⟨op, [n]⟩ := by
    rw [Fits, hop]
    exact .cons hn .nil
  cases h with
  | const hn => exact hone rfl hn
  | closure hn hk => exact .cons hn (.cons hk .nil)
  | global hop hn => rcases hop with rfl | rfl <;> exact hone rfl (by omega)
  | «local» hop hn => rcases hop with rfl | rfl <;> exact hone rfl (by omega)
  | free hn => exact hone rfl (by omega)
  | self => exact .nil
  | builtin b => exact hone rfl (by cases b <;> decide)
  | count hop hn => rcases hop with rfl | rfl <;> exact hone rfl hn
  | jump hop hn => rcases hop with rfl | rfl <;> exact hone rfl hn
  | call hn => exact hone rfl hn
  | plain hop =>
    rw [Fits, hop]
    exact .nil

end Instr

/-- The reads of captured values in code with legal instructions are below the limit. -/
theorem Code.freeBelow_ofInstrs {l : Limits} {is : List Instr} (hfits : ∀ i ∈ is, i.Fits)
    (hlegal : ∀ i ∈ is, i.Legal l) : (Code.ofInstrs is).FreeBelow l.free := by
  intro offset k hk
  obtain ⟨before, i, after, rfl, -, hi⟩ := (mem_walk_ofInstrs hfits).1 hk
  obtain rfl := Fetched.instr.inj hi
  cases hlegal ⟨.getFree, [k]⟩ (by simp) with
  | global hop => rcases hop with hop | hop <;> cases hop
  | «local» hop => rcases hop with hop | hop <;> cases hop
  | free hn => exact hn
  | count hop => rcases hop with hop | hop <;> cases hop
  | jump hop => rcases hop with hop | hop <;> cases hop

/-! ### Functions -/

/-- The instructions are what the scheme gives the body of a literal with the function's name and
number of parameters, before they are encoded. -/
def Function.Meant (f : Function) (is : List Instr) : Prop :=
  ∃ (σ : Context) (params : List Ident) (body : Block) (s : List Instr) (τ : Context),
    body.Emits 0 (σ.enter f.name params) s τ ∧ params.length = f.params ∧
      τ.table.definitions = f.locals ∧ is = Instr.close s

/-- A function constant as the compiler makes it: its code is legal and balanced. -/
structure Function.Formed (constants : Array Value) (globals : Nat) (f : Function) : Prop where
  locals : f.locals ≤ maxOperand 1
  code : ∃ is free, f.Meant is ∧ f.code = .ofInstrs is ∧ free ≤ maxOperand 1 ∧
    (∀ i ∈ is, i.Legal ⟨constants, globals, f.locals, free, true⟩) ∧ Settled 0 is 0 0

theorem Function.Formed.mono {constants constants' : Array Value} {globals globals' : Nat}
    {f : Function} (h : f.Formed constants globals) (hconstants : constants.toList <+: constants'.toList)
    (hglobals : globals ≤ globals') : f.Formed constants' globals' := by
  obtain ⟨hlocals, is, free, hmeant, hcode, hfree, hlegal, hsettled⟩ := h
  refine ⟨hlocals, is, free, hmeant, hcode, hfree, ?_, hsettled⟩
  intro i hi
  exact (hlegal i hi).mono ⟨hconstants, hglobals, Nat.le_refl _, Nat.le_refl _, fun h => h⟩

/-- A constant is a literal or a function. -/
def Value.Pooled (constants : Array Value) (globals : Nat) (v : Value) : Prop :=
  v.Literal ∨ ∃ f, v = .function (some f) ∧ f.Formed constants globals

theorem Value.Pooled.mono {constants constants' : Array Value} {globals globals' : Nat} {v : Value}
    (h : v.Pooled constants globals) (hconstants : constants.toList <+: constants'.toList)
    (hglobals : globals ≤ globals') : v.Pooled constants' globals' := by
  obtain h | ⟨f, rfl, hf⟩ := h
  · exact .inl h
  · exact .inr ⟨f, rfl, hf.mono hconstants hglobals⟩

/-- A function among the constants is in good order. -/
theorem Value.Pooled.formed {constants : Array Value} {globals : Nat} {f : Function}
    (h : (Value.function (some f)).Pooled constants globals) : f.Formed constants globals := by
  obtain h | ⟨g, heq, hg⟩ := h
  · exact h.elim
  · obtain rfl := Option.some.inj (Value.function.inj heq)
    exact hg

namespace Context

variable {σ τ σ' : Context} {name : Bytes}

/-- What the instructions of the current function, or of the main code, are checked against. -/
def limits (σ : Context) : Limits where
  constants := σ.constants
  globals := globalCount σ.tables
  locals := if σ.table.enclosed then σ.table.definitions else 0
  free := σ.table.free.size
  inside := σ.table.enclosed

/-- Names and constants as a compilation has them. -/
structure Ok (σ : Context) : Prop where
  chain : Chain σ.tables
  globals : globalCount σ.tables ≤ maxOperand 2 + 1
  pool : ∀ v ∈ σ.constants, v.Pooled σ.constants (globalCount σ.tables)

/-- More names and constants. -/
structure Grows (σ σ' : Context) : Prop where
  constants : σ.constants.toList <+: σ'.constants.toList
  tables : List.Forall₂ Table.Le σ.tables σ'.tables

theorem Grows.refl (σ : Context) : σ.Grows σ :=
  ⟨List.prefix_rfl, List.forall₂_same.2 fun t _ => .refl t⟩

theorem forall₂_le_trans {ts us vs : List Table} (h : List.Forall₂ Table.Le ts us)
    (h' : List.Forall₂ Table.Le us vs) : List.Forall₂ Table.Le ts vs := by
  induction h generalizing vs with
  | nil => exact h'
  | cons hle _ ih =>
    cases h' with
    | cons hle' hrest' => exact .cons (hle.trans hle') (ih hrest')

theorem Grows.trans (h : σ.Grows τ) (h' : τ.Grows σ') : σ.Grows σ' :=
  ⟨h.constants.trans h'.constants, forall₂_le_trans h.tables h'.tables⟩

theorem Grows.table (h : σ.Grows σ') : σ.table.Le σ'.table := by
  cases h.tables with
  | cons hle _ => exact hle

theorem Grows.limits (h : σ.Grows σ') : σ.limits.Le σ'.limits := by
  obtain ⟨henclosed, hdefs, -, -⟩ := h.table
  refine ⟨h.constants, globalCount_mono h.tables, ?_, h.table.size_free, ?_⟩
  · simp only [Context.limits, henclosed]
    split
    · exact hdefs
    · exact Nat.le_refl 0
  · simp only [Context.limits, henclosed]
    exact id

theorem Grows.pooled (h : σ.Grows σ') {v : Value}
    (hv : v.Pooled σ.constants (globalCount σ.tables)) :
    v.Pooled σ'.constants (globalCount σ'.tables) :=
  hv.mono h.constants (globalCount_mono h.tables)

/-- The value of a place that makes sense may be pushed. -/
theorem legal_load (h : Chain σ.tables) {p : Place} (hp : σ.table.Valid p) :
    p.load.Legal σ.limits := by
  cases p with
  | global k =>
    refine .global (.inl rfl) ?_
    simp only [limits, tables, h.eq_nil_of_not_enclosed hp.1]
    exact hp.2
  | «local» k =>
    refine .local (.inl rfl) ?_
    simp only [limits, hp.1]
    exact hp.2
  | builtin slot =>
    obtain ⟨-, b, rfl⟩ := hp
    exact .builtin b
  | free i => exact .free hp.2
  | self => exact .self hp

/-- What a name was resolved to may be pushed. -/
theorem legal_load_resolved (h : Chain σ.tables) {p : Place} (hp : Resolved name p σ.tables) :
    p.load.Legal σ.limits := by
  simp only [Resolved, tables] at hp
  split at hp
  · next hshared =>
    cases p with
    | global k => exact .global (.inl rfl) (hp.1 k rfl)
    | builtin slot =>
      obtain ⟨b, rfl⟩ := hp.2 slot rfl
      exact .builtin b
    | «local» k => cases hshared
    | free i => cases hshared
    | self => cases hshared
  · exact legal_load h (h.sound.valid name p hp)

end Context

/-! ### Binding names and entering functions -/

namespace Context

variable {σ : Context} {name : Bytes}

theorem grows_define (σ : Context) (name : Bytes) : σ.Grows (σ.define name) :=
  ⟨List.prefix_rfl, .cons (σ.table.le_define name) (List.forall₂_same.2 fun t _ => .refl t)⟩

/-- A name that can be stored may be bound. -/
theorem Ok.define (h : σ.Ok) (hstorable : (σ.table.define name).1.Storable) :
    (σ.define name).Ok := by
  refine ⟨h.chain.define name, ?_, ?_⟩
  · have hglobals := h.globals
    cases houter : σ.outer with
    | nil =>
      have henclosed : σ.table.enclosed = false := by
        have hchain := h.chain
        rw [tables, houter] at hchain
        exact hchain.2.1
      simp only [tables, Context.define, houter, globalCount] at hglobals ⊢
      obtain ⟨k, hk, ⟨-, hdefs⟩ | ⟨rfl, hdefs⟩⟩ := σ.table.define_slot name
      · rwa [hdefs]
      · rw [hk] at hstorable
        simp only [Table.slot, henclosed] at hstorable
        rw [hdefs]
        exact Nat.succ_le_succ hstorable
    | cons t ts =>
      simp only [tables, Context.define, houter, globalCount] at hglobals ⊢
      exact hglobals
  · intro v hv
    exact (grows_define σ name).pooled (h.pool v hv)

/-- A name that was bound may be stored to. -/
theorem legal_store (h : σ.Ok) (name : Bytes) :
    (σ.table.define name).1.store.Legal (σ.define name).limits := by
  obtain ⟨k, hk, -⟩ := σ.table.define_slot name
  have hlt : k < (σ.table.define name).2.definitions := by
    have hvalid := (h.chain.sound.define name).valid name (σ.table.define name).1 (by
      rw [Table.define_find?, if_pos rfl])
    rw [hk, ← Table.slot_congr (σ.table.define_enclosed name)] at hvalid
    exact Table.valid_slot.1 hvalid
  rw [hk]
  cases henclosed : σ.table.enclosed with
  | true =>
    simp only [Table.slot, henclosed]
    refine .local (.inr rfl) ?_
    simpa [limits, Context.define, henclosed, Place.index] using hlt
  | false =>
    simp only [Table.slot, henclosed]
    refine .global (.inr rfl) ?_
    simpa [limits, tables, Context.define, h.chain.eq_nil_of_not_enclosed henclosed, globalCount]
      using hlt

theorem Ok.push (h : σ.Ok) {v : Value} (hv : v.Pooled σ.constants (globalCount σ.tables)) :
    (σ.push v).Ok ∧ σ.Grows (σ.push v) := by
  have hgrow : σ.Grows (σ.push v) :=
    ⟨by simp [Context.push], List.forall₂_same.2 fun t _ => .refl t⟩
  refine ⟨⟨h.chain, h.globals, ?_⟩, hgrow⟩
  intro w hw
  rw [Context.push, Array.mem_push] at hw
  obtain hw | rfl := hw
  · exact hgrow.pooled (h.pool w hw)
  · exact hgrow.pooled hv

theorem enter_table_sound (params : List Ident) {t : Table} (ht : t.Sound)
    (henclosed : t.enclosed = true) (hfree : t.free = #[]) :
    let u := params.foldl (fun t p => (t.define p.name).2) t
    u.Sound ∧ u.enclosed = true ∧ u.free = #[] := by
  induction params generalizing t with
  | nil => exact ⟨ht, henclosed, hfree⟩
  | cons p params ih => exact ih (ht.define p.name) (by simpa using henclosed) (by simpa using hfree)

/-- The body of a function may be compiled in any context. -/
theorem Ok.enter (h : σ.Ok) (name : Bytes) (params : List Ident) : (σ.enter name params).Ok := by
  have htable : Chain (σ.enter name params).tables := by
    have hstart : ∀ t, (t = if name = [] then Table.empty true
        else ((Table.empty true).defineSelf name).2) →
        t.Sound ∧ t.enclosed = true ∧ t.free = #[] := by
      rintro t rfl
      split
      · exact ⟨Table.sound_empty true, rfl, rfl⟩
      · exact ⟨Table.sound_defineSelf_empty name, rfl, rfl⟩
    obtain ⟨hsound, henclosed, hfree⟩ := hstart _ rfl
    obtain ⟨hsound, henclosed, hfree⟩ := enter_table_sound params hsound henclosed hfree
    exact h.chain.cons hsound henclosed hfree
  exact ⟨htable, h.globals, h.pool⟩

end Context

/-! ### The scheme -/

namespace Instr

theorem mem_keepValue {s : List Instr} {i : Instr} (h : i ∈ keepValue s) : i ∈ s ∨ i = ⟨.null, []⟩ := by
  unfold keepValue at h
  split at h
  · exact .inr (List.mem_singleton.1 h)
  · split at h
    · exact .inl (List.dropLast_subset s h)
    · split at h
      · exact .inl h
      · simpa using h

theorem mem_close {s : List Instr} {i : Instr} (h : i ∈ close s) :
    i ∈ s ∨ i = ⟨.returnValue, []⟩ ∨ i = ⟨.ret, []⟩ := by
  unfold close at h
  split at h
  · exact .inr (.inr (List.mem_singleton.1 h))
  · split at h
    · rcases List.mem_append.1 h with h | h
      · exact .inl (List.dropLast_subset s h)
      · exact .inr (.inl (List.mem_singleton.1 h))
    · split at h
      · exact .inl h
      · rcases List.mem_append.1 h with h | h
        · exact .inl h
        · exact .inr (.inr (List.mem_singleton.1 h))

end Instr

/-- Whatever is emitted in good order leaves good order and legal instructions. -/
def Emission.Lawful (p : Emission) : Prop :=
  ∀ offset σ seg σ', p offset σ seg σ' → σ.Ok →
    σ'.Ok ∧ σ.Grows σ' ∧ ∀ i ∈ seg, i.Legal σ'.limits

namespace Emission

variable {p q r : Emission}

theorem Lawful.seq (hp : p.Lawful) (hq : q.Lawful) : (p.seq q).Lawful := by
  rintro offset σ _ σ' ⟨s, τ, t, hs, ht, rfl⟩ hσ
  obtain ⟨hτ, hgrow, hlegal⟩ := hp _ _ _ _ hs hσ
  obtain ⟨hσ', hgrow', hlegal'⟩ := hq _ _ _ _ ht hτ
  refine ⟨hσ', hgrow.trans hgrow', ?_⟩
  intro i hi
  rcases List.mem_append.1 hi with hi | hi
  · exact (hlegal i hi).mono hgrow'.limits
  · exact hlegal' i hi

theorem lawful_nothing : nothing.Lawful := by
  rintro offset σ _ σ' ⟨rfl, rfl⟩ hσ
  exact ⟨hσ, .refl _, by simp⟩

theorem Lawful.all {ps : List Emission} (h : ∀ p ∈ ps, p.Lawful) : (Emission.all ps).Lawful := by
  induction ps with
  | nil => exact lawful_nothing
  | cons p ps ih =>
    rw [List.forall_mem_cons] at h
    exact h.1.seq (ih h.2)

theorem lawful_one {i : Instr} (h : ∀ l, i.Legal l) : (one i).Lawful := by
  rintro offset σ _ σ' ⟨rfl, rfl⟩ hσ
  exact ⟨hσ, .refl _, by simpa using h _⟩

theorem Lawful.given {P : Prop} (h : P → p.Lawful) : (Emission.given P p).Lawful :=
  fun _ _ _ _ hp => h hp.1 _ _ _ _ hp.2

theorem lawful_operator {op : Option Opcode}
    (h : ∀ code ∈ op, code.widths = [] ∧ code ≠ .currentClosure) : (operator op).Lawful := by
  rintro offset σ _ σ' ⟨code, rfl, rfl, rfl⟩ hσ
  obtain ⟨hwidths, hself⟩ := h code rfl
  exact ⟨hσ, .refl _, by simpa using .plain hwidths hself⟩

theorem lawful_const {v : Value} (hv : v.Literal) : (const v).Lawful := by
  rintro offset σ _ σ' ⟨hsize, rfl, rfl⟩ hσ
  obtain ⟨hok, hgrow⟩ := hσ.push (.inl hv)
  refine ⟨hok, hgrow, ?_⟩
  simpa using .const hsize (by simp [Context.limits, Context.push]) hv

theorem lawful_ident (name : Bytes) : (ident name).Lawful := by
  rintro offset σ _ σ' ⟨place, hres, rfl, hconstants⟩ hσ
  obtain ⟨hchain, hcaptures, hresolved⟩ := resolve_spec hσ.chain hres
  have hgrow : σ.Grows σ' := by
    refine ⟨by simp [hconstants], hcaptures.imp ?_⟩
    intro t u h
    exact h.le
  have hcount : globalCount σ'.tables = globalCount σ.tables := globalCount_captures hcaptures
  refine ⟨⟨hchain, hcount ▸ hσ.globals, ?_⟩, hgrow, ?_⟩
  · intro v hv
    rw [hconstants] at hv
    exact hgrow.pooled (hσ.pool v hv)
  · simpa using Context.legal_load_resolved hchain hresolved

theorem Lawful.branch (hp : p.Lawful) : (Emission.branch p).Lawful := by
  rintro offset σ _ σ' ⟨s, hs, rfl⟩ hσ
  obtain ⟨hok, hgrow, hlegal⟩ := hp _ _ _ _ hs hσ
  refine ⟨hok, hgrow, ?_⟩
  intro i hi
  obtain hi | rfl := Instr.mem_keepValue hi
  · exact hlegal i hi
  · exact .plain rfl (by decide)

theorem Lawful.cond (hp : p.Lawful) (hq : q.Lawful) (hr : r.Lawful) :
    (Emission.cond p q r).Lawful := by
  rintro offset σ _ σ' ⟨s, σ₁, t, σ₂, u, yesAt, elseAt, endAt, hs, ht, hu, -, -, hend, hsize, rfl⟩ hσ
  obtain ⟨hok₁, hgrow₁, hlegal₁⟩ := hp _ _ _ _ hs hσ
  obtain ⟨hok₂, hgrow₂, hlegal₂⟩ := hq _ _ _ _ ht hok₁
  obtain ⟨hok₃, hgrow₃, hlegal₃⟩ := hr _ _ _ _ hu hok₂
  refine ⟨hok₃, (hgrow₁.trans hgrow₂).trans hgrow₃, ?_⟩
  intro i hi
  simp only [List.mem_append, List.mem_cons] at hi
  obtain hi | rfl | hi | rfl | hi := hi
  · exact (hlegal₁ i hi).mono (hgrow₂.trans hgrow₃).limits
  · exact .jump (.inr rfl) (by omega)
  · exact (hlegal₂ i hi).mono hgrow₃.limits
  · exact .jump (.inl rfl) hsize
  · exact hlegal₃ i hi

theorem Lawful.bind (hp : p.Lawful) (name : Bytes) : (Emission.bind name p).Lawful := by
  rintro offset σ _ σ' ⟨hstorable, s, hs, rfl⟩ hσ
  obtain ⟨hok, hgrow, hlegal⟩ := hp _ _ _ _ hs (hσ.define hstorable)
  refine ⟨hok, (σ.grows_define name).trans hgrow, ?_⟩
  intro i hi
  rcases List.mem_append.1 hi with hi | hi
  · exact hlegal i hi
  · obtain rfl := List.mem_singleton.1 hi
    exact (Context.legal_store hσ name).mono hgrow.limits

/-- The code of a function has legal instructions, whose operands fit. -/
theorem legal_close {τ : Context} {s : List Instr} (hok : τ.Ok) (hinside : τ.table.enclosed = true)
    (hlegal : ∀ i ∈ s, i.Legal τ.limits) (hlocals : τ.table.definitions ≤ maxOperand 1)
    (hfree : τ.table.free.size ≤ maxOperand 1) :
    ∀ i ∈ Instr.close s, i.Legal ⟨τ.constants, globalCount τ.tables, τ.table.definitions,
      τ.table.free.size, true⟩ ∧ i.Fits := by
  have hlimits : τ.limits =
      ⟨τ.constants, globalCount τ.tables, τ.table.definitions, τ.table.free.size, true⟩ := by
    simp [Context.limits, hinside]
  intro i hi
  have hi' : i.Legal τ.limits := by
    obtain hi | rfl | rfl := Instr.mem_close hi
    · exact hlegal i hi
    · exact .plain rfl (by decide)
    · exact .plain rfl (by decide)
  rw [hlimits] at hi'
  exact ⟨hi', hi'.fits hok.globals hlocals hfree⟩

/-- The body of a literal becomes a function in good order. -/
theorem formed_of_body {σ τ : Context} {name : Bytes} {params : List Ident} {body : Block}
    {s : List Instr} (hs : body.Emits 0 (σ.enter name params) s τ) (hok : τ.Ok)
    (hinside : τ.table.enclosed = true) (hlegal : ∀ i ∈ s, i.Legal τ.limits)
    (hsettles : body.Emits.Settles) (hlocals : τ.table.definitions ≤ maxOperand 1)
    (hfree : τ.table.free.size ≤ maxOperand 1) (id : Nat) :
    let f : Function := ⟨id, name, .ofInstrs (Instr.close s), τ.table.definitions, params.length⟩
    f.Formed τ.constants (globalCount τ.tables) ∧ f.code.FreeBelow τ.table.free.size := by
  have hclose := legal_close hok hinside hlegal hlocals hfree
  refine ⟨⟨hlocals, _, _, ⟨σ, params, body, s, τ, hs, rfl, rfl, rfl⟩, rfl, hfree,
    fun i hi => (hclose i hi).1, ?_⟩,
    Code.freeBelow_ofInstrs (fun i hi => (hclose i hi).2) fun i hi => (hclose i hi).1⟩
  exact (hsettles _ _ _ _ hs 0).close

theorem lawful_function {body : Block} (name : Bytes) (params : List Ident)
    (hbody : body.Emits.Lawful) (hsettles : body.Emits.Settles) :
    (function name params body.Emits).Lawful := by
  rintro offset σ _ σ' ⟨s, τ, table, outer, hs, houter, hlocals, hfree, hsize, rfl, rfl⟩ hσ
  obtain ⟨hok, hgrow, hlegal⟩ := hbody _ _ _ _ hs (hσ.enter name params)
  have htables : List.Forall₂ Table.Le σ.tables (table :: outer) := by
    have := hgrow.tables
    rw [Context.tables, Context.tables, houter] at this
    cases this with
    | cons _ hrest => exact hrest
  have hchain : Chain (τ.table :: table :: outer) := by
    have := hok.chain
    rwa [Context.tables, houter] at this
  have hcount : globalCount τ.tables = globalCount (table :: outer) := by
    rw [Context.tables, houter]
    rfl
  obtain ⟨hformed, hbelow⟩ := formed_of_body hs hok hchain.1.2.1 hlegal hsettles hlocals hfree
    τ.constants.size
  have hout : (⟨τ.constants, table, outer⟩ : Context).Ok :=
    ⟨hchain.tail, hcount ▸ hok.globals, hcount ▸ hok.pool⟩
  have hgrowOut : σ.Grows ⟨τ.constants, table, outer⟩ := ⟨hgrow.constants, htables⟩
  obtain ⟨hok', hgrow'⟩ := hout.push (.inr ⟨_, rfl, hcount ▸ hformed⟩)
  refine ⟨hok', hgrowOut.trans hgrow', ?_⟩
  intro i hi
  rcases List.mem_append.1 hi with hi | hi
  · obtain ⟨symbol, hsymbol, rfl⟩ := List.mem_map.1 hi
    obtain ⟨hfind, -⟩ := hchain.1.2.2 symbol (by simpa using hsymbol)
    exact (Context.legal_load hout.chain (hchain.tail.sound.valid _ _ hfind)).mono hgrow'.limits
  · obtain rfl := List.mem_singleton.1 hi
    exact .closure hsize hfree (by simp [Context.limits]) hbelow

end Emission

theorem UnaryOp.opcode?_plain (op : UnaryOp) :
    ∀ code ∈ op.opcode?, code.widths = [] ∧ code ≠ .currentClosure := by
  intro code hcode
  cases op <;> cases hcode <;> exact ⟨rfl, by decide⟩

theorem BinaryOp.opcode?_plain (op : BinaryOp) :
    ∀ code ∈ op.opcode?, code.widths = [] ∧ code ≠ .currentClosure := by
  intro code hcode
  cases op <;> cases hcode <;> exact ⟨rfl, by decide⟩

theorem block_lawful {b : Block} (h : ∀ s ∈ b.body, s.Emits.Lawful) : b.Emits.Lawful := by
  rw [Block.emits_eq]
  apply Emission.Lawful.all
  simpa using h

theorem else_lawful {no : Option Block} (h : ∀ s ∈ Block.elseBody no, s.Emits.Lawful) :
    (emitsElse no).Lawful := by
  cases no with
  | none => exact Emission.lawful_one fun l => .plain rfl (by decide)
  | some b => exact (block_lawful h).branch

theorem items_lawful {items : List Expr} (h : ∀ e ∈ items, e.Emits.Lawful) :
    (Emission.all (emitsItems items)).Lawful := by
  rw [emitsItems_eq]
  apply Emission.Lawful.all
  simpa using h

theorem pairs_lawful {pairs : List (Expr × Expr)}
    (h : ∀ p ∈ pairs, p.1.Emits.Lawful ∧ p.2.Emits.Lawful) :
    (Emission.all (pairs.map fun p => p.1.Emits.seq p.2.Emits)).Lawful := by
  apply Emission.Lawful.all
  intro q hq
  obtain ⟨p, hp, rfl⟩ := List.mem_map.1 hq
  exact (h p hp).1.seq (h p hp).2

theorem block_settles (b : Block) : b.Emits.Settles := by
  rw [Block.emits_eq]
  exact body_settles fun s _ => tree_balanced.stmt_all s

/-- All that the scheme emits is legal. -/
theorem tree_lawful : TreeSteps (fun e => e.Emits.Lawful) (fun s => s.Emits.Lawful) where
  ident id := Emission.lawful_ident id.name
  int loc literal value := Emission.lawful_const trivial
  string loc value := Emission.lawful_const trivial
  bool loc value := by
    cases value <;> exact Emission.lawful_one fun l => .plain rfl (by decide)
  unary loc op right hright := hright.seq (Emission.lawful_operator op.opcode?_plain)
  binary loc op left right hleft hright := by
    rw [Expr.Emits]
    split
    · exact hright.seq (hleft.seq (Emission.lawful_operator op.opcode?_plain))
    · exact hleft.seq (hright.seq (Emission.lawful_operator op.opcode?_plain))
  cond loc test yes no htest hyes hno := by
    rw [Expr.Emits]
    exact htest.cond (block_lawful hyes).branch (else_lawful hno)
  function loc name params body hbody := by
    rw [Expr.Emits]
    exact .given fun _ => Emission.lawful_function name params (block_lawful hbody) (block_settles body)
  call loc callee args hcallee hargs := by
    rw [Expr.Emits]
    exact .given fun h =>
      hcallee.seq ((items_lawful hargs).seq (Emission.lawful_one fun l => .call h))
  array loc items hitems := by
    rw [Expr.Emits]
    exact .given fun h => (items_lawful hitems).seq (Emission.lawful_one fun l => .count (.inl rfl) h)
  hash loc pairs hpairs := by
    rw [Expr.Emits, emitsPairs_inOrder]
    exact .given fun h => .seq (pairs_lawful fun p hp => hpairs p (Expr.mem_inOrder.1 hp))
      (Emission.lawful_one fun l => .count (.inr rfl) h)
  index loc left index hleft hindex :=
    hleft.seq (hindex.seq (Emission.lawful_one fun l => .plain rfl (by decide)))
  missing := by
    intro _ _ _ _ h
    cases h
  bind loc id value hvalue := hvalue.bind id.name
  retNone loc := Emission.lawful_one fun l => .plain rfl (by decide)
  ret loc value hvalue := hvalue.seq (Emission.lawful_one fun l => .plain rfl (by decide))
  expr loc value hvalue := hvalue.seq (Emission.lawful_one fun l => .plain rfl (by decide))
  block body hbody := block_lawful hbody
  missingStmt := by
    intro _ _ _ _ h
    cases h

end StackScript
