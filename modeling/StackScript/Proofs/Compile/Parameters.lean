import StackScript.Proofs.Compile.Realization
import StackScript.Proofs.Compile.Stores
import StackScript.Proofs.Machine.Effect
import StackScript.Text.Lower

/-!
# Parameters and arguments

A call leaves the arguments in their positions, and the slots of the parameters
belong to their names. A name that is given twice has one slot, so the
parameters after it read the arguments of earlier positions. A parameter reads
the argument of its position if all names up to it are different, and only then.

## Main definitions

* `paramSlots`: the names of parameters in the order of their slots.
* `Function.Receives`: reading a slot when a call begins.

## Main results

* `getElem?_paramSlots_iff`: a parameter has the slot of its position if the names up to it differ.
* `Compile.function_receives`: what a parameter's name reads when the body of a function starts.
-/

namespace StackScript

/-! ### Slots -/

theorem length_foldl_addName_le (names xs : List Bytes) :
    (xs.foldl addName names).length ≤ names.length + xs.length := by
  induction xs generalizing names with
  | nil => exact Nat.le_refl _
  | cons x xs ih =>
    have hadd : (addName names x).length ≤ names.length + 1 := by
      by_cases hx : x ∈ names
      · rw [addName_of_mem hx]
        exact Nat.le_succ _
      · rw [addName_of_not_mem hx, List.length_append]
        exact Nat.le_refl _
    have hrest := ih (addName names x)
    rw [List.foldl_cons, List.length_cons]
    omega

theorem nodup_foldl_addName {names : List Bytes} (h : names.Nodup) (xs : List Bytes) :
    (xs.foldl addName names).Nodup := by
  induction xs generalizing names with
  | nil => exact h
  | cons x xs ih => exact ih (nodup_addName h x)

/-- If no name was there before it was added, the names are all different. -/
theorem nodup_of_length_foldl_addName {names xs : List Bytes} (h : names.Nodup)
    (hlength : names.length + xs.length ≤ (xs.foldl addName names).length) :
    (names ++ xs).Nodup := by
  induction xs generalizing names with
  | nil => rwa [List.append_nil]
  | cons x xs ih =>
    rw [List.foldl_cons, List.length_cons] at hlength
    by_cases hx : x ∈ names
    · have hle := length_foldl_addName_le names xs
      rw [addName_of_mem hx] at hlength
      omega
    · have hadd := nodup_addName h x
      rw [addName_of_not_mem hx] at hadd hlength
      have hrest := ih hadd (by rw [List.length_append, List.length_singleton]; omega)
      rwa [List.append_assoc, List.singleton_append] at hrest

theorem mem_foldl_addName (names : List Bytes) {xs : List Bytes} {x : Bytes} (hx : x ∈ xs) :
    x ∈ xs.foldl addName names := by
  induction xs generalizing names with
  | nil => cases hx
  | cons y xs ih =>
    obtain rfl | hx := List.mem_cons.1 hx
    · have hmem : x ∈ addName names x := by
        by_cases hx : x ∈ names
        · rwa [addName_of_mem hx]
        · simp [addName_of_not_mem hx]
      exact (prefix_foldl_addName _ xs).subset hmem
    · exact ih (addName names y) hx

/-- The names of parameters in the order of their slots: each where it is given first. -/
def paramSlots (params : List Ident) : List Bytes := (params.map (·.name)).foldl addName []

theorem length_paramSlots_le (params : List Ident) : (paramSlots params).length ≤ params.length := by
  have hnames := length_foldl_addName_le [] (params.map (·.name))
  rwa [List.length_nil, Nat.zero_add, List.length_map] at hnames

/-- A parameter has the slot of its position if the names up to it are different, and only then. -/
theorem getElem?_paramSlots_iff {params : List Ident} {i : Nat} {x : Bytes}
    (h : (params.map (·.name))[i]? = some x) :
    (paramSlots params)[i]? = some x ↔ ((params.map (·.name)).take (i + 1)).Nodup := by
  obtain ⟨hi, hget⟩ := List.getElem?_eq_some_iff.1 h
  unfold paramSlots
  generalize params.map (·.name) = names at *
  have hfirst : (names.take (i + 1)).foldl addName [] <+: names.foldl addName [] := by
    conv => rhs; rw [← List.take_append_drop (i + 1) names, List.foldl_append]
    exact prefix_foldl_addName _ _
  have hmem : x ∈ names.take (i + 1) := by
    rw [← hget]
    exact List.mem_take_iff_getElem.2 ⟨i, by omega, rfl⟩
  have hlength : (names.take (i + 1)).length = i + 1 := List.length_take_of_le hi
  obtain ⟨rest, hrest⟩ := hfirst
  constructor
  · intro hslot
    obtain ⟨j, hj⟩ := List.mem_iff_getElem?.1 (mem_foldl_addName [] hmem)
    have hlt : j < ((names.take (i + 1)).foldl addName []).length :=
      (List.getElem?_eq_some_iff.1 hj).1
    -- No name has two slots, so the one in front is that of position `i`.
    have hij : j = i := by
      have hnodup := nodup_foldl_addName List.nodup_nil names
      rw [← hrest] at hnodup hslot
      rw [← List.getElem?_append_left hlt] at hj
      have hlt' : j < ((names.take (i + 1)).foldl addName [] ++ rest).length := by
        rw [List.length_append]
        omega
      exact (List.getElem?_inj hlt' hnodup).1 (hj.trans hslot.symm)
    rw [← List.nil_append (names.take (i + 1))]
    apply nodup_of_length_foldl_addName List.nodup_nil
    rw [hlength, List.length_nil]
    omega
  · intro hnodup
    rw [foldl_addName_of_nodup (by simpa using hnodup), List.nil_append] at hrest
    rw [← hrest, List.getElem?_append_left (by omega),
      List.getElem?_take_of_lt (Nat.lt_succ_self i)]
    exact h

/-! ### Calls -/

/-- When a call of the function with `n` arguments begins, slot `k` reads the argument of position
`k`. The call fails only if there is no room for another frame or for the locals, and reading only
if there is no room for the value. -/
def Function.Receives [Casing] (f : Function) (n k : Nat) : Prop :=
  ∀ (m : Machine) (S : List Value) (id : Nat) (free args : List Value), m.Fits →
    m.live = S ++ .closure id (some f) free :: args → args.length = n →
    Exec.Sat (Exec.exec ⟨.call, [n]⟩) m
      (fun _ m' => m'.frame = ⟨f, id, free, 0, S.length + 1⟩ ∧ ∃ v, args[k]? = some v ∧
        Exec.Sat (Exec.exec ⟨.getLocal, [k]⟩) m' (fun _ m'' => m''.live = m'.live ++ [v])
          fun e _ => e = .stackOverflow ∧ m'.sp = m'.stack.size)
      fun e _ => e = .frameOverflow m.maxFrames ∧ m.maxFrames ≤ m.callers.size + 1 ∨
        e = .stackOverflow ∧ m.stack.size < S.length + 1 + f.locals

theorem Function.receives [Casing] {f : Function} {k : Nat} (hlocals : k < f.locals)
    (hparams : k < f.params) : f.Receives f.params k := by
  intro m S id free args hfits hlive hlength
  rw [← hlength] at hparams ⊢
  apply Exec.call_closure_sat hfits hlive
  · intro m' _ _ hagrees hfits' hlive'
    have hframe : m'.frame = ⟨f, id, free, 0, S.length + 1⟩ := hagrees.frame
    refine ⟨hframe, args[k], List.getElem?_eq_getElem hparams, ?_⟩
    have hread : Instr.source? m' ⟨.getLocal, [k]⟩ = some (.ok args[k]) := by
      have hslot : m'.live[m'.frame.base + k]? = (Exec.locals f args)[k]? := by
        rw [hlive', hframe, List.append_cons]
        exact List.getElem?_append_right (by simp) |>.trans (by simp)
      have hlocal : (Exec.locals f args)[k]? = some args[k] := by
        rw [Exec.locals, List.getElem?_take_of_lt hlocals, List.getElem?_append_left hparams,
          List.getElem?_eq_getElem hparams]
      change m'.live[m'.frame.base + k]?.map Except.ok = _
      rw [hslot, hlocal]
      rfl
    apply Exec.yields_sat hfits' (List.append_nil _).symm (.source hread)
    · intro v m'' hv _ _ hlive''
      obtain rfl := Except.ok.inj hv
      exact hlive''
    · intro e m'' he
      cases he
    · intro _ _ hfull
      exact ⟨rfl, Nat.le_antisymm hfits' hfull⟩
  · intro hne
    exact absurd hlength hne
  · intro _ hframes
    exact .inl ⟨rfl, hframes⟩
  · intro hfull
    exact .inr ⟨rfl, hfull⟩

/-! ### Function literals -/

namespace Compile

/-- A name that has a slot in the current table is read from there, and nothing else changes. -/
theorem ident_local {c : Compiler} {id : Ident} {k : Nat}
    (h : c.scope.table.find? id.name = some (.local k)) :
    (Expr.ident id).compile c = emit .getLocal [k] c := by
  have hresolve : resolve id.name c.context.tables = some (.local k, c.context.tables) := by
    rw [Context.tables, resolve, Compiler.context, h]
  have hlookup : lookup id.name c = .ok (some (.local k)) c := by
    obtain ⟨c', hc', -, -, -, -, hsame⟩ := Compiler.resolve_eq_some hresolve
    change EStateM.Result.ok (c.resolve id.name).1 (c.resolve id.name).2 = _
    rw [hc', hsame rfl]
  rw [Expr.compile]
  change EStateM.bind (lookup id.name) _ c = _
  rw [EStateM.bind, hlookup]
  rfl

/-- When the body of a literal starts, its table has the slots of the parameters. -/
theorem enter_match {name : Bytes} {params : List Ident} {c c' : Compiler}
    (h : enter name params c = .ok () c') :
    (⟨name, paramSlots params⟩ : Level).Match c'.scope.table := by
  obtain ⟨hcontext, -, -⟩ := enter_ok h
  have htable : c'.scope.table = (c.context.enter name params).table :=
    congrArg Context.table hcontext
  rw [htable]
  exact (Level.match_start name).foldl_define params

/-- The code between the braces gives out slots but takes none back. -/
theorem definitions_le {body : Block} {c c' : Compiler} (h : body.compile c = .ok () c') :
    c.scope.table.definitions ≤ c'.scope.table.definitions := by
  obtain ⟨s, hs, -⟩ := block_realizes (fun s _ => tree_realizes.stmt_all s) c c' h
  obtain ⟨hle, -⟩ := block_stores (fun s _ => tree_stores.stmt_all s) _ _ _ _ hs
  cases hle with
  | cons htable _ => exact htable.definitions

/-- A literal becomes a function whose code is that of its body, and a closure is made of it. -/
theorem function_ok {loc : Loc} {name : Bytes} {params : List Ident} {body : Block}
    {c c' : Compiler} (h : (Expr.function loc name params body).compile c = .ok () c') :
    ∃ (f : Function) (start stop : Compiler) (captured : Nat),
      enter name params c = .ok () start ∧ body.compile start = .ok () stop ∧
      f.code = stop.scope.draft.close.code ∧ f.locals = stop.scope.table.definitions ∧
      f.params = params.length ∧ c'.constants[f.id]? = some (.function (some f)) ∧
      c'.scope.draft.instrs.back? = some ⟨.closure, [f.id, captured]⟩ := by
  rw [Expr.compile] at h
  obtain ⟨_, _, hcheck, hrest⟩ := bind_ok h
  obtain ⟨-, rfl⟩ := check_ok hcheck
  obtain ⟨_, start, henter, hrest⟩ := bind_ok hrest
  obtain ⟨_, stop, hbody, hclose⟩ := bind_ok hrest
  obtain ⟨-, hempty, houter⟩ := enter_ok henter
  obtain ⟨s, -, hdraft, houter'⟩ :=
    block_realizes (fun s _ => tree_realizes.stmt_all s) start stop hbody
  rw [hempty] at hdraft
  rw [houter, List.map_cons] at houter'
  obtain ⟨scope, outer, hstop, -, -⟩ := List.map_eq_cons_iff.1 houter'
  obtain ⟨seg, -, -, -, rfl, hcontext, hdraft', -⟩ := closeFunction_ok hdraft hstop hclose
  have hcode : stop.scope.draft.close.code = .ofInstrs (Instr.close s) := by
    rw [hdraft, Draft.close_empty_append]
    simp [Draft.code, Draft.append, Draft.empty]
  refine ⟨⟨stop.constants.size, name, .ofInstrs (Instr.close s), stop.scope.table.definitions,
    params.length⟩, start, stop, stop.scope.table.free.size, henter, hbody, hcode.symm, rfl, rfl,
    ?_, ?_⟩
  · change c'.context.constants[stop.constants.size]? = _
    rw [hcontext]
    simp
  · rw [hdraft']
    simp [Draft.append]

/-- When the body of a function starts, the name of a parameter reads the argument at the position of
its slot. Names have slots in the order in which they are given first, so this is the argument at the
position of the parameter if all names up to it are different, and only then. -/
theorem function_receives [Casing] {loc : Loc} {name : Bytes} {params : List Ident} {body : Block}
    {c c' : Compiler} (h : (Expr.function loc name params body).compile c = .ok () c') :
    ∃ (f : Function) (start stop : Compiler) (captured : Nat),
      c'.constants[f.id]? = some (.function (some f)) ∧
      c'.scope.draft.instrs.back? = some ⟨.closure, [f.id, captured]⟩ ∧
      enter name params c = .ok () start ∧ body.compile start = .ok () stop ∧
      f.code = stop.scope.draft.close.code ∧
      (∀ id : Ident, id.name ∈ params.map (·.name) →
        ∃ k, (paramSlots params)[k]? = some id.name ∧
          (Expr.ident id).compile start = emit .getLocal [k] start ∧ f.Receives params.length k) ∧
      ∀ i x, (params.map (·.name))[i]? = some x →
        ((paramSlots params)[i]? = some x ↔ ((params.map (·.name)).take (i + 1)).Nodup) := by
  obtain ⟨f, start, stop, captured, henter, hbody, hcode, hlocals, hparams, hconstant, hclosure⟩ :=
    function_ok h
  have hmatch := enter_match henter
  refine ⟨f, start, stop, captured, hconstant, hclosure, henter, hbody, hcode, ?_, ?_⟩
  · intro id hid
    obtain ⟨k, hk⟩ := List.mem_iff_getElem?.1 (mem_foldl_addName [] hid)
    refine ⟨k, hk, ident_local ((hmatch.slots id.name k).2 hk), ?_⟩
    have hlt : k < (paramSlots params).length := (List.getElem?_eq_some_iff.1 hk).1
    have hcount : start.scope.table.definitions = (paramSlots params).length := hmatch.lists.count
    have hle := definitions_le hbody
    have hfew := length_paramSlots_le params
    rw [← hparams]
    exact f.receives (by omega) (by omega)
  · intro i x hx
    exact getElem?_paramSlots_iff hx

theorem check_of_le {pos : Pos} {n width : Nat} {what : Quantity} {c : Compiler}
    (h : n ≤ maxOperand width) : check pos n width what c = .ok () c := by
  rw [check, if_pos h]
  rfl

/-- A function that captures nothing can be completed if its locals and the constants are few. -/
theorem exists_closeFunction (pos : Pos) (name : Bytes) (params : Nat) {c : Compiler} {scope : Scope}
    {outer : List Scope} (houter : c.outer = scope :: outer)
    (hlocals : c.scope.table.definitions ≤ maxOperand 1) (hfree : c.scope.table.free = #[])
    (hconstants : c.constants.size ≤ maxOperand 2) :
    ∃ c', closeFunction pos name params c = .ok () c' := by
  have hdraft : modifyDraft Draft.close c = .ok () (c.modifyDraft Draft.close) := rfl
  obtain ⟨c₁, hleft, -, -, hpool⟩ :=
    exists_leave ((c.outer_modifyDraft Draft.close).trans houter)
  have hnumber : c₁.constants.size ≤ maxOperand 2 := by rwa [hpool]
  have hconstant (make : Nat → Value) : ∃ c₂, constant pos make c₁ = .ok c₁.constants.size c₂ :=
    ⟨_, (bind_of_ok rfl).trans ((bind_of_ok rfl).trans (bind_of_ok (check_of_le hnumber)))⟩
  have hget (d : Compiler) : (get : Compile Compiler) d = .ok d d := rfl
  have hload : loadAll c.scope.table.free.toList c₁ = .ok () c₁ := by
    rw [hfree]
    rfl
  have hfew : c.scope.table.free.toList.length ≤ maxOperand 1 := by
    rw [hfree]
    exact Nat.zero_le _
  rw [closeFunction, bind_of_ok hdraft, bind_of_ok (hget _), Compiler.scope_modifyDraft]
  dsimp only
  rw [bind_of_ok (check_of_le hlocals), bind_of_ok (check_of_le hfew), bind_of_ok hleft,
    bind_of_ok hload]
  obtain ⟨c₂, hc₂⟩ := hconstant fun id =>
    .function (some ⟨id, name, c.scope.draft.close.code, c.scope.table.definitions, params⟩)
  rw [bind_of_ok hc₂]
  exact ⟨_, rfl⟩

/-- A function that returns one of its parameters can be compiled. -/
theorem exists_function_ident (loc : Loc) (params : List Ident) (id : Ident) {c : Compiler}
    (hid : id.name ∈ params.map (·.name)) (hparams : params.length ≤ maxOperand 1)
    (hconstants : c.constants.size ≤ maxOperand 2) :
    ∃ c', (Expr.function loc [] params (.mk loc [.expr loc (.ident id)])).compile c = .ok () c' := by
  obtain ⟨start, henter⟩ := exists_enter [] params c
  obtain ⟨hcontext, -, hinside⟩ := enter_ok henter
  have hmatch := enter_match henter
  obtain ⟨k, hk⟩ := List.mem_iff_getElem?.1 (mem_foldl_addName [] hid)
  have hident : (Expr.ident id).compile start = emit .getLocal [k] start :=
    ident_local ((hmatch.slots id.name k).2 hk)
  obtain ⟨stop, hbody, hpool, htable, houter⟩ : ∃ stop,
      (Block.mk loc [.expr loc (.ident id)]).compile start = .ok () stop ∧
      stop.constants = c.constants ∧ stop.scope.table = start.scope.table ∧
      stop.outer = c.scope :: c.outer := by
    rw [Block.compile, compileBody, compileBody, Stmt.compile]
    exact ⟨_, bind_of_ok (bind_of_ok hident), congrArg Context.constants hcontext, rfl, hinside⟩
  have hlocals : stop.scope.table.definitions ≤ maxOperand 1 := by
    rw [htable, hmatch.lists.count]
    exact Nat.le_trans (length_paramSlots_le params) hparams
  have hfree : stop.scope.table.free = #[] := by
    have hstart : start.scope.table = (c.context.enter [] params).table :=
      congrArg Context.table hcontext
    rw [htable, hstart]
    exact Table.foldl_define_free params (.empty true)
  rw [Expr.compile, bind_of_ok (check_of_le hparams), bind_of_ok henter, bind_of_ok hbody]
  exact exists_closeFunction loc.pos [] params.length houter hlocals hfree (by rwa [hpool])

/-- Of the parameters `a`, `a` and `b`, the first name reads the first argument, which the second one
was to replace, and the last name reads the second argument. -/
theorem function_receives_repeated :
    ∃ (f : Function) (start c' : Compiler),
      (Expr.function .none [] [⟨.none, "a"⟩, ⟨.none, "a"⟩, ⟨.none, "b"⟩]
        (.mk .none [.expr .none (.ident ⟨.none, "b"⟩)])).compile (.new (.empty false) #[]) =
        .ok () c' ∧
      c'.constants[f.id]? = some (.function (some f)) ∧
      (Expr.ident ⟨.none, "a"⟩).compile start = emit .getLocal [0] start ∧ f.Receives 3 0 ∧
      (Expr.ident ⟨.none, "b"⟩).compile start = emit .getLocal [1] start ∧ f.Receives 3 1 := by
  have hslots : paramSlots [⟨.none, "a"⟩, ⟨.none, "a"⟩, ⟨.none, "b"⟩] = ["a", "b"] := by
    decide +kernel
  have hnodup : (["a", "b"] : List Bytes).Nodup := by decide +kernel
  obtain ⟨c', hc'⟩ := exists_function_ident .none [⟨.none, "a"⟩, ⟨.none, "a"⟩, ⟨.none, "b"⟩]
    ⟨.none, "b"⟩ (c := .new (.empty false) #[]) (by decide +kernel) (by decide) (by decide)
  obtain ⟨f, start, -, -, hf, -, -, -, -, hreads, -⟩ := function_receives hc'
  obtain ⟨j, hj, hfirst, hreceives⟩ := hreads ⟨.none, "a"⟩ (by decide +kernel)
  obtain ⟨k, hk, hlast, hreceives'⟩ := hreads ⟨.none, "b"⟩ (by decide +kernel)
  rw [hslots] at hj hk
  obtain rfl : j = 0 := (List.getElem?_inj (List.getElem?_eq_some_iff.1 hj).1 hnodup).1 hj
  obtain rfl : k = 1 := (List.getElem?_inj (List.getElem?_eq_some_iff.1 hk).1 hnodup).1 hk
  exact ⟨f, start, c', hc', hf, hfirst, hreceives, hlast, hreceives'⟩

end Compile

end StackScript
