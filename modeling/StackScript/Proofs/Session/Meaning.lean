import StackScript.Proofs.Meaning.Calls
import StackScript.Proofs.Meaning.Positions
import StackScript.Proofs.Session.Evaluation

/-!
# Sessions preserve meaning

A session stands for the store that the evaluation of its sources has led to: its
global slots hold the variables of that store, and its closures are compiled from
the closures of that store. The reply to a source is the result of evaluating its
tree in the store, and the session after it stands for the store after it. A run
may be cut off by a limit of the machine; then the session stands for the store
of the moment.

## Main definitions

* `Program.names`: the global names after a program.
* `Session.Represents`: the session stands for a store.
* `Reply.Tells`: the reply is the result of an evaluation.

## Main results

* `Session.Represents.tells`: the reply to a source is what its tree means.
* `Session.meaning_preserved`: a session is an evaluator of trees.
-/

namespace StackScript

/-! ### Names and constants that are added -/

section

variable {P P' : Array Value} {G G' : List Bytes} {lambdas : List Lambda}

/-- A closure stays compiled when names and constants are added. -/
theorem ClosureShows.extend (hP : P.toList <+: P'.toList) (hG : G <+: G') {id : Nat} {f : Function}
    {free : List Value} (h : ClosureShows P G lambdas id f free) :
    ClosureShows P' G' lambdas id f free := by
  obtain ⟨c, hfind, σ, s, τ, hc⟩ := h
  exact ⟨c, hfind, σ, s, τ,
    { hc with constants := hc.constants.trans hP, globals := hc.globals.trans hG }⟩

theorem Value.Shows.extend (hP : P.toList <+: P'.toList) (hG : G <+: G') {w v : Value}
    (h : w.Shows P G lambdas v) : w.Shows P' G' lambdas v :=
  ⟨h.1, h.2.mono fun _ _ _ => ClosureShows.extend hP hG⟩

end

/-- The global names after a program that follows others with the given global names. -/
def Program.names (globals : List Bytes) (p : Program) : List Bytes :=
  (letsBody p.body).foldl addName globals

theorem Names.bindAll_main (globals xs : List Bytes) :
    Names.bindAll ⟨globals, []⟩ xs = ⟨xs.foldl addName globals, []⟩ := by
  induction xs generalizing globals with
  | nil => rfl
  | cons x xs ih => exact ih (addName globals x)

/-- The store before the first program. -/
def Store.empty : Store := ⟨fun _ => .null, fun _ => .null, [], []⟩

/-! ### Endings -/

/-- How a run may end that follows an evaluation with the given result: with its value, in its fault,
or cut off by a limit of the machine. In any case the machine represents a store. -/
def Machine.Outcome (P : Array Value) (G : List Bytes) (r : EStateM.Result Break Store Value) :
    Machine.Ending → Machine → Prop
  | .unfinished, m => ∃ st, Mirrors P G st m
  | .finished, m => ∃ st, r = .ok m.lastPopped.outline st ∧ Mirrors P G st m
  | .stopped .crash, _ => False
  | .stopped (.fault e), m => ∃ st, Mirrors P G st m ∧
    (e.fault.Cut ∨ r = .error (.fault e.fault) st ∨
      r = .error .tooDeep st ∧ e.fault = .frameOverflow m.maxFrames)

theorem tolerates_outcome (P : Array Value) (G : List Bytes) (r : EStateM.Result Break Store Value) :
    Tolerates P G (Machine.Outcome P G r) := by
  intro st m hmirrors
  refine ⟨⟨st, hmirrors⟩, ?_⟩
  rintro f hcut e rfl
  exact ⟨st, hmirrors, .inl hcut⟩

theorem Machine.Outcome.mirrors {P : Array Value} {G : List Bytes}
    {r : EStateM.Result Break Store Value} {ending : Machine.Ending} {m : Machine}
    (h : Machine.Outcome P G r ending m) : ∃ st, Mirrors P G st m := by
  cases ending with
  | unfinished => exact h
  | finished =>
    obtain ⟨st, -, hmirrors⟩ := h
    exact ⟨st, hmirrors⟩
  | stopped stop =>
    cases stop with
    | crash => exact h.elim
    | fault e =>
      obtain ⟨st, hmirrors, -⟩ := h
      exact ⟨st, hmirrors⟩

/-- The reply is the result of an evaluation that leaves the store `st`. A call for which there is no
frame is reported with their number. -/
inductive Reply.Tells (frames : Nat) (reply : Reply) (st : Store) :
    EStateM.Result Break Store Value → Prop
  | value {w : Value} : reply.result = .ok w → reply.output = st.output →
    Tells frames reply st (.ok w.outline st)
  | fault {e : RuntimeError} : reply.result = .error (.runtime e) → reply.output = st.output →
    Tells frames reply st (.error (.fault e.fault) st)
  | tooDeep {e : RuntimeError} : reply.result = .error (.runtime e) →
    e.fault = .frameOverflow frames → reply.output = st.output →
    Tells frames reply st (.error .tooDeep st)

namespace Session

variable {s : Session} {source : Bytes} {bytecode : Bytecode} {table : Table} {G : List Bytes}
  {st : Store}

/-! ### Sessions and stores -/

/-- The session stands for the store. A global variable has the slot of its position among the global
names; what has no name yet is null. -/
structure Represents (s : Session) (G : List Bytes) (st : Store) : Prop where
  names : GlobalsMatch G s.table
  fresh : s.fresh = st.lambdas.length + 1
  globals : ∀ (k : Nat) (x : Bytes) (w : Value), G[k]? = some x → s.globals[k]? = some w →
    w.Shows s.constants G st.lambdas (st.globals x)
  spare : ∀ (k : Nat) (w : Value), G.length ≤ k → s.globals[k]? = some w → w = .null
  unset : ∀ x, x ∉ G → st.globals x = .null

theorem represents_new (config : Config) (tracing : Bool) :
    (new config tracing).Represents [] .empty where
  names := by
    obtain ⟨henclosed, hdefs, -⟩ := Table.foldl_defineBuiltin_counts Builtin.all (.empty false)
    change Table.global.enclosed = false at henclosed
    refine ⟨henclosed, ⟨?_, hdefs, List.nodup_nil⟩, fun x _ => Table.global_find? x⟩
    intro x k
    change Table.global.find? x = some (Table.global.slot k) ↔ _
    rw [Table.global_find?, Table.slot, henclosed]
    cases Builtin.ofName? x <;> simp
  fresh := rfl
  globals := nofun
  spare := by
    intro k w _ hw
    exact (Array.mem_replicate.1 (Array.mem_of_getElem? hw)).2
  unset _ _ := rfl

/-- The names of a source that compiles are those of its table. -/
theorem Represents.names_compile (hrep : s.Represents G st) (hs : s.context.Ok)
    (h : s.compile source = .ok (bytecode, table)) :
    GlobalsMatch ((Program.parse source).program.names G) table := by
  obtain ⟨is, -, hemits, -⟩ := compile_spec hs h
  have hbinds : (Program.parse source).program.Emits.Binds
      (letsBody (Program.parse source).program.body) := by
    rw [Program.Emits, emitsBody_eq, letsBody_eq]
    apply Emission.Binds.all
    rw [List.forall₂_map_left_iff, List.forall₂_map_right_iff, List.forall₂_same]
    exact fun e _ => tree_binds.stmt_all e
  have hmatch := hbinds _ _ _ _ ⟨G, []⟩ hemits hrep.names
  rwa [Names.bindAll_main] at hmatch

/-- The machine for a source represents the store that the session stands for. -/
theorem Represents.start (hrep : s.Represents G st) (hs : s.context.Ok)
    (h : s.compile source = .ok (bytecode, table)) :
    Mirrors bytecode.constants ((Program.parse source).program.names G) { st with output := [] }
      (s.start bytecode) := by
  obtain ⟨is, -, -, -, hgrows, -⟩ := compile_spec hs h
  obtain ⟨rest, hnames⟩ := prefix_foldl_addName G (letsBody (Program.parse source).program.body)
  change G ++ rest = (Program.parse source).program.names G at hnames
  have hnodup := (hrep.names_compile hs h).lists.nodup
  refine ⟨rfl, hrep.fresh, rfl, ?_, ?_, ?_⟩
  · intro k x w hx hw
    by_cases hk : k < G.length
    · rw [← hnames, List.getElem?_append_left hk] at hx
      exact (hrep.globals k x w hx hw).extend hgrows.constants ⟨rest, hnames⟩
    · obtain rfl := hrep.spare k w (Nat.not_lt.1 hk) hw
      refine ⟨(hrep.unset x ?_).symm, .null⟩
      rw [← hnames] at hnodup hx
      rw [List.getElem?_append_right (Nat.not_lt.1 hk)] at hx
      intro hmem
      exact (List.nodup_append.1 hnodup).2.2 x hmem x (List.mem_of_getElem? hx) rfl
  · intro k w hk hw
    refine hrep.spare k w (Nat.le_trans ?_ hk) hw
    rw [← hnames, List.length_append]
    exact Nat.le_add_right _ _
  · intro x hx
    apply hrep.unset x
    intro hmem
    exact hx (hnames ▸ List.mem_append_left rest hmem)

/-- The session after a run stands for the store that the machine represents at its end. -/
theorem Represents.of_mirrors {m : Machine} (hnames : GlobalsMatch G table)
    (hmirrors : Mirrors bytecode.constants G st m) :
    { s with
      table := table
      constants := bytecode.constants
      globals := m.globals
      stats := m.stats
      fresh := m.fresh }.Represents G st :=
  ⟨hnames, hmirrors.fresh, hmirrors.globals, hmirrors.spare, hmirrors.unset⟩

/-! ### The main code -/

/-- The main code of a source as a call that nothing has called. -/
def mainCall (s : Session) (bytecode : Bytecode) (table : Table) (is : List Instr) (st : Store) :
    Call where
  fn := (s.start bytecode).frame.fn
  id := 0
  free := []
  base := 0
  callers := #[]
  below := []
  instrs := is
  final := ⟨bytecode.constants, table, []⟩
  slots := []
  levels := []
  current := none
  heap := st.lambdas
  depth := s.config.sizes.frames - 1

section

variable {is : List Instr} {P : Array Value} {N : List Bytes} {r : EStateM.Result Break Store Value}

/-- When the evaluation has ended, the run of the main code ends accordingly: a return finishes it. -/
theorem mainCall_breaks [Casing] :
    (s.mainCall bytecode table is st).Breaks P N (Machine.Outcome P N r)
      (Eval.Caught (fun v st' => r = .ok v st') fun b st' => r = .error b st') where
  returned := by
    intro v st' hv w m hw hinside
    -- The main code has no caller, so a return goes to its end and leaves the value as popped last.
    have hcallers : m.callers.back? = none := by
      rw [hinside.callers]
      rfl
    apply Exec.leave_main_sat hinside.fits hcallers
    · intro m' hagrees hfits hlive hpopped
      refine .finished ?_ ⟨st', ?_, ?_⟩
      · rw [Machine.running, hagrees.frame]
        exact decide_eq_false (Nat.lt_irrefl _)
      · rw [hpopped, hw.1]
        exact hv
      · exact hinside.mirrors.transfer hagrees.constants hagrees.fresh hagrees.output
          hagrees.globals
    · intro _
      exact (tolerates_outcome P N r st' m hinside.mirrors).2 _ trivial
  fault := by
    rintro f st' hf m hmirrors e rfl
    exact ⟨st', hmirrors, .inr (.inl hf)⟩
  tooDeep := by
    intro st' hdeep m hmirrors e he
    exact ⟨st', hmirrors, .inr (.inr ⟨hdeep, he⟩)⟩

theorem mainCall_standing (hmirrors : Mirrors P N { st with output := [] } (s.start bytecode)) :
    (s.mainCall bytecode table is st).Standing P N { st with output := [] } (s.start bytecode) 0 [] where
  mirrors := hmirrors
  fits := Nat.zero_le _
  frame := rfl
  callers := rfl
  depth := by
    change s.config.sizes.frames = 0 + 1 + (s.config.sizes.frames - 1)
    have := frames_pos s.config
    omega
  grown := List.prefix_rfl
  live := ⟨[], List.take_zero, .nil⟩
  ops := nofun

end

/-- A run of a source that compiles follows the evaluation of its tree. -/
theorem Represents.runs [Casing] (hrep : s.Represents G st) (hs : s.context.Ok)
    (h : s.compile source = .ok (bytecode, table)) :
    (s.start bytecode).Runs (Machine.Outcome bytecode.constants
      ((Program.parse source).program.names G)
      ((Program.parse source).program.eval Lambda.bySlot (s.config.sizes.frames - 1) G
        { st with output := [] })) := by
  obtain ⟨is, hcode, hemits, hok, -, hlegal, -⟩ := compile_spec hs h
  have hnames := hrep.names_compile hs h
  have hmirrors := hrep.start hs h
  generalize (Program.parse source).program = p at *
  generalize hr : p.eval Lambda.bySlot (s.config.sizes.frames - 1) G { st with output := [] } = r
  have hT := tolerates_outcome bytecode.constants (p.names G) r
  have hK : (s.mainCall bytecode table is st).Ok bytecode.constants (p.names G) := by
    refine ⟨hcode, ?_, List.prefix_rfl, rfl, hnames.lists.nodup, List.nodup_nil, nofun, nofun⟩
    intro i hi
    exact (hlegal i hi).fits hok.globals (Nat.zero_le _) (Nat.zero_le _)
  have hpiece : Piece bytecode.constants (p.names G) (Machine.Outcome bytecode.constants (p.names G) r)
      (s.config.sizes.frames - 1) (s.mainCall bytecode table is st)
      (Eval.Caught (fun v st' => r = .ok v st') fun b st' => r = .error b st')
      (Emission.all (emitsBody p.body)) (letsBody p.body) 0 s.context is
      ⟨bytecode.constants, table, []⟩ ⟨G, []⟩ := by
    refine ⟨hK, rfl, mainCall_breaks, hemits, hs, hrep.names, .refl _, ?_⟩
    rw [Names.bindAll_main]
    exact ⟨List.prefix_rfl, rfl⟩
  have hevaluated : (evalBody (apply Lambda.bySlot (s.config.sizes.frames - 1)) none ⟨G, []⟩ .none
      p.body).Sat { st with output := [] } (fun last st' => r = .ok last.final st')
      (Eval.Caught (fun v st' => r = .ok v st') fun b st' => r = .error b st') := by
    have hsat : (p.eval Lambda.bySlot (s.config.sizes.frames - 1) G).Sat { st with output := [] }
        (fun v st' => r = .ok v st') fun b st' => r = .error b st' := by
      rw [Eval.Sat, hr]
      cases r <;> rfl
    rwa [Program.eval, Eval.sat_catchReturn, Eval.sat_bind] at hsat
  apply (follows_body hT fun e _ => (tree_simulates hT (calls_apply hT _)).stmt_all e).through hT
    hpiece ⟨[], [], by simp [mainCall], rfl⟩ (mainCall_standing hmirrors)
  apply hevaluated.mono
  intro last st' hlast m hstanding hpopped
  refine .finished ?_ ⟨st', ?_, hstanding.mirrors⟩
  · rw [Machine.running, hstanding.frame, Nat.zero_add]
    apply decide_eq_false
    change ¬ Instr.bytes is < bytecode.code.size
    rw [hcode, Code.size_ofInstrs]
    exact Nat.lt_irrefl _
  · have hstart : (s.start bytecode).lastPopped = .null := by
      change ((Array.replicate _ Value.null)[0]?).getD .null = .null
      rw [Array.getElem?_replicate]
      split <;> rfl
    have hshows := hpopped rfl (by rw [hstart]; exact ⟨rfl, .null⟩)
    rw [hshows.1]
    exact hlast

/-! ### Replies -/

/-- The reply to a source is what its tree means, unless a limit of the machine cuts the run off. -/
theorem Represents.tells [Casing] (hrep : s.Represents G st) (hs : s.Ok)
    (h : s.compile source = .ok (bytecode, table)) :
    ∃ n, ∀ fuel, n ≤ fuel → ∃ st',
      (s.eval fuel source).2.Represents ((Program.parse source).program.names G) st' ∧
      ((∃ e, (s.eval fuel source).1.result = .error (.runtime e) ∧ e.fault.Cut) ∨
        (s.eval fuel source).1.Tells s.config.sizes.frames st'
          ((Program.parse source).program.eval Lambda.bySlot (s.config.sizes.frames - 1) G
            { st with output := [] })) := by
  obtain ⟨_, _, _, hcontext, _⟩ := compile_spec hs.context h
  have hnames := hrep.names_compile hs.context h
  obtain ⟨n, -, -, hrun⟩ := start_halts hs h
  refine ⟨n, fun fuel hfuel => ?_⟩
  have hfinished : ((s.start bytecode).runFor fuel).1 ≠ .unfinished := (hrun fuel hfuel).1
  have hmax : ((s.start bytecode).runFor fuel).2.maxFrames = s.config.sizes.frames :=
    ((start_ok hs h).runFor (pool_ok hcontext) fuel).keeps.maxFrames
  have houtcome := hrep.runs hs.context h fuel
  rw [eval_of_compile h]
  generalize (s.start bytecode).runFor fuel = ended at hfinished hmax houtcome
  obtain ⟨ending, m⟩ := ended
  cases ending with
  | unfinished => exact absurd rfl hfinished
  | finished =>
    obtain ⟨st', hvalue, hmirrors⟩ := houtcome
    refine ⟨st', .of_mirrors hnames hmirrors, .inr ?_⟩
    rw [hvalue]
    exact .value rfl hmirrors.written
  | stopped stop =>
    cases stop with
    | crash => exact houtcome.elim
    | fault e =>
      obtain ⟨st', hmirrors, hwhy⟩ := houtcome
      refine ⟨st', .of_mirrors hnames hmirrors, ?_⟩
      obtain hcut | hfault | ⟨hdeep, hframes⟩ := hwhy
      · exact .inl ⟨e, rfl, hcut⟩
      · rw [hfault]
        exact .inr (.fault rfl hmirrors.written)
      · rw [hdeep]
        exact .inr (.tooDeep rfl (hframes.trans (by rw [hmax])) hmirrors.written)

/-- Whatever a session was asked, it stands for a store. -/
theorem Reachable.represents [Casing] (hs : s.Reachable) : ∃ G st, s.Represents G st := by
  suffices hall : s.Ok ∧ ∃ G st, s.Represents G st from hall.2
  refine hs.induct (P := fun s => s.Ok ∧ ∃ G st, s.Represents G st) ?_ ?_
  · intro config tracing
    exact ⟨Reachable.ok (.new config tracing), [], .empty, represents_new config tracing⟩
  · rintro fuel source s ⟨hok, G, st, hrep⟩
    refine ⟨eval_ok fuel hok source, ?_⟩
    cases hcompile : s.compile source with
    | error e =>
      rw [eval_of_error hcompile]
      exact ⟨G, st, hrep⟩
    | ok code =>
      obtain ⟨bytecode, table⟩ := code
      have hnames := hrep.names_compile hok.context hcompile
      obtain ⟨st', hmirrors⟩ := (hrep.runs hok.context hcompile fuel).mirrors
      rw [eval_of_compile hcompile]
      exact ⟨_, st', .of_mirrors hnames hmirrors⟩

/-- A session is an evaluator of trees. It starts with the empty store, and always stands for some
store. The reply to a source that compiles is the result of evaluating its tree in that store, and the
session after it stands for the store after it, unless the run is cut off by a limit of the machine.
The variables of a call start with the arguments in the order of their slots. That is the order of the
parameters if no two of them have the same name. So a program in which no function has a parameter
twice, after others like it, means the same with arguments that go to the parameters of their
positions. -/
theorem meaning_preserved [Casing] (config : Config) (tracing : Bool) :
    (new config tracing).Represents [] .empty ∧
    (∀ s : Session, s.Reachable → ∃ G st, s.Represents G st) ∧
    (∀ (s : Session) G st source bytecode table, s.Reachable → s.Represents G st →
      s.compile source = .ok (bytecode, table) → ∃ n, ∀ fuel, n ≤ fuel → ∃ st',
        (s.eval fuel source).2.Represents ((Program.parse source).program.names G) st' ∧
        ((∃ e, (s.eval fuel source).1.result = .error (.runtime e) ∧ e.fault.Cut) ∨
          (s.eval fuel source).1.Tells s.config.sizes.frames st'
            ((Program.parse source).program.eval Lambda.bySlot (s.config.sizes.frames - 1) G
              { st with output := [] }))) ∧
    (∀ (c : Lambda) args, (c.params.map (·.name)).Nodup → args.length = c.params.length →
      c.bySlot args = c.byPosition args) ∧
    ∀ (p : Program) depth G (st : Store), p.Distinct → st.Distinct →
      p.eval Lambda.bySlot depth G st = p.eval Lambda.byPosition depth G st ∧
      (p.eval Lambda.bySlot depth G).Sat st (fun _ st' => st'.Distinct)
        fun _ st' => st'.Distinct := by
  refine ⟨represents_new config tracing, fun s hs => hs.represents, ?_, ?_, ?_⟩
  · intro s G st source bytecode table hs hrep h
    exact hrep.tells hs.ok h
  · intro c args hnodup hlength
    exact c.bySlot_eq_byPosition hnodup hlength
  · intro p depth G st hp hst
    exact Program.eval_agree hp depth G st hst

end Session

end StackScript
