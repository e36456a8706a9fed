import Mathlib.Data.Set.Card
import StackScript.Proofs.Compile.WellFormed
import StackScript.Proofs.Session.Copies

/-!
# Reachable sessions

The names and constants that a session has at any time are those that a compilation
leaves, so the next source is compiled in good order.

## Main definitions

* `Session.Reachable`: what may have become of a session.
* `Table.globalNames`: the global names of a program.

## Main results

* `Session.Reachable.context_ok`: names and constants are in good order.
* `Session.compile_spec`: what a compiled source is.
* `Table.ncard_globalNames`: slots are given to the global names one to one.
-/

namespace StackScript

namespace Session

/-- The sessions that requests lead to, however long the runs are. -/
inductive Reachable [Casing] : Session → Prop
  | new (config : Config) (tracing : Bool) : Reachable (.new config tracing)
  | perform {s : Session} (fuel : Nat) (r : Request) : Reachable s → Reachable (s.perform fuel r).2

/-- A request leaves the session as it was, or evaluates a source in it. -/
theorem perform_cases [Casing] (fuel : Nat) (s : Session) (r : Request) :
    (s.perform fuel r).2 = s ∨ ∃ source, (s.perform fuel r).2 = (s.eval fuel source).2 := by
  cases r with
  | eval source => exact .inr ⟨source, rfl⟩
  | evalAsync source fate =>
    cases fate with
    | served => exact .inr ⟨source, rfl⟩
    | canceled | refused => exact .inl rfl
  | compile source => exact .inl (by rw [perform_compile])
  | disassemble source => exact .inl (by rw [perform_disassemble])

/-- What holds of new sessions and is kept by evaluations holds of all reachable sessions. -/
theorem Reachable.induct [Casing] {P : Session → Prop}
    (hnew : ∀ config tracing, P (.new config tracing))
    (heval : ∀ fuel source s, P s → P (s.eval fuel source).2) {s : Session} (h : s.Reachable) :
    P s := by
  induction h with
  | new config tracing => exact hnew config tracing
  | @perform s fuel r _ ih =>
    obtain heq | ⟨source, heq⟩ := s.perform_cases fuel r
    · rwa [heq]
    · rw [heq]
      exact heval fuel source s ih

/-! ### Names and constants -/

/-- The names and constants of a session. -/
def context (s : Session) : Context := ⟨s.constants, s.table, []⟩

/-- What a program is compiled to with names and constants in good order. -/
theorem emits_spec {p : Program} {σ : Context} {is : List Instr} {constants : Array Value}
    {table : Table} (hσ : σ.Ok) (hemits : p.Emits 0 σ is ⟨constants, table, []⟩) :
    (⟨constants, table, []⟩ : Context).Ok ∧ σ.Grows ⟨constants, table, []⟩ ∧
      (∀ i ∈ is, i.Legal ⟨constants, table.definitions, 0, 0, false⟩) ∧ Settled 0 is 0 0 := by
  have hlawful : p.Emits.Lawful := by
    rw [Program.Emits, emitsBody_eq]
    apply Emission.Lawful.all
    simpa using fun e _ => tree_lawful.stmt_all e
  have hsettles : p.Emits.Settles := by
    rw [Program.Emits, emitsBody_eq]
    exact body_settles fun e _ => tree_balanced.stmt_all e
  obtain ⟨hok, hgrow, hlegal⟩ := hlawful _ _ _ _ hemits hσ
  have hlimits : (⟨constants, table, []⟩ : Context).limits =
      ⟨constants, table.definitions, 0, 0, false⟩ := by
    obtain ⟨-, henclosed, hfree⟩ : Chain [table] := hok.chain
    simp [Context.limits, Context.tables, globalCount, henclosed, hfree]
  rw [hlimits] at hlegal
  exact ⟨hok, hgrow, hlegal, hsettles _ _ _ _ hemits 0⟩

/-- What a source that compiles in a session in good order is compiled to. -/
theorem compile_spec {s : Session} (hs : s.context.Ok) {source : Bytes} {bytecode : Bytecode}
    {table : Table} (h : s.compile source = .ok (bytecode, table)) :
    ∃ is, bytecode.code = .ofInstrs is ∧
      (Program.parse source).program.Emits 0 s.context is ⟨bytecode.constants, table, []⟩ ∧
      (⟨bytecode.constants, table, []⟩ : Context).Ok ∧
      s.context.Grows ⟨bytecode.constants, table, []⟩ ∧
      (∀ i ∈ is, i.Legal ⟨bytecode.constants, table.definitions, 0, 0, false⟩) ∧
      Settled 0 is 0 0 := by
  obtain ⟨-, is, hcode, hemits⟩ := compile_emits h
  exact ⟨is, hcode, hemits, emits_spec hs hemits⟩

theorem context_ok_new (config : Config) (tracing : Bool) : (new config tracing).context.Ok := by
  refine ⟨chain_global, ?_, ?_⟩
  · obtain ⟨-, hdefs, -⟩ := Table.foldl_defineBuiltin_counts Builtin.all (.empty false)
    exact Nat.le_trans (Nat.le_of_eq hdefs) (Nat.zero_le _)
  · intro v hv
    simp [context, new] at hv

theorem context_ok_eval [Casing] (fuel : Nat) {s : Session} (hs : s.context.Ok) (source : Bytes) :
    (s.eval fuel source).2.context.Ok := by
  rw [eval_eq]
  split
  · exact hs
  · next hcompile =>
    obtain ⟨_, _, _, hok, _⟩ := compile_spec hs hcompile
    exact hok

theorem Reachable.context_ok [Casing] {s : Session} (h : s.Reachable) : s.context.Ok :=
  h.induct (P := fun s => s.context.Ok) context_ok_new
    fun fuel source _ hs => context_ok_eval fuel hs source

end Session

/-! ### Global names -/

/-- The names that stand for global variables. -/
def Table.globalNames (t : Table) : Set Bytes := {x | ∃ k, t.find? x = some (.global k)}

/-- The slots given out in the table of a program are those of its global names. -/
theorem Table.ncard_globalNames {t : Table} (h : Chain [t]) :
    t.globalNames.ncard = t.definitions := by
  obtain ⟨hsound, henclosed, -⟩ := h
  have hslot (k : Nat) : t.slot k = .global k := by
    simp [slot, henclosed]
  have honto := hsound.onto
  simp only [hslot] at honto
  choose name hname using honto
  refine Set.ncard_eq_of_bijective name ?_ ?_ ?_
  · rintro x ⟨k, hk⟩
    have hlt : k < t.definitions := (hsound.valid x _ hk).2
    refine ⟨k, hlt, hsound.injective _ _ k ?_ ?_⟩
    · rw [hslot, hname k hlt]
    · rw [hslot, hk]
  · intro k hk
    exact ⟨k, hname k hk⟩
  · intro j k hj hk heq
    have hsame := hname j hj
    rw [heq, hname k hk] at hsame
    exact (Place.global.inj (Option.some.inj hsame)).symm

end StackScript
