import StackScript.Proofs.Compile.Realization
import StackScript.Session.Requests

/-!
# Compiling with copies

A source is compiled with copies of the names and constants of a session. The
compilation keeps to them, so the session finds its own as they were, also if the
compilation ended in a fault with names defined, constants added and functions
begun. What an evaluation takes over are the copies as they are then.

## Main definitions

* `Session.compileProgram`: the code of a program.

## Main results

* `Session.attempt_own`: a compilation leaves what the session has.
* `Session.compile_eq`, `Session.eval_eq`: what is compiled and evaluated, with the
  heap left out.
* `Session.compile_emits`: a source is compiled by the scheme.
-/

namespace StackScript.Session

variable {s : Session} {source : Bytes} {bytecode : Bytecode} {table : Table}

theorem context_copies (s : Session) : s.copies.context = ⟨s.constants, s.table, []⟩ :=
  Compiler.context_ofCopies _ _ _ _

theorem constants_copies (s : Session) : s.copies.constants = s.constants :=
  congrArg Context.constants s.context_copies

/-- The first name that is bound in a new session. -/
theorem define_copies_new (config : Config) (tracing : Bool) {x : Bytes}
    (h : Builtin.ofName? x = none) :
    Compile.define x (new config tracing).copies =
        .ok (.global 0) ((new config tracing).copies.update (·.define x)).2 ∧
      ((new config tracing).copies.update (·.define x)).2.scope.table.find? x =
        some (.global 0) := by
  obtain ⟨hslot, hfind⟩ := Table.define_global h
  refine ⟨congrArg (fun place => EStateM.Result.ok place _) hslot, ?_⟩
  rw [Compiler.scope_update]
  exact hfind

/-- In a new session a number is the first constant, and its name gets the first slot. -/
theorem exists_bind_int (config : Config) (tracing : Bool) {x : Bytes}
    (h : Builtin.ofName? x = none) (n : Int64) :
    ∃ c, (∀ loc idLoc intLoc literal, (Stmt.bind loc ⟨idLoc, x⟩ (.int intLoc literal n)).compile
        (new config tracing).copies = .ok () c) ∧
      c.context = ⟨#[.int n], (Table.global.define x).2, []⟩ ∧
      c.scope.draft.code = .ofInstrs [⟨.const, [0]⟩, ⟨.setGlobal, [0]⟩] ∧
      c.layer.table = 1 ∧ c.pool = 1 := by
  have hdefine := (define_copies_new config tracing h).1
  obtain ⟨c, hc⟩ : ∃ c, c = ((new config tracing).copies.update (·.define x)).2 := ⟨_, rfl⟩
  rw [← hc] at hdefine
  have hcontext : c.context = ⟨#[], (Table.global.define x).2, []⟩ := by
    rw [hc, Compiler.context_update]
    rfl
  refine ⟨((c.addConstant (.int n)).modifyDraft (·.emit ⟨.const, [0]⟩)).modifyDraft
    (·.emit ⟨.setGlobal, [0]⟩), fun loc idLoc intLoc literal => ?_, ?_, ?_, ?_, ?_⟩
  · rw [Stmt.compile, Compile.bind_of_ok hdefine, Expr.compile, hc]
    rfl
  · exact (c.context_addConstant (.int n)).trans (congrArg (·.push (.int n)) hcontext)
  all_goals
    rw [hc]
    rfl

/-- What a session has does not belong to the compilation. -/
theorem frame_copies {c : Compiler} (h : Compiler.Frame s.copies c) :
    c.heap.table 0 = s.table ∧ c.heap.pool 0 = s.constants := by
  have hown : 0 ∉ s.copies.numbers := by
    intro h0
    cases List.mem_singleton.1 h0
  exact ⟨congrArg Forest.Node.table (h.tables 0 Nat.zero_lt_two hown), h.pools 0 Nat.zero_ne_one⟩

/-- However the compilation of a program ends, the session finds its names and constants as they
were. -/
theorem attemptProgram_own (s : Session) (p : Program) :
    (s.attemptProgram p).2.table 0 = s.table ∧ (s.attemptProgram p).2.pool 0 = s.constants := by
  have hspares := p.compile_spares s.copies
  rw [attemptProgram]
  unfold Compile.Sat at hspares
  split at hspares
  · next hrun =>
    rw [hrun]
    exact frame_copies hspares.1
  · next hrun =>
    rw [hrun]
    exact frame_copies hspares

/-- However the compilation of a source ends, the session finds its names and constants as they
were. -/
theorem attempt_own (s : Session) (source : Bytes) :
    (s.attempt source).2.table 0 = s.table ∧ (s.attempt source).2.pool 0 = s.constants := by
  rw [attempt]
  split
  · exact s.attemptProgram_own _
  · exact ⟨rfl, rfl⟩

theorem reload_attempt (s : Session) (source : Bytes) : s.reload (s.attempt source).2 = s := by
  obtain ⟨htable, hconstants⟩ := s.attempt_own source
  rw [reload, htable, hconstants]

/-- The copies of a program that compiles are those of its last state. -/
theorem table_of_compile {p : Program} {c : Compiler} (h : p.compile s.copies = .ok () c) :
    c.heap.table s.copies.layer.table = c.scope.table := by
  have hspares := p.compile_spares s.copies
  rw [Compile.Sat, h] at hspares
  have hnumber : s.copies.layer.table = c.layer.table := (List.cons.inj hspares.2).1
  rw [hnumber]
  rfl

/-- The code of a program, and the names after it, as the last state of the compilation has them. -/
def compileProgram (s : Session) (p : Program) : Except EvalError (Bytecode × Table) :=
  match p.compile s.copies with
  | .ok _ c => .ok (c.bytecode, c.scope.table)
  | .error e _ => .error (.compile e)

/-- What is compiled is the program that was read. -/
theorem compile_eq (s : Session) (source : Bytes) :
    s.compile source =
      if (Program.parse source).errors.isEmpty then s.compileProgram (Program.parse source).program
      else .error (.parse (Program.parse source).errors) := by
  simp only [compile, attempt]
  split
  · rw [attemptProgram, compileProgram]
    cases hrun : (Program.parse source).program.compile s.copies with
    | ok _ c =>
      simp only [Except.map]
      rw [table_of_compile hrun]
    | error e c => rfl
  · rfl

theorem compile_of_parse (h : (Program.parse source).errors = []) :
    s.compile source = s.compileProgram (Program.parse source).program := by
  rw [compile_eq, h]
  rfl

/-- A source compiles if what it is compiled to passes a test. -/
theorem exists_compile {test : Bytecode × Table → Bool}
    (h : (s.compile source).toOption.any test = true) :
    ∃ bytecode table, s.compile source = .ok (bytecode, table) ∧ test (bytecode, table) = true := by
  cases hcompile : s.compile source with
  | error e =>
    rw [hcompile] at h
    cases h
  | ok compiled =>
    rw [hcompile] at h
    exact ⟨compiled.1, compiled.2, rfl, h⟩

/-- A source that does not compile leaves the session as it was; one that does is run, and the
session has its names and constants. -/
theorem eval_eq [Casing] (fuel : Nat) (s : Session) (source : Bytes) :
    s.eval fuel source =
      match s.compile source with
      | .error e => (⟨.error e, [], []⟩, s)
      | .ok (bytecode, table) =>
        let start := Machine.load s.config.sizes s.globals bytecode.code bytecode.constants s.fresh
          s.tracing
        let (ending, m) := start.run fuel
        (⟨resultOf m ending, m.written, m.trace.reverse⟩,
          { s with
            table := table
            constants := bytecode.constants
            globals := m.globals
            stats := m.stats
            fresh := m.fresh }) := by
  have hown := s.reload_attempt source
  rw [eval, compile]
  cases h : s.attempt source with
  | mk result h' =>
    rw [h] at hown
    cases result with
    | error e => simp only [Except.map, hown]
    | ok code => rfl

theorem perform_compile [Casing] (fuel : Nat) (s : Session) (source : Bytes) :
    s.perform fuel (.compile source) = (.bytecode ((s.compile source).map (·.1)), s) := by
  have hown := s.reload_attempt source
  rw [perform, compile]
  cases h : s.attempt source with
  | mk result h' =>
    rw [h] at hown
    simp only [hown]
    cases result <;> rfl

theorem perform_disassemble [Casing] (fuel : Nat) (s : Session) (source : Bytes) :
    s.perform fuel (.disassemble source) = (.listing (s.listing source), s) := by
  have hown := s.reload_attempt source
  rw [perform, listing, compile]
  cases h : s.attempt source with
  | mk result h' =>
    rw [h] at hown
    simp only [hown]
    cases result <;> rfl

/-- A program is compiled by the scheme. -/
theorem compileProgram_emits {p : Program} (h : s.compileProgram p = .ok (bytecode, table)) :
    ∃ seg, bytecode.code = .ofInstrs seg ∧
      p.Emits 0 ⟨s.constants, s.table, []⟩ seg ⟨bytecode.constants, table, []⟩ := by
  rw [compileProgram] at h
  split at h
  · next c hrun =>
    obtain ⟨rfl, rfl⟩ := Prod.mk.inj (Except.ok.inj h)
    rw [← context_copies]
    exact Program.bytecode_emits rfl rfl hrun
  · cases h

/-- The code of a source is that of the program that was read from it. -/
theorem compile_emits (h : s.compile source = .ok (bytecode, table)) :
    (Program.parse source).errors = [] ∧ ∃ seg, bytecode.code = .ofInstrs seg ∧
      (Program.parse source).program.Emits 0 ⟨s.constants, s.table, []⟩ seg
        ⟨bytecode.constants, table, []⟩ := by
  rw [compile_eq] at h
  split at h
  · next herrors => exact ⟨List.isEmpty_iff.1 herrors, compileProgram_emits h⟩
  · cases h

end StackScript.Session
