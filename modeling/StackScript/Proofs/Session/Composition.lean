import StackScript.Proofs.Machine.Completion
import StackScript.Proofs.Session.StackDiscipline
import StackScript.Proofs.Session.WellFormedCode
import StackScript.Proofs.Tree.Parsed
import StackScript.Text.Lower

/-!
# Sources one after another

Two sources that are evaluated one after the other do the same as one program
with the statements of both. The second one is compiled with the names and
constants that the first one has left, so its code in the program is the same
but for its place, and it is run on a machine with nothing on its stack. Such a
machine does the same as the machine that has come to the end of the first one.

## Main definitions

* `Program.append`: the statements of two programs in one.
* `Session.evalProgram`: run a program that has been read.

## Main results

* `Session.eval_eq_evalProgram`: to evaluate a source is to run its program.
* `Session.eval_append`: two sources do what their statements do together.
-/

namespace StackScript

/-- The statements of one program after those of another. -/
def Program.append (p q : Program) : Program := .ofBody (p.body ++ q.body)

namespace Session

/-! ### Programs -/

/-- The session after a run. -/
def after (s : Session) (bytecode : Bytecode) (table : Table) (m : Machine) : Session :=
  { s with
    table := table
    constants := bytecode.constants
    globals := m.globals
    stats := m.stats
    fresh := m.fresh }

/-- Run a program that has been read, executing at most `fuel` instructions. -/
def evalProgram [Casing] (fuel : Nat) (s : Session) (p : Program) : Reply × Session :=
  match s.compileProgram p with
  | .error e => (⟨.error e, [], []⟩, s)
  | .ok (bytecode, table) =>
    let (ending, m) := (s.start bytecode).runFor fuel
    (⟨resultOf m ending, m.written, m.trace.reverse⟩, s.after bytecode table m)

variable {s : Session} {source first second : Bytes} {bytecode : Bytecode} {table : Table}
  {fuel fuel₁ fuel₂ : Nat} {v : Value}

/-- To evaluate a source without faults is to run the program that is read from it. -/
theorem eval_eq_evalProgram [Casing] (h : (Program.parse source).errors = []) (fuel : Nat)
    (s : Session) :
    s.eval fuel source = s.evalProgram fuel (Program.parse source).program := by
  rw [eval_eq, evalProgram, compile_of_parse h]
  rfl

/-- An evaluation that succeeds has compiled the source and come to the end of its run. -/
theorem exists_of_eval [Casing] (h : (s.eval fuel source).1.result = .ok v) :
    ∃ bytecode table m, s.compile source = .ok (bytecode, table) ∧
      (s.start bytecode).runFor fuel = (.finished, m) ∧ m.lastPopped = v ∧
      (s.eval fuel source).1.output = m.written ∧
      (s.eval fuel source).2 = s.after bytecode table m := by
  cases hcompile : s.compile source with
  | error e =>
    rw [eval_of_error hcompile] at h
    cases h
  | ok result =>
    obtain ⟨bytecode, table⟩ := result
    rw [eval_of_compile hcompile] at h ⊢
    cases hrun : (s.start bytecode).runFor fuel with
    | mk ending m =>
      rw [hrun] at h
      cases ending with
      | finished => exact ⟨bytecode, table, m, rfl, hrun, Except.ok.inj h, rfl, rfl⟩
      | stopped stop =>
        cases stop with
        | fault e => cases h
        | crash => cases h
      | unfinished => cases h

theorem laid_program {p : Program} (hs : s.context.Ok)
    (h : s.compileProgram p = .ok (bytecode, table)) :
    ∃ is, bytecode.code.Laid is ∧ p.Emits 0 s.context is ⟨bytecode.constants, table, []⟩ := by
  obtain ⟨is, hcode, hemits⟩ := compileProgram_emits h
  exact ⟨is, laid_of_emits hs hcode hemits, hemits⟩

/-- There is code for every statement that is read. -/
theorem emits_ne_nil {σ τ : Context} {is : List Instr}
    (hbody : (Program.parse source).program.body ≠ [])
    (hemits : (Program.parse source).program.Emits 0 σ is τ) : is ≠ [] := by
  have hblock := Program.ne_block_of_mem_parse source
  rw [Program.Emits, emitsBody_eq] at hemits
  obtain ⟨e, rest, hrest⟩ := List.exists_cons_of_ne_nil hbody
  rw [hrest] at hemits hblock
  obtain ⟨seg, τ₁, is', hseg, -, rfl⟩ := hemits
  have hne : seg ≠ [] := by
    cases e with
    | bind loc id value =>
      obtain ⟨-, s, -, rfl⟩ := hseg
      simp
    | ret loc value =>
      cases value with
      | none =>
        obtain ⟨rfl, -⟩ := hseg
        simp
      | some value =>
        obtain ⟨s, _, t, -, ⟨rfl, -⟩, rfl⟩ := hseg
        simp
    | expr loc value =>
      obtain ⟨s, _, t, -, ⟨rfl, -⟩, rfl⟩ := hseg
      simp
    | block body => exact absurd rfl (hblock _ (List.mem_cons_self ..) body)
    | missing => exact absurd hseg (by rw [Stmt.Emits]; exact id)
  simp [hne]

/-! ### Two sources in one program -/

open Machine Instr

/-- Main code has no closure of its own. -/
theorem plain_of_emits {p : Program} {σ : Context} {is : List Instr} {constants : Array Value}
    (hσ : σ.Ok) (hemits : p.Emits 0 σ is ⟨constants, table, []⟩) :
    ∀ i ∈ is, i.op ≠ .currentClosure := by
  obtain ⟨-, -, hlegal, -⟩ := emits_spec hσ hemits
  intro i hi hop
  exact (hlegal i hi).op_main (by simp [hop])

/-- The code of two sources in one program: that of the first one, and that of the second one moved
behind it. -/
structure Joined (b₁ b₂ whole : Bytecode) (is₁ is₂ : List Instr) : Prop where
  laid₁ : b₁.code.Laid is₁
  laid₂ : b₂.code.Laid is₂
  encodes : whole.code.Encodes (is₁ ++ is₂.map (shift (bytes is₁)))
  constants : whole.constants = b₂.constants
  pool : b₁.constants.toList <+: b₂.constants.toList
  plain₁ : ∀ i ∈ is₁, i.op ≠ .currentClosure
  plain₂ : ∀ i ∈ is₂, i.op ≠ .currentClosure

variable {b₁ b₂ whole : Bytecode} {is₁ is₂ : List Instr} {t₁ t₂ t : Table} {m₁ m₂ : Machine}

theorem joined (hs : s.Ok) (h₁ : s.compile first = .ok (b₁, t₁))
    (h₂ : (s.after b₁ t₁ m₁).compile second = .ok (b₂, t₂)) (hok : (s.after b₁ t₁ m₁).Ok)
    (hwhole : s.compileProgram
      ((Program.parse first).program.append (Program.parse second).program) = .ok (whole, t)) :
    t = t₂ ∧ ∃ is₁ is₂, Joined b₁ b₂ whole is₁ is₂ ∧
      (Program.parse second).program.Emits 0 (s.after b₁ t₁ m₁).context is₂
        ⟨b₂.constants, t₂, []⟩ := by
  obtain ⟨is₁, hlaid₁, hemits₁⟩ := laid_main hs.context h₁
  obtain ⟨is₂, hlaid₂, hemits₂⟩ := laid_main hok.context h₂
  obtain ⟨is, hlaid, hemits⟩ := laid_program hs.context hwhole
  obtain ⟨-, hgrows, -⟩ := emits_spec hok.context hemits₂
  have hplain₁ := plain_of_emits hs.context hemits₁
  have hplain₂ := plain_of_emits hok.context hemits₂
  have hemits₂' := hemits₂
  rw [Program.Emits, emitsBody_eq] at hemits₁ hemits₂' hemits
  obtain ⟨rfl, hcontext⟩ := all_emits_append hemits₁ hemits₂' hemits
  obtain ⟨hconstants, rfl, -⟩ := Context.mk.inj hcontext
  exact ⟨rfl, is₁, is₂, ⟨hlaid₁, hlaid₂, hlaid.toEncodes, hconstants, hgrows.constants, hplain₁,
    hplain₂⟩, hemits₂⟩

namespace Joined

variable (h : Joined b₁ b₂ whole is₁ is₂)

include h

theorem size_eq : whole.code.size = b₂.code.size + bytes is₁ := by
  rw [h.encodes.eq, h.laid₂.eq, Code.size_ofInstrs, Code.size_ofInstrs, bytes_append,
    bytes_map_shift, Nat.add_comm]

theorem embeds_first : whole.code.Embeds 0 b₁.code := by
  have hencodes : whole.code.Encodes ([] ++ (is₁.map (shift (bytes [])) ++
      is₂.map (shift (bytes is₁)))) := by
    rw [bytes_nil, map_shift_zero]
    exact h.encodes
  exact h.laid₁.embeds hencodes h.plain₁

theorem embeds_second : whole.code.Embeds (bytes is₁) b₂.code := by
  have hencodes : whole.code.Encodes (is₁ ++ (is₂.map (shift (bytes is₁)) ++ [])) := by
    rw [List.append_nil]
    exact h.encodes
  exact h.laid₂.embeds hencodes h.plain₂

/-- The program starts as the first source does. -/
theorem twin_start (hlimit : s.config.sizes.limit = 0) :
    Twin whole 0 [] (s.start b₁) (s.start whole) where
  fits := Nat.zero_le _
  sp := rfl
  size := rfl
  live := rfl
  globals := rfl
  constants := rfl
  pool := by
    rw [h.constants]
    exact h.pool
  fresh := rfl
  output := rfl
  maxFrames := rfl
  limit := hlimit
  limit_twin := hlimit
  frames := .main h.embeds_first

/-- At the end of the first source the program goes on as the second one does. -/
theorem twin_second {b : Machine} (hlimit : s.config.sizes.limit = 0)
    (htwin : Twin whole 0 [] m₁ b) (hcallers : m₁.callers = #[]) (hlive : m₁.live = [])
    (hframe : m₁.frame = { (s.start b₁).frame with next := bytes is₁ })
    (hkeeps : (s.start b₁).Keeps m₁) :
    Twin whole (bytes is₁) m₁.output ((s.after b₁ t₁ m₁).start b₂) b where
  fits := Nat.zero_le _
  sp := by
    rw [htwin.sp, ← htwin.fits.length_live, hlive]
    rfl
  size := by
    rw [htwin.size, hkeeps.stack]
    rfl
  live := by
    rw [htwin.live, hlive]
    exact List.take_zero.symm
  globals := htwin.globals
  constants := htwin.constants
  pool := by rw [h.constants]; exact List.prefix_rfl
  fresh := htwin.fresh
  output := by rw [htwin.output, List.append_nil]; rfl
  maxFrames := by rw [htwin.maxFrames, hkeeps.maxFrames]; rfl
  limit := hlimit
  limit_twin := htwin.limit_twin
  frames := by
    -- The main code is the only one, since no call is in progress between the two sources.
    obtain ⟨-, hcallers', hframe', -⟩ | ⟨hinner, -⟩ := htwin.cases_frame
    · have hmoved : b.frame = ((s.after b₁ t₁ m₁).start b₂).frame.moved whole.code (bytes is₁) := by
        rw [hframe', hframe]
        simp [Frame.moved, start, load]
      rw [Machine.frames, Machine.frames, hcallers', hmoved]
      exact .main h.embeds_second
    · exact absurd hcallers hinner

end Joined

theorem evalProgram_of_run [Casing] {p : Program} {m : Machine}
    (h : s.compileProgram p = .ok (bytecode, table))
    (hrun : (s.start bytecode).runFor fuel = (.finished, m)) :
    s.evalProgram fuel p =
      (⟨.ok m.lastPopped, m.written, m.trace.reverse⟩, s.after bytecode table m) := by
  rw [evalProgram, h]
  simp only [hrun]
  rfl

/-- Two sources that are evaluated one after the other do what a program with the statements of both
does. The first one must not return from its main code, for that would end the program. -/
theorem eval_append [Casing] (hs : s.Reachable) (hlimit : s.config.sizes.limit = 0) {v₁ : Value}
    (hfirst : (s.eval fuel₁ first).1.result = .ok v₁)
    (hreturn : ∀ bytecode table, s.compile first = .ok (bytecode, table) →
      ¬(s.start bytecode).ReturnsFromMain)
    (hsecond : ((s.eval fuel₁ first).2.eval fuel₂ second).1.result = .ok v)
    (hbody : (Program.parse second).program.body ≠ [])
    (hwhole : s.compileProgram
      ((Program.parse first).program.append (Program.parse second).program) = .ok (whole, t))
    (hfuel : fuel₁ + fuel₂ ≤ fuel) :
    let one := s.eval fuel₁ first
    let two := one.2.eval fuel₂ second
    let both := s.evalProgram fuel
      ((Program.parse first).program.append (Program.parse second).program)
    both.1.result = .ok v ∧ both.1.output = one.1.output ++ two.1.output ∧
      both.2.globals = two.2.globals ∧ both.2.table = two.2.table ∧
      both.2.constants = two.2.constants ∧ both.2.fresh = two.2.fresh := by
  obtain ⟨b₁, t₁, m₁, h₁, hrun₁, -, hout₁, hafter₁⟩ := exists_of_eval hfirst
  have hok : (s.after b₁ t₁ m₁).Ok := hafter₁ ▸ eval_ok fuel₁ hs.ok first
  intro one two both
  rw [hafter₁] at hsecond
  obtain ⟨b₂, t₂, m₂, h₂, hrun₂, hv, hout₂, hafter₂⟩ := exists_of_eval hsecond
  obtain ⟨rfl, is₁, is₂, hjoined, hemits⟩ := joined hs.ok h₁ h₂ hok hwhole
  have hlaunched₁ := start_launched hs.ok h₁ hjoined.laid₁
  have hlaunched₂ := start_launched hok h₂ hjoined.laid₂
  have hreturn₁ := hreturn b₁ t₁ h₁
  obtain ⟨n₁, b, hn₁, hgoes₁, htwin₁, -, -⟩ := (hjoined.twin_start hlimit).finishes hlaunched₁
    (fun hreturns => absurd hreturns hreturn₁) hrun₁
  obtain ⟨hcallers, hlive, hframe⟩ := hlaunched₁.rests_of_run hreturn₁ hrun₁
  have hkeeps : (s.start b₁).Keeps m₁ := by
    have hended := hlaunched₁.ok.runFor hlaunched₁.pool fuel₁
    rw [hrun₁] at hended
    exact hended.keeps
  obtain ⟨n₂, b', hn₂, hgoes₂, htwin₂, hlast, hends⟩ :=
    (hjoined.twin_second hlimit htwin₁ hcallers hlive hframe hkeeps).finishes hlaunched₂
      (fun _ => hjoined.size_eq) hrun₂
  have hrunning : ((s.after b₁ t₁ m₁).start b₂).running = true := by
    obtain ⟨i, rest, rfl⟩ := List.exists_cons_of_ne_nil (emits_ne_nil hbody hemits)
    have hpos : 0 < b₂.code.size := by
      rw [hjoined.laid₂.eq, Code.size_ofInstrs, bytes_cons]
      exact Nat.add_pos_left i.op.size_pos _
    exact decide_eq_true hpos
  have hrun : (s.start whole).runFor fuel = (.finished, b') := by
    obtain ⟨extra, rfl⟩ : ∃ extra, fuel = n₁ + (n₂ + extra) := ⟨fuel - n₁ - n₂, by omega⟩
    rw [hgoes₁, hgoes₂, runFor_of_not_running (hends hjoined.size_eq)]
  have hboth : both = _ := evalProgram_of_run hwhole hrun
  have htwo : two.2 = (s.after b₁ t₁ m₁).after b₂ t m₂ := by
    rw [← hafter₂, ← hafter₁]
  have houtput : two.1.output = m₂.written := by
    rw [← hout₂, ← hafter₁]
  rw [hboth, htwo, houtput, hout₁]
  refine ⟨?_, ?_, htwin₂.globals, rfl, hjoined.constants, htwin₂.fresh⟩
  · rw [hlast hrunning, hv]
  · rw [written, htwin₂.output, List.reverse_append, List.flatten_append]
    rfl

/-- A call, and a condition after it whose jumps are moved behind the code of the call. -/
theorem eval_append_condition :
    let s := new ⟨64, 4, 4, 0, 0, []⟩ false
    let first : Bytes := "fn() { 1 }();"
    let second : Bytes := "if (fn() { 2 }() > 1) { [3, 4] } else { return 5 }"
    let program := (Program.parse first).program.append (Program.parse second).program
    (s.eval 9 first).1.result.isOk = true ∧
      ∃ v, ((s.eval 9 first).2.eval 20 second).1.result = .ok v ∧
        (s.evalProgram 29 program).1.result = .ok v ∧
        (s.evalProgram 29 program).1.output =
          (s.eval 9 first).1.output ++ ((s.eval 9 first).2.eval 20 second).1.output ∧
        (s.evalProgram 29 program).2.globals = ((s.eval 9 first).2.eval 20 second).2.globals ∧
        (s.evalProgram 29 program).2.table = ((s.eval 9 first).2.eval 20 second).2.table ∧
        (s.evalProgram 29 program).2.constants =
          ((s.eval 9 first).2.eval 20 second).2.constants := by
  intro s first second program
  have hisOk {ε α : Type} {x : Except ε α} (hx : x.isOk = true) : ∃ a, x = .ok a := by
    cases x with
    | ok a => exact ⟨a, rfl⟩
    | error e => cases hx
  have hs : s.Reachable := .new ⟨64, 4, 4, 0, 0, []⟩ false
  have hok : (s.eval 9 first).1.result.isOk = true := by decide +kernel
  obtain ⟨v₁, hfirst⟩ := hisOk hok
  have hsecond : ((s.eval 9 first).2.eval 20 second).1.result.isOk = true := by decide +kernel
  obtain ⟨v, hsecond⟩ := hisOk hsecond
  have hbody : (Program.parse second).program.body ≠ [] := by
    have hlength : (Program.parse second).program.body.length = 1 := by decide +kernel
    intro hnil
    rw [hnil] at hlength
    cases hlength
  have hwhole : (s.compileProgram program).isOk = true := by decide +kernel
  obtain ⟨⟨whole, t⟩, hwhole⟩ := hisOk hwhole
  have hreturn : ∀ bytecode table, s.compile first = .ok (bytecode, table) →
      ¬(s.start bytecode).ReturnsFromMain := by
    intro bytecode table hcompile
    have hwalk : ((s.compile first).toOption.all fun result => result.1.code.walk.all fun e =>
        e.2 matches .instr ⟨.closure, _⟩ | .instr ⟨.call, _⟩ | .instr ⟨.pop, _⟩) = true := by
      decide +kernel
    rw [hcompile] at hwalk
    obtain ⟨is, hlaid, -⟩ := laid_main hs.context_ok hcompile
    refine (start_launched hs.ok hcompile hlaid).not_returnsFromMain ?_
    intro o i hi hreturns
    have hmatches := List.all_eq_true.1 hwalk _ hi
    obtain ⟨op, operands⟩ := i
    obtain rfl | rfl := hreturns
    · cases hmatches
    · cases hmatches
  obtain ⟨hresult, houtput, hglobals, htable, hconstants, -⟩ :=
    eval_append hs rfl hfirst hreturn hsecond hbody hwhole (Nat.le_refl (9 + 20))
  exact ⟨hok, v, hsecond, hresult, houtput, hglobals, htable, hconstants⟩

end Session

end StackScript
