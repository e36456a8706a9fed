import StackScript.Proofs.Compile.Occurrence
import StackScript.Proofs.Machine.Stations
import StackScript.Proofs.Session.Evaluation
import StackScript.Text.Lower

/-!
# The stack discipline of compiled sources

A source that compiles is run so that the height of the stack is known from the
instruction alone. Above the locals of a function there are as many values as
paths through its code bring there, whichever path was taken and however many
calls are in progress. Statements start with none of them, a condition adds one,
and the result of a call takes the place of the callee and its arguments.

## Main definitions

* `Bytecode.HasCode`: the main code and the codes of the functions.
* `Session.Disciplined`: the stack discipline of a source.

## Main results

* `Session.compile_disciplined`: every source that compiles is disciplined.
-/

namespace StackScript

/-- The main code, or the code of a function among the constants. -/
def Bytecode.HasCode (b : Bytecode) (code : Code) : Prop :=
  code = b.code ∨ ∃ f, .function (some f) ∈ b.constants ∧ code = f.code

namespace Session

/-- The stack discipline of a program that has been compiled in a session. -/
structure Disciplined [Casing] (s : Session) (program : Program) (bytecode : Bytecode) : Prop where
  /-- An instruction is executed at its offset, with as many values as its offset has. -/
  height : ∀ n m, (s.start bytecode).dispatch n = some m →
    (∃ i, (m.frame.next, .instr i) ∈ m.frame.fn.code.walk) ∧
      m.sp = m.frame.base + m.frame.fn.locals + m.frame.fn.code.depth m.frame.next
  /-- In the main code the stack has these values only. -/
  main : ∀ n m, (s.start bytecode).dispatch n = some m → m.callers = #[] →
    m.frame.fn.code = bytecode.code ∧ m.sp = bytecode.code.depth m.frame.next
  /-- All other frames execute functions among the constants. -/
  called : ∀ n m, (s.start bytecode).dispatch n = some m → m.callers ≠ #[] →
    .function (some m.frame.fn) ∈ bytecode.constants
  /-- A statement of the program or of a function's body starts with no values. -/
  statements : ∀ code first stmt rest offset, bytecode.HasCode code →
    code.Splits first (stmt :: rest) offset → code.depth offset = 0
  /-- The main code is that of the program's statements. -/
  mainCode : ∀ first rest, program.body = first ++ rest →
    ∃ offset, bytecode.code.Splits first rest offset
  /-- The code of a function is that of the statements of its body. -/
  functionCode : ∀ f, .function (some f) ∈ bytecode.constants → ∃ body : Block,
    ∀ first rest, body.body = first ++ rest → ∃ offset, f.code.Splits first rest offset
  /-- A call of a function that executes a condition from its start to its end, through whichever
  branch, has one value more then. -/
  conditions : ∀ loc test yes no start stop j k mj mk, (s.start bytecode).SameActivation j k →
    (s.start bytecode).dispatch j = some mj → (s.start bytecode).dispatch k = some mk →
    mj.frame.fn.code.Holds (.cond loc test yes no) start stop → mj.frame.next = start →
    mk.frame.next = stop → mk.sp = mj.sp + 1
  /-- Every condition of the program, at any depth, stands in the main code or in a function. -/
  held : ∀ stmt ∈ program.body, ∀ loc test yes no, Within (.cond loc test yes no) (.inr stmt) →
    ∃ code start stop, bytecode.HasCode code ∧ code.Holds (.cond loc test yes no) start stop
  /-- When the instruction after a call is executed, the result of the call stands in the place of
  the callee and its arguments. -/
  calls : ∀ j k n mj mk, (s.start bytecode).SameActivation j k → j < k →
    (∀ l, j < l → l < k → ¬(s.start bytecode).SameActivation j l) →
    (s.start bytecode).dispatch j = some mj → (s.start bytecode).dispatch k = some mk →
    mj.frame.fn.code.fetch mj.frame.next = some (.instr ⟨.call, [n]⟩) →
    ∃ below callee args result, mj.live = below ++ callee :: args ∧ args.length = n ∧
      mk.live = below ++ [result] ∧ (s.start bytecode).Answers j k args result callee

variable {s : Session} {source : Bytes} {bytecode : Bytecode} {table : Table}

/-- Code is laid out from the statements of a program. -/
theorem laid_of_emits {p : Program} {σ : Context} {code : Code} {is : List Instr}
    {constants : Array Value} (hσ : σ.Ok) (hcode : code = .ofInstrs is)
    (hemits : p.Emits 0 σ is ⟨constants, table, []⟩) : code.Laid is := by
  obtain ⟨hok, -, hlegal, hsettled⟩ := emits_spec hσ hemits
  refine ⟨⟨hcode, ?_⟩, hsettled⟩
  intro i hi
  exact (hlegal i hi).fits hok.globals (Nat.zero_le _) (Nat.zero_le _)

/-- The main code is laid out from the statements of the source. -/
theorem laid_main (hs : s.context.Ok) (h : s.compile source = .ok (bytecode, table)) :
    ∃ is, bytecode.code.Laid is ∧
      (Program.parse source).program.Emits 0 s.context is ⟨bytecode.constants, table, []⟩ := by
  obtain ⟨-, is, hcode, hemits⟩ := compile_emits h
  exact ⟨is, laid_of_emits hs hcode hemits, hemits⟩

/-- The code of a function is laid out from the statements of its body. -/
theorem laid_function (hok : (⟨bytecode.constants, table, []⟩ : Context).Ok) {f : Function}
    (hf : .function (some f) ∈ bytecode.constants) : ∃ is, f.code.Laid is ∧ f.Meant is := by
  obtain ⟨hlocals, is, free, hmeant, hcode, hfree, hlegal, hsettled⟩ := (hok.pool _ hf).formed
  refine ⟨is, ⟨⟨hcode, ?_⟩, hsettled⟩, hmeant⟩
  intro i hi
  exact (hlegal i hi).fits hok.globals hlocals hfree

theorem laid_of_hasCode (hs : s.context.Ok) (h : s.compile source = .ok (bytecode, table))
    {code : Code} (hcode : bytecode.HasCode code) : ∃ is, code.Laid is := by
  obtain rfl | ⟨f, hf, rfl⟩ := hcode
  · obtain ⟨is, hlaid, -⟩ := laid_main hs h
    exact ⟨is, hlaid⟩
  · obtain ⟨_, _, _, hok, _⟩ := compile_spec hs h
    obtain ⟨is, hlaid, -⟩ := laid_function hok hf
    exact ⟨is, hlaid⟩

/-- At the start of a run there is the main frame only, and nothing is on the stack. -/
theorem start_tidy (s : Session) (bytecode : Bytecode) :
    (s.start bytecode).Tidy bytecode.constants := by
  refine ⟨?_, List.pairwise_singleton _ _, nofun⟩
  intro x hx
  obtain rfl := List.mem_singleton.1 hx
  exact ⟨0, .refl, rfl⟩

/-- A source is launched on a machine of its own. -/
theorem start_launched (hs : s.Ok) (h : s.compile source = .ok (bytecode, table)) {is : List Instr}
    (hlaid : bytecode.code.Laid is) :
    Machine.Launched bytecode.constants table.definitions is (s.start bytecode) := by
  obtain ⟨_, _, _, hok, _⟩ := compile_spec hs.context h
  refine ⟨start_ok hs h, pool_ok hok, start_tidy s bytecode, rfl, List.take_zero, rfl, hlaid, rfl,
    rfl, ?_⟩
  intro f hf
  obtain ⟨is, hlaid, σ, params, body, t, τ, -, -, -, rfl⟩ := laid_function hok hf
  obtain ⟨t', i, hends, hi⟩ := Instr.close_ends t
  rw [hends] at hlaid
  exact ⟨t', i, hlaid, hi⟩

/-- A frame without callers is the main one. -/
theorem frame_main [Casing] (hs : s.Ok) (h : s.compile source = .ok (bytecode, table)) {n : Nat}
    {m : Machine} (hm : (s.start bytecode).dispatch n = some m) (hcallers : m.callers = #[]) :
    ∃ next, m.frame = { (s.start bytecode).frame with next := next } := by
  obtain ⟨is, hlaid, -⟩ := laid_main hs.context h
  exact (start_launched hs h hlaid).frame_main hm hcallers

/-- A frame with callers executes a function among the constants. -/
theorem frame_called [Casing] (hs : s.Ok) (h : s.compile source = .ok (bytecode, table)) {n : Nat}
    {m : Machine} (hm : (s.start bytecode).dispatch n = some m) (hcallers : m.callers ≠ #[]) :
    .function (some m.frame.fn) ∈ bytecode.constants := by
  obtain ⟨_, _, _, hok, _⟩ := compile_spec hs.context h
  exact ((start_ok hs h).tidy (pool_ok hok) (start_tidy s bytecode) hm).called_frame hcallers

theorem hasCode_frame [Casing] (hs : s.Ok) (h : s.compile source = .ok (bytecode, table)) {n : Nat}
    {m : Machine} (hm : (s.start bytecode).dispatch n = some m) :
    bytecode.HasCode m.frame.fn.code := by
  by_cases hcallers : m.callers = #[]
  · obtain ⟨next, hframe⟩ := frame_main hs h hm hcallers
    rw [hframe]
    exact .inl rfl
  · exact .inr ⟨_, frame_called hs h hm hcallers, rfl⟩

/-- The height of the stack at an instruction of a run. -/
theorem height_dispatch [Casing] (hs : s.Ok) (h : s.compile source = .ok (bytecode, table))
    {n : Nat} {m : Machine} (hm : (s.start bytecode).dispatch n = some m) :
    m.frame.base + m.frame.fn.locals + m.frame.fn.code.depth m.frame.next = m.live.length := by
  obtain ⟨_, _, _, hok, _⟩ := compile_spec hs.context h
  have htidy := (start_ok hs h).tidy (pool_ok hok) (start_tidy s bytecode) hm
  obtain ⟨d, hreaches, hd⟩ := htidy.anchored (m.frame, m.live.length) (List.mem_cons_self ..)
  obtain ⟨is, hlaid⟩ := laid_of_hasCode hs.context h (hasCode_frame hs h hm)
  rwa [hlaid.depth_eq hreaches]

/-- The statements of the program, or of a body, one after another in the code. -/
theorem splits_of_emits {code : Code} {σ τ : Context} {is : List Instr} {body first rest : List Stmt}
    (hemits : Emission.all (body.map Stmt.Emits) 0 σ is τ)
    (hcode : code.Encodes is ∨ code.Encodes (Instr.close is)) (hbody : body = first ++ rest) :
    ∃ offset, code.Splits first rest offset := by
  rw [hbody, List.map_append, Emission.all_append] at hemits
  obtain ⟨t, τ', u, ht, hu, rfl⟩ := hemits
  rw [Nat.zero_add] at hu
  exact ⟨_, σ, t, τ', u, τ, ht, hu, rfl, hcode⟩

/-- Every expression of the program, at any depth, stands in the main code or in a function. -/
theorem exists_holds (hs : s.context.Ok) (h : s.compile source = .ok (bytecode, table)) {stmt : Stmt}
    (hstmt : stmt ∈ (Program.parse source).program.body) {e : Expr} (hwithin : Within e (.inr stmt)) :
    ∃ code start stop, bytecode.HasCode code ∧ code.Holds e start stop := by
  obtain ⟨is, hlaid, hemits⟩ := laid_main hs h
  rw [Program.Emits, emitsBody_eq] at hemits
  obtain ⟨before, seg, after, σ, τ, rfl, -, he⟩ | ⟨f, start, stop, hf, hholds⟩ :=
    (body_shows hstmt (within_shows hwithin)).shown _ _ _ _ hemits hs
  · rw [Nat.zero_add] at he
    exact ⟨bytecode.code, _, _, .inl rfl, before, seg, after, σ, τ, hlaid.toEncodes, he, rfl, rfl⟩
  · exact ⟨f.code, start, stop, .inr ⟨f, hf, rfl⟩, hholds⟩

/-- Every source that compiles in a session keeps the stack discipline. -/
theorem compile_disciplined [Casing] (hs : s.Reachable)
    (h : s.compile source = .ok (bytecode, table)) :
    s.Disciplined (Program.parse source).program bytecode := by
  obtain ⟨_, _, _, hcontext, _⟩ := compile_spec hs.context_ok h
  have hpool := pool_ok hcontext
  have hok := start_ok hs.ok h
  have htidy := start_tidy s bytecode
  have hsp {n : Nat} {m : Machine} (hm : (s.start bytecode).dispatch n = some m) :
      m.live.length = m.sp := (hok.dispatch hpool hm).1.fits.length_live
  constructor
  case height =>
    intro n m hm
    obtain ⟨hm_ok, hrunning, -⟩ := hok.dispatch hpool hm
    obtain ⟨i, -, -, -, -, -, hwalk⟩ := hm_ok.ready hpool hrunning
    exact ⟨⟨i, hwalk⟩, by rw [← hsp hm, height_dispatch hs.ok h hm]⟩
  case main =>
    intro n m hm hcallers
    obtain ⟨next, hframe⟩ := frame_main hs.ok h hm hcallers
    have hheight := height_dispatch hs.ok h hm
    rw [hsp hm, hframe] at hheight
    rw [hframe]
    exact ⟨rfl, by rw [← hheight]; exact Nat.zero_add _⟩
  case called =>
    intro n m hm hcallers
    exact frame_called hs.ok h hm hcallers
  case statements =>
    intro code first stmt rest offset hcode hsplits
    obtain ⟨is, hlaid⟩ := laid_of_hasCode hs.context_ok h hcode
    exact hlaid.depth_splits hsplits
  case mainCode =>
    intro first rest hbody
    obtain ⟨is, hlaid, hemits⟩ := laid_main hs.context_ok h
    rw [Program.Emits, emitsBody_eq] at hemits
    exact splits_of_emits hemits (.inl hlaid.toEncodes) hbody
  case functionCode =>
    intro f hf
    obtain ⟨is, hlaid, σ, params, body, t, τ, hemits, -, -, rfl⟩ := laid_function hcontext hf
    rw [Block.emits_eq] at hemits
    exact ⟨body, fun first rest hbody => splits_of_emits hemits (.inr hlaid.toEncodes) hbody⟩
  case conditions =>
    intro loc test yes no start stop j k mj mk hsame hj hk hholds hstart hstop
    obtain ⟨is, hlaid⟩ := laid_of_hasCode hs.context_ok h (hasCode_frame hs.ok h hj)
    obtain ⟨d', hd', hpath⟩ := hok.activation_path hpool hsame hj hk (height_dispatch hs.ok h hj)
    rw [hstart, hstop] at hpath
    have hone := hlaid.path_holds hholds hpath
    have hheight := height_dispatch hs.ok h hj
    rw [hstart] at hheight
    rw [← hsp hj, ← hsp hk]
    omega
  case held =>
    intro stmt hstmt loc test yes no hwithin
    exact exists_holds hs.context_ok h hstmt hwithin
  case calls =>
    intro j k n mj mk hsame hlt hnone hj hk hcall
    exact (hok.call_completes hpool htidy hsame hlt hnone hj hk hcall).2

/-- A call of a function with a condition in it. -/
theorem compile_disciplined_call :
    ∃ bytecode table,
      (new ⟨64, 4, 4, 0, 0, []⟩ false).compile
        "fn() { if (1 < 2) { 3 } else { return 4 } }()" = .ok (bytecode, table) ∧
      (new ⟨64, 4, 4, 0, 0, []⟩ false).Disciplined
        (Program.parse "fn() { if (1 < 2) { 3 } else { return 4 } }()").program
        bytecode := by
  have htest : ((new ⟨64, 4, 4, 0, 0, []⟩ false).compile
      "fn() { if (1 < 2) { 3 } else { return 4 } }()").toOption.any (fun _ => true) = true := by
    decide +kernel
  obtain ⟨bytecode, table, hcompile, -⟩ := exists_compile htest
  exact ⟨bytecode, table, hcompile,
    compile_disciplined (.new ⟨64, 4, 4, 0, 0, []⟩ false) hcompile⟩

end Session

end StackScript
