import StackScript.Proofs.Compile.Stores
import StackScript.Proofs.Machine.Retained
import StackScript.Proofs.Session.Evaluation
import StackScript.Text.Lower

/-!
# What an evaluation does to the global variables

A source changes the global variables that it binds itself, outside all function
literals. All others are as they were, however the evaluation ends and whatever
closures it has called: those of this source, and those that earlier sources
have left in the global store.

## Main results

* `Machine.Ok.runFor_globals`: a run stores where its code does.
* `Session.Reachable.eval_globals`: an evaluation leaves all other variables alone.
-/

namespace StackScript

namespace Machine

variable {P : Array Value} {G h h' : Nat} {W : Set Nat} {m : Machine} {fs fs' : List Frame}

/-- Functions are called among the constants only. -/
theorem Moves.storesIn (hmoves : Moves P h fs h' fs')
    (hP : ∀ f, .function (some f) ∈ P → f.code.StoresIn W) (hfs : ∀ f ∈ fs, f.fn.code.StoresIn W) :
    ∀ f ∈ fs', f.fn.code.StoresIn W := by
  cases hmoves with
  | goes => exact List.forall_mem_cons.2 (List.forall_mem_cons.1 hfs)
  | calls _ hg =>
    exact List.forall_mem_cons.2 ⟨hP _ hg, List.forall_mem_cons.2 (List.forall_mem_cons.1 hfs)⟩
  | returns => exact (List.forall_mem_cons.1 hfs).2

/-- A step of a safe machine stores where the code of its frames does. -/
theorem Ok.step_globals [Casing] (h : m.Ok P G) (hpool : PoolOk P G) (hrunning : m.running = true)
    (hcode : ∀ f ∈ m.frames, f.fn.code.StoresIn W) {k : Nat} (hk : k ∉ W) :
    (Exec.left (Machine.step m)).globals[k]? = m.globals[k]? := by
  obtain ⟨i, _, _, _, -, hfetch, hwalk⟩ := h.ready hpool hrunning
  refine Machine.step_globals m ?_
  intro hstore
  rw [hfetch] at hstore
  obtain rfl := Code.Fetched.instr.inj (Option.some.inj hstore)
  exact hk (hcode m.frame (List.mem_cons_self ..) _ k hwalk)

/-- A run of a safe machine stores where its code and that of the constants does. -/
theorem Ok.runFor_globals [Casing] (hpool : PoolOk P G)
    (hP : ∀ f, .function (some f) ∈ P → f.code.StoresIn W) {k : Nat} (hk : k ∉ W) (fuel : Nat)
    (h : m.Ok P G) (hcode : ∀ f ∈ m.frames, f.fn.code.StoresIn W) :
    (Machine.runFor fuel m).2.globals[k]? = m.globals[k]? := by
  induction fuel generalizing m with
  | zero => rfl
  | succ fuel ih =>
    rw [Machine.runFor]
    by_cases hrunning : m.running = true
    · rw [if_pos hrunning]
      have hstep := h.step hpool hrunning
      have hglobals := h.step_globals hpool hrunning hcode hk
      cases hresult : Machine.step m with
      | ok u m' =>
        have hstepped := hstep.of_ok hresult
        rw [hresult] at hglobals
        exact (ih hstepped.ok (hstepped.moves.storesIn hP hcode)).trans hglobals
      | error stop m' =>
        rw [hresult] at hglobals
        exact hglobals
    · rw [if_neg hrunning]

end Machine

namespace Session

variable {s : Session}

/-- An evaluation changes no global variable but those that its source binds outside all function
literals, however it ends. -/
theorem Reachable.eval_globals [Casing] (hs : s.Reachable) (fuel : Nat) (source : Bytes) {k : Nat}
    (hk : k ∉ (Program.parse source).program.boundSlots (s.eval fuel source).2.table) :
    (s.eval fuel source).2.globals[k]? = s.globals[k]? := by
  cases hcompile : s.compile source with
  | error e => rw [eval_of_error hcompile]
  | ok result =>
    obtain ⟨bytecode, table⟩ := result
    obtain ⟨is, hcode, hemits, hok, -, hlegal, -⟩ := compile_spec hs.context_ok hcompile
    rw [eval_of_compile hcompile] at hk ⊢
    have hpool := pool_ok hok
    have hmain : bytecode.code.StoresIn ((Program.parse source).program.boundSlots table) := by
      rw [hcode]
      refine Code.storesIn_ofInstrs ?_ hemits.stores
      intro i hi
      exact (hlegal i hi).fits hok.globals (Nat.zero_le _) (Nat.zero_le _)
    refine (start_ok hs.ok hcompile).runFor_globals hpool ?_ hk fuel ?_
    -- All closures, old ones too, are made of functions among the constants.
    · intro f hf offset n hn
      exact ((hpool.pooled _ hf).formed.storesIn hpool.few offset n hn).elim
    · intro f hf
      obtain rfl := List.mem_singleton.1 hf
      exact hmain

/-- A session that has bound its first name, to a number. -/
theorem exists_bound [Casing] : ∃ s : Session, s.Reachable ∧ s.table.find? "a" = some (.global 0) ∧
    s.globals[0]? = some (.int 1) := by
  have hname : Builtin.ofName? "a" = none := by decide +kernel
  have hfind := (Table.define_global hname).2
  obtain ⟨c, hlet, hcontext, hcode, -⟩ := exists_bind_int ⟨64, 4, 3, 0, 0, []⟩ false hname 1
  have hscan : Token.scan "let a = 1" =
      ([⟨.letKw, "let", ⟨0, 1, 1⟩⟩, ⟨.ident, "a", ⟨4, 1, 5⟩⟩, ⟨.assign, "=", ⟨6, 1, 7⟩⟩,
        ⟨.int, [49], ⟨8, 1, 9⟩⟩], ⟨.eof, "", ⟨9, 1, 9⟩⟩) := by
    decide +kernel
  obtain ⟨span, loc, idLoc, intLoc, hparse⟩ : ∃ span loc idLoc intLoc, Program.parse "let a = 1" =
      ⟨⟨span, [.bind loc ⟨idLoc, "a"⟩ (.int intLoc [49] 1)]⟩, []⟩ := by
    rw [Program.parse, hscan]
    exact ⟨_, _, _, _, rfl⟩
  have hcompile : (new ⟨64, 4, 3, 0, 0, []⟩ false).compile "let a = 1" =
      .ok (⟨.ofInstrs [⟨.const, [0]⟩, ⟨.setGlobal, [0]⟩], #[.int 1]⟩,
        (Table.global.define "a").2) := by
    rw [compile_eq, hparse]
    simp only [List.isEmpty_nil, if_true, compileProgram, Program.compile, compileBody, bind,
      EStateM.bind, hlet]
    have hconstants : c.constants = #[.int 1] := congrArg Context.constants hcontext
    have htable : c.scope.table = (Table.global.define "a").2 := congrArg Context.table hcontext
    rw [← hconstants, ← htable, ← hcode]
    rfl
  refine ⟨_, .perform 9 (.eval "let a = 1") (.new ⟨64, 4, 3, 0, 0, []⟩ false), ?_, ?_⟩
  · change ((new ⟨64, 4, 3, 0, 0, []⟩ false).eval 9 _).2.table.find? _ = _
    rw [eval_of_compile hcompile]
    exact hfind
  · change ((new ⟨64, 4, 3, 0, 0, []⟩ false).eval 9 _).2.globals[0]? = _
    rw [eval_of_compile hcompile]
    rfl

/-- A function has a local variable with the name of a global one. Calling it leaves the global
variable alone. -/
theorem eval_globals_shadowed :
    ∃ s : Session, s.Reachable ∧ s.table.find? "a" = some (.global 0) ∧
      s.globals[0]? = some (.int 1) ∧
      ∀ fuel, (s.eval fuel "fn() { let a = 2; a }()").2.globals[0]? = some (.int 1) := by
  obtain ⟨s, hs, hbound, hglobal⟩ := exists_bound
  refine ⟨s, hs, hbound, hglobal, fun fuel => (hs.eval_globals fuel _ ?_).trans hglobal⟩
  have hlets : letsBody (Program.parse "fn() { let a = 2; a }()").program.body = [] := by
    decide +kernel
  rintro ⟨x, hx, -⟩
  rw [hlets] at hx
  cases hx

end Session

end StackScript
