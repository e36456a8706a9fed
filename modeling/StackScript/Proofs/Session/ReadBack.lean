import StackScript.Proofs.Compile.LiteralCode
import StackScript.Proofs.Session.Meaning
import StackScript.Proofs.Session.StackDiscipline
import StackScript.Proofs.Value.EntryOrder
import StackScript.Text.Lower

/-!
# Printed values read back

The text of a plain value is a source whose value is the value itself: its tokens
form a literal, the literal stands for the value, and the compiled literal is run
with the result that its evaluation has. What is left are the limits of the
machine. There may be more elements or constants than an operand can count, and
the stack may have too few places. Neither happens to a value that has few parts.

## Main results

* `Value.Plain.eq_of_outline`: a plain value is known by its outline.
* `Session.live_le_climb`: a stack that overflows without a call has less room than code needs.
* `Session.eval_inspect`: a plain value is read back from its text.
-/

namespace StackScript

/-- A plain value has no code in it that an outline could leave out. -/
theorem Value.Plain.eq_of_outline {v w : Value} (h : v.Plain) (hw : w.outline = v) : w = v := by
  have hsimple {v w : Value} (h : v.Simple) (hw : w.outline = v) : w = v := by
    cases h <;> cases w <;> simp_all [outline]
  induction h generalizing w with
  | simple h => exact hsimple h hw
  | array _ ih =>
    cases w with
    | array items =>
      rw [outline_array] at hw
      obtain rfl := Value.array.inj hw
      congr 1
      refine (List.map_id' items).symm.trans (List.map_congr_left fun w hw => ?_)
      exact ih w.outline (List.mem_map_of_mem hw) rfl
    | _ => cases hw
  | @hash entries hkeys _ _ ih =>
    cases w with
    | hash shown =>
      rw [outline_hash] at hw
      have hentries := Value.hash.inj hw
      have hmem : ∀ e ∈ shown, outlineEntry e ∈ entries := fun e he =>
        Entry.file_subset entries (hentries ▸ List.mem_map_of_mem he)
      rw [← hentries]
      congr 1
      refine (List.map_id' shown).symm.trans (List.map_congr_left fun e he => ?_)
      have hkey := hsimple (hkeys _ (hmem e he)) rfl
      have hvalue := ih _ (hmem e he) rfl
      exact Prod.ext rfl (Prod.ext hkey hvalue)
    | _ => cases hw

/-- A program that is a literal has the value that the literal stands for. -/
theorem Program.eval_literal [Casing] {loc : Loc} {e : Expr} {v : Value} (h : e.Builds v)
    (start : StartRule) (depth : Nat) (globals : List Bytes) :
    ((Program.ofBody [.expr loc e]).eval start depth globals).Yields v := by
  have hbody : (evalBody (apply start depth) none ⟨globals, []⟩ .none [.expr loc e]).Yields
      (.shown v) := .bind (.bind (h.eval _) (.pure _)) (.pure _)
  exact .catchReturn (.bind hbody (.pure _))

namespace Session

variable {s : Session} {source : Bytes} {bytecode : Bytecode} {table : Table} {v : Value}

/-- The text of a value is compiled if the value has few parts. -/
theorem compile_inspect (h : v.Plain) {e : EvalError} (hcompile : s.compile v.inspect = .error e) :
    ∃ err what, e = .compile err ∧ err.cause = .operandOverflow what ∧
      maxOperand 2 + 1 < s.constants.size + v.parts := by
  obtain ⟨loc, e', hbuilds, hparse⟩ := Program.parse_inspect h
  have hnew := Program.adds_literal loc hbuilds s.copies
  rw [compile_of_parse (by rw [hparse]), hparse, compileProgram] at hcompile
  cases hresult : (Program.ofBody [.expr loc e']).compile s.copies with
  | ok u c =>
    rw [hresult] at hcompile
    cases hcompile
  | error err c =>
    rw [Compile.Sat, hresult] at hnew
    rw [hresult] at hcompile
    cases hcompile
    obtain ⟨⟨what, hwhat⟩, hroom⟩ := hnew
    rw [constants_copies] at hroom
    exact ⟨err, what, rfl, hwhat, hroom⟩

/-- The instruction at which a run ends in a fault. -/
theorem exists_failed_of_eval [Casing] (hs : s.Ok) (h : s.compile source = .ok (bytecode, table))
    {fuel : Nat} {e : RuntimeError} (he : (s.eval fuel source).1.result = .error (.runtime e)) :
    ∃ n m m', (s.start bytecode).dispatch n = some m ∧ (s.start bytecode).Keeps m ∧
      Machine.Failed bytecode.constants table.definitions m e.fault m' := by
  obtain ⟨_, _, _, hcontext, _⟩ := compile_spec hs.context h
  have hending : ((s.start bytecode).runFor fuel).1 = .stopped (.fault e) := by
    rw [eval_of_compile h] at he
    change resultOf _ ((s.start bytecode).runFor fuel).1 = _ at he
    generalize ((s.start bytecode).runFor fuel).1 = ending at he
    cases ending with
    | finished => cases he
    | unfinished => cases he
    | stopped stop =>
      cases stop with
      | crash => cases he
      | fault e' => cases he; rfl
  obtain ⟨n, m, m', hn, hfailed⟩ := (start_ok hs h).exists_failed (pool_ok hcontext) hending
  exact ⟨n, m, m', hn, ((start_ok hs h).dispatch (pool_ok hcontext) hn).2.2, hfailed⟩

/-- Without functions there is the main code only, and it needs no more places than it raises the
stack. -/
theorem live_le_climb [Casing] (hs : s.Ok) (h : s.compile source = .ok (bytecode, table))
    (hfunctions : ∀ f, .function f ∉ bytecode.constants) {is : List Instr}
    (hlaid : bytecode.code.Laid is) {n : Nat} {m : Machine}
    (hn : (s.start bytecode).dispatch n = some m) : m.live.length ≤ Instr.climb is := by
  have hcallers : m.callers = #[] := by
    by_contra hcalled
    exact hfunctions _ (frame_called hs h hn hcalled)
  obtain ⟨next, hframe⟩ := frame_main hs h hn hcallers
  obtain ⟨_, _, _, hcontext, _⟩ := compile_spec hs.context h
  have htidy := (start_ok hs h).tidy (pool_ok hcontext) (start_tidy s bytecode) hn
  obtain ⟨d, hreaches, hd⟩ := htidy.anchored (m.frame, m.live.length) (List.mem_cons_self ..)
  rw [hframe] at hreaches hd
  have hle := hlaid.reaches_le hreaches
  change 0 + 0 + d = m.live.length at hd
  omega

/-- Why the run of a plain value's text may be cut off. -/
theorem cut_of_inspect [Casing] (hs : s.Ok) (hnew : s.constants = #[]) (h : v.Plain)
    (hcompile : s.compile v.inspect = .ok (bytecode, table)) (hnames : table.definitions = 0)
    {fuel : Nat} {e : RuntimeError}
    (he : (s.eval fuel v.inspect).1.result = .error (.runtime e)) (hcut : e.fault.Cut) :
    e.fault = .stackOverflow ∧ s.config.sizes.stack ≤ v.parts + maxOperand 1 ∨
      ∃ n, e.fault = .instructionLimit n ∧ 0 < s.config.limit := by
  obtain ⟨n, m, m', hn, hkeeps, hfailed⟩ := exists_failed_of_eval hs hcompile he
  have hknown := hfailed.known
  have hforced := hfailed.forced
  cases hfault : e.fault with
  | stackOverflow =>
    refine .inl ⟨rfl, ?_⟩
    obtain ⟨loc, e', hbuilds, hparse⟩ := Program.parse_inspect h
    obtain ⟨is, hlaid, hemits⟩ := laid_main hs.context hcompile
    rw [hparse] at hemits
    obtain ⟨hclimb, hconstants⟩ := Program.climbs_literal loc hbuilds _ _ _ _ hemits
    have hfunctions : ∀ f, .function f ∉ bytecode.constants := by
      intro f hf
      have hmem : .function f ∈ s.constants := hconstants f hf
      rw [hnew] at hmem
      exact Array.not_mem_empty _ hmem
    have hlive := live_le_climb hs hcompile hfunctions hlaid hn
    have hsize : m.stack.size = s.config.sizes.stack := hkeeps.stack.trans Array.size_replicate
    rw [hfault] at hforced
    change m.stack.size ≤ m.live.length + maxOperand 1 at hforced
    omega
  | instructionLimit n =>
    refine .inr ⟨n, rfl, ?_⟩
    rw [hfault] at hforced
    have hlimit : 0 < m.limit := hforced
    rw [hkeeps.limit] at hlimit
    change 0 < s.config.limit.toNat at hlimit
    omega
  | globalRange slot size =>
    rw [hfault, hnames] at hknown
    exact absurd hknown.2 (Nat.not_lt_zero _)
  | _ => rw [hfault] at hcut; exact hcut.elim

/-- Printed values read back. The text of a plain value, evaluated in a new session, has the value
itself as its result. It fails only for want of room: the value has too many parts for the operands
of instructions or for the stack, or there is a limit to the number of instructions. -/
theorem eval_inspect [Casing] (config : Config) (tracing : Bool) (h : v.Plain) :
    ∃ n, ∀ fuel, n ≤ fuel →
      let result := ((new config tracing).eval fuel v.inspect).1.result
      result = .ok v ∨
      (∃ e what, result = .error (.compile e) ∧ e.cause = .operandOverflow what ∧
        65536 < v.parts) ∨
      (∃ e, result = .error (.runtime e) ∧ e.fault = .stackOverflow ∧
        config.sizes.stack ≤ v.parts + 255) ∨
      ∃ e k, result = .error (.runtime e) ∧ e.fault = .instructionLimit k ∧ 0 < config.limit := by
  cases hcompile : (new config tracing).compile v.inspect with
  | error e =>
    obtain ⟨err, what, rfl, hwhat, hroom⟩ := compile_inspect h hcompile
    refine ⟨0, fun fuel _ => .inr (.inl ⟨err, what, ?_, hwhat, ?_⟩)⟩
    · rw [eval_of_error hcompile]
    · rw [← Nat.zero_add v.parts]
      exact hroom
  | ok code =>
    obtain ⟨bytecode, table⟩ := code
    obtain ⟨loc, e, hbuilds, hparse⟩ := Program.parse_inspect h
    have hok : (new config tracing).Ok := Reachable.ok (.new config tracing)
    have hrep := represents_new config tracing
    have hnames : table.definitions = 0 := by
      have hmatch := hrep.names_compile hok.context hcompile
      rw [hmatch.lists.count, hparse, Program.names]
      change ((e.lets ++ []).foldl addName []).length = 0
      rw [hbuilds.lets]
      rfl
    obtain ⟨n, htells⟩ := hrep.tells hok hcompile
    refine ⟨n, fun fuel hfuel => ?_⟩
    obtain ⟨st', -, ⟨err, hresult, hcut⟩ | htells⟩ := htells fuel hfuel
    · obtain ⟨hstack, hroom⟩ | ⟨k, hk, hlimit⟩ :=
        cut_of_inspect hok rfl h hcompile hnames hresult hcut
      · exact .inr (.inr (.inl ⟨err, hresult, hstack, hroom⟩))
      · exact .inr (.inr (.inr ⟨err, k, hresult, hk, hlimit⟩))
    -- Of a result only the outline is told, which is all there is to a plain value.
    · rw [hparse, Program.eval_literal hbuilds] at htells
      generalize hvalue : (EStateM.Result.ok v _ : EStateM.Result Break Store Value) = r at htells
      cases htells with
      | @value w hw _ =>
        obtain ⟨houtline, -⟩ := EStateM.Result.ok.inj hvalue
        obtain rfl : w = v := h.eq_of_outline houtline.symm
        exact .inl hw
      | fault => cases hvalue
      | tooDeep => cases hvalue

/-- A hash in an array, with entries that are printed in another order than that of their keys. -/
theorem eval_inspect_nested :
    let v : Value := .array [.int (-5), .hash (Entry.file
      [(⟨.bool, 0⟩, .bool false, .array [.int 2]), (⟨.int, 3⟩, .int 3, .int (-40)),
        (⟨.int, 12⟩, .int 12, .bool true)])]
    v.Plain ∧ v.inspect = "[-5, {12: true, 3: -40, false: [2]}]" ∧
      ∃ n, ∀ fuel, n ≤ fuel → ((new .default false).eval fuel v.inspect).1.result = .ok v := by
  intro v
  have hplain : v.Plain := by
    refine .array (List.forall_mem_cons.2 ⟨.simple (.int (by decide)),
      List.forall_mem_singleton.2 (.hash ?_ ?_ ?_)⟩)
    · exact List.forall_mem_cons.2 ⟨.bool false, List.forall_mem_cons.2 ⟨.int (by decide),
        List.forall_mem_singleton.2 (.int (by decide))⟩⟩
    · exact List.forall_mem_cons.2 ⟨rfl, List.forall_mem_cons.2 ⟨rfl,
        List.forall_mem_singleton.2 rfl⟩⟩
    · exact List.forall_mem_cons.2
        ⟨.array (List.forall_mem_singleton.2 (.simple (.int (by decide)))),
        List.forall_mem_cons.2 ⟨.simple (.int (by decide)),
          List.forall_mem_singleton.2 (.simple (.bool true))⟩⟩
  have hv : v = .array [.int (-5), .hash [(⟨.int, 3⟩, .int 3, .int (-40)),
      (⟨.int, 12⟩, .int 12, .bool true), (⟨.bool, 0⟩, .bool false, .array [.int 2])]] := by
    simp [v, Entry.file, Entry.keepLast, List.mergeSort, HashKey.le, KeyKind.ctorIdx]
  have hparts : v.parts = 10 := by
    rw [hv]
    decide +kernel
  have htext : v.inspect = "[-5, {12: true, 3: -40, false: [2]}]" := by
    rw [hv]
    refine (Value.Reorders.item [.int (-5)] [] (.entries (.swap _ _ _))).inspect_eq.trans ?_
    simp only [List.cons_append, List.nil_append, Value.inspect, Value.inspectItems]
    rw [List.mergeSort_of_pairwise (by decide +kernel)]
    decide +kernel
  obtain ⟨n, hn⟩ := eval_inspect .default false hplain
  refine ⟨hplain, htext, n, fun fuel hfuel => ?_⟩
  rw [hparts] at hn
  obtain hvalue | ⟨_, _, -, -, hmany⟩ | ⟨_, -, -, hstack⟩ | ⟨_, _, -, -, hlimit⟩ := hn fuel hfuel
  · exact hvalue
  · exact absurd hmany (by decide)
  · exact absurd hstack (by decide +kernel)
  · exact absurd hlimit (by decide)

end Session

end StackScript
