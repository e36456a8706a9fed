import StackScript.Proofs.Session.Evaluation
import StackScript.Text.Lower

/-!
# The code of a session is well formed

Whatever a session compiles decodes to the instructions that were meant, with
all operands in range and all jumps forward to instructions. The same holds of
every function constant, which ends in a return besides.

## Main definitions

* `Code.WellFormed`: code that decodes to given instructions within given limits.

## Main results

* `Session.compile_wellFormed`: compiled code is well formed.
-/

namespace StackScript

/-- The code decodes to the instructions that were meant, and to nothing else. Their operands are in
range, and jumps go forward to instructions. -/
structure Code.WellFormed (code : Code) (meant : List Instr) (l : Limits) : Prop where
  size : code.size = Instr.bytes meant
  decodes : code.walk = (located 0 meant).map found
  legal : ∀ offset i, (offset, .instr i) ∈ code.walk → i.Legal l
  jumps : ∀ offset i t, (offset, .instr i) ∈ code.walk → i.target? = some t →
    offset < t ∧ t < code.size ∧ ∃ j, (t, .instr j) ∈ code.walk

/-- Balanced code with legal instructions is well formed once it is encoded. -/
theorem Code.wellFormed_ofInstrs {is : List Instr} {l : Limits} {d d' : Nat}
    (hlegal : ∀ i ∈ is, i.Legal l) (hglobals : l.globals ≤ maxOperand 2 + 1)
    (hlocals : l.locals ≤ maxOperand 1) (hfree : l.free ≤ maxOperand 1)
    (hsettled : Settled 0 is d d') : (ofInstrs is).WellFormed is l := by
  have hfits : ∀ i ∈ is, i.Fits := fun i hi => (hlegal i hi).fits hglobals hlocals hfree
  refine ⟨size_ofInstrs is, walk_ofInstrs hfits, ?_, ?_⟩
  · intro offset i hi
    obtain ⟨before, j, after, rfl, -, hj⟩ := (mem_walk_ofInstrs hfits).1 hi
    obtain rfl := Fetched.instr.inj hj
    exact hlegal i (by simp)
  · intro offset i t hi ht
    obtain ⟨before, j, after, hsplit, rfl, hj⟩ := (mem_walk_ofInstrs hfits).1 hi
    obtain rfl := Fetched.instr.inj hj
    obtain ⟨depth, -, -, hflow⟩ := hsettled
    obtain ⟨hlt, hland, -⟩ := (hflow before i after hsplit).jumps t ht
    have hend := hland.lt
    obtain ⟨s, k, u, hsplit', rfl⟩ := hland
    rw [Nat.zero_add] at hlt
    rw [size_ofInstrs]
    refine ⟨by omega, by omega, k, (mem_walk_ofInstrs hfits).2 ⟨s, k, u, hsplit', ?_, rfl⟩⟩
    exact Nat.zero_add _

/-- The main code has no locals, no captured values and no closure of its own. -/
theorem Instr.Legal.op_main {i : Instr} {constants : Array Value} {globals : Nat}
    (h : i.Legal ⟨constants, globals, 0, 0, false⟩) :
    i.op ∉ [.getLocal, .setLocal, .getFree, .currentClosure] := by
  intro hmem
  cases h with
  | «local» _ hn => exact absurd hn (Nat.not_lt_zero _)
  | free hn => exact absurd hn (Nat.not_lt_zero _)
  | self hinside => cases hinside
  | plain hop hself =>
    simp only [List.mem_cons, List.not_mem_nil, or_false] at hmem
    obtain rfl | rfl | rfl | rfl := hmem
    · cases hop
    · cases hop
    · cases hop
    · exact hself rfl
  | global hop => rcases hop with rfl | rfl <;> simp at hmem
  | count hop => rcases hop with rfl | rfl <;> simp at hmem
  | jump hop => rcases hop with rfl | rfl <;> simp at hmem
  | const => simp at hmem
  | closure => simp at hmem
  | builtin b => simp at hmem
  | call => simp at hmem

namespace Session

/-- The main code of a source that compiles, and the code of every function constant, are well
formed. The main code uses what belongs to functions nowhere, functions end in a return, and the
constants are literals and functions only. -/
theorem compile_wellFormed [Casing] {s : Session} (hs : s.Reachable) {source : Bytes}
    {bytecode : Bytecode} {table : Table} (h : s.compile source = .ok (bytecode, table)) :
    (∃ meant,
      (Program.parse source).program.Emits 0 s.context meant ⟨bytecode.constants, table, []⟩ ∧
      bytecode.code.WellFormed meant
        ⟨bytecode.constants, table.globalNames.ncard, 0, 0, false⟩) ∧
    (∀ offset i, (offset, .instr i) ∈ bytecode.code.walk →
      i.op ∉ [.getLocal, .setLocal, .getFree, .currentClosure]) ∧
    (∀ v ∈ bytecode.constants, v.Literal ∨ ∃ f, v = .function (some f)) ∧
    ∀ f, .function (some f) ∈ bytecode.constants → ∃ meant free, f.Meant meant ∧
      f.code.WellFormed meant
        ⟨bytecode.constants, table.globalNames.ncard, f.locals, free, true⟩ ∧
      ∃ before last, meant = before ++ [last] ∧ last.Returns := by
  obtain ⟨is, hcode, hemits, hok, -, hlegal, hsettled⟩ := compile_spec hs.context_ok h
  have hglobals : table.globalNames.ncard = table.definitions := Table.ncard_globalNames hok.chain
  have hcount : table.definitions ≤ maxOperand 2 + 1 := hok.globals
  rw [hglobals]
  have hmain : bytecode.code.WellFormed is ⟨bytecode.constants, table.definitions, 0, 0, false⟩ := by
    rw [hcode]
    exact Code.wellFormed_ofInstrs hlegal hcount (Nat.zero_le _) (Nat.zero_le _) hsettled
  refine ⟨⟨is, hemits, hmain⟩, ?_, ?_, ?_⟩
  · intro offset i hi
    exact (hmain.legal offset i hi).op_main
  · intro v hv
    obtain hv | ⟨f, rfl, -⟩ := hok.pool v hv
    · exact .inl hv
    · exact .inr ⟨f, rfl⟩
  · intro f hf
    obtain ⟨hlocals, meant, free, hmeant, hfcode, hfree, hflegal, hfsettled⟩ := (hok.pool _ hf).formed
    refine ⟨meant, free, hmeant, ?_, ?_⟩
    · rw [hfcode]
      exact Code.wellFormed_ofInstrs hflegal hcount hlocals hfree hfsettled
    · obtain ⟨_, _, _, body, _, _, _, _, rfl⟩ := hmeant
      exact Instr.close_ends _

theorem compile_wellFormed_branches :
    ∃ bytecode table,
      (new ⟨64, 4, 4, 0, 0, []⟩ false).compile "if (1 < 2) { fn() { 3 } } else { [4] }" =
        .ok (bytecode, table) ∧
      (∃ meant, bytecode.code.WellFormed meant
        ⟨bytecode.constants, table.globalNames.ncard, 0, 0, false⟩) ∧
      ∃ f, .function (some f) ∈ bytecode.constants ∧ ∃ meant free, f.code.WellFormed meant
        ⟨bytecode.constants, table.globalNames.ncard, f.locals, free, true⟩ := by
  have htest : ((new ⟨64, 4, 4, 0, 0, []⟩ false).compile
      "if (1 < 2) { fn() { 3 } } else { [4] }").toOption.any
        (fun c => c.1.constants.any (0 < ·.instructionCount)) = true := by
    decide +kernel
  obtain ⟨bytecode, table, hcompile, hcount⟩ := exists_compile htest
  obtain ⟨f, hf⟩ : ∃ f, .function (some f) ∈ bytecode.constants := by
    obtain ⟨v, hv, hpos⟩ := Array.any_eq_true'.1 hcount
    cases v with
    | function fn =>
      cases fn with
      | some f => exact ⟨f, hv⟩
      | none => simp [Value.instructionCount] at hpos
    | _ => simp [Value.instructionCount] at hpos
  obtain ⟨⟨meant, -, hmain⟩, -, -, hfunctions⟩ :=
    compile_wellFormed (.new ⟨64, 4, 4, 0, 0, []⟩ false) hcompile
  obtain ⟨fmeant, free, -, hcode, -⟩ := hfunctions f hf
  exact ⟨bytecode, table, hcompile, ⟨meant, hmain⟩, f, hf, fmeant, free, hcode⟩

end Session

end StackScript
