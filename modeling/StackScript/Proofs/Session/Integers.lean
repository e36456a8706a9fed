import Mathlib.Data.Int.ModEq
import StackScript.Proofs.Machine.Arithmetic
import StackScript.Proofs.Machine.Completion
import StackScript.Proofs.Session.Evaluation
import StackScript.Text.Lower

/-!
# Integers wrap around

A session evaluates an expression of integers to its exact value, wrapped around
once, although every operation in between wraps. Quotients go toward zero and are
taken of the wrapped values. Otherwise the session has no room for the expression:
it has too many literals for the constants, or too many values wait for each
other on the stack, or the number of instructions is limited.

## Main definitions

* `Session.evalTree`: the result of a program that is given as a tree.
* `Session.NoRoom`: the result says that there is no room for an expression.
* `Wraps`: the integer with 64 bits that an integer is wrapped to.

## Main results

* `Session.eval_eq_evalTree`: the result of a source is that of its tree.
* `Session.evalTree_delivers`: the result of an expression of operators.
* `Session.integers_wrap`: expressions of integers.
-/

namespace StackScript

/-- The 64-bit integer is the one that `z` is wrapped to. -/
def Wraps (n : Int64) (z : Int) : Prop :=
  -2 ^ 63 ≤ n.toInt ∧ n.toInt ≤ 2 ^ 63 - 1 ∧ n.toInt ≡ z [ZMOD 2 ^ 64]

theorem wraps_ofInt (z : Int) : Wraps (.ofInt z) z := by
  refine ⟨Int64.le_toInt _, Int.le_sub_one_of_lt (Int64.toInt_lt _), ?_⟩
  rw [Int64.toInt_ofInt]
  exact Int.bmod_emod

/-- A quotient goes toward zero. There is one that is too large, and it wraps around. -/
theorem toInt_quotient (p q : Int64) :
    (p / q).toInt =
      if p.toInt = -2 ^ 63 ∧ q.toInt = -1 then -2 ^ 63 else p.toInt.tdiv q.toInt := by
  split
  · next h =>
    obtain rfl : p = Int64.minValue := Int64.toInt_inj.1 h.1
    obtain rfl : q = -1 := Int64.toInt_inj.1 h.2
    rfl
  · next h =>
    by_cases hp : p = Int64.minValue
    · refine Int64.toInt_div_of_ne_right p q ?_
      rintro rfl
      exact h ⟨by rw [hp]; rfl, rfl⟩
    · exact Int64.toInt_div_of_ne_left p q hp

/-- The program that is one expression. -/
theorem Program.emits_expr {loc : Loc} {e : Expr} {offset : Nat} {σ τ : Context} {is : List Instr}
    (h : (Program.ofBody [.expr loc e]).Emits offset σ is τ) :
    ∃ s, e.Emits offset σ s τ ∧ is = s ++ [⟨.pop, []⟩] := by
  obtain ⟨_, _, _, ⟨s, _, _, hs, ⟨rfl, rfl⟩, rfl⟩, ⟨rfl, rfl⟩, rfl⟩ := h
  exact ⟨s, hs, List.append_nil _⟩

namespace Machine

variable {m : Machine} {is : List Instr} {v : Value} {Q : Machine → Prop} {E : Fault → Prop}

/-- Code that leaves a value on the empty stack ends with the value when that is popped. -/
theorem Stands.finishes [Casing] (h : m.Stands is [⟨.pop, []⟩]) (hlive : m.live = [v])
    (hQ : ∀ m', ¬m'.running = true → m'.lastPopped = v → Q m')
    (hlimit : 0 < m.limit → E (.instructionLimit m.limit)) : m.Proceeds 1 Q E := by
  refine h.proceeds .nil (fun m₁ hpassed => ?_) hlimit
  refine Exec.pop_sat (S := []) hpassed.fits (hpassed.live.trans hlive) ?_
  intro m₂ hagrees _ _ hlast
  refine hQ m₂ ?_ hlast
  have hsize : m₁.frame.fn.code.size = m₁.frame.next := by
    rw [hpassed.frame]
    change m.frame.fn.code.size = m.frame.next + 1
    rw [h.code, h.next, Code.size_ofInstrs, Instr.bytes_append]
    rfl
  rw [running, hagrees.frame, hsize]
  simp

end Machine

namespace Session

variable {s : Session} {e : Expr} {loc : Loc} {fuel : Nat}

/-- The result of a program that is given as a tree, with at most `fuel` instructions. -/
def evalTree [Casing] (fuel : Nat) (s : Session) (p : Program) : Except EvalError Value :=
  match p.compile s.copies with
  | .error e _ => .error (.compile e)
  | .ok _ c =>
    let ended := (s.start c.bytecode).runFor fuel
    resultOf ended.2 ended.1

/-- A source without faults has the result of its tree. -/
theorem eval_eq_evalTree [Casing] {source : Bytes} (h : (Program.parse source).errors = []) :
    (s.eval fuel source).1.result = s.evalTree fuel (Program.parse source).program := by
  cases hresult : (Program.parse source).program.compile s.copies with
  | error err c =>
    have hcompile : s.compile source = .error (.compile err) := by
      rw [compile_of_parse h, compileProgram, hresult]
    rw [eval_of_error hcompile, evalTree, hresult]
  | ok u c =>
    have hcompile : s.compile source = .ok (c.bytecode, c.scope.table) := by
      rw [compile_of_parse h, compileProgram, hresult]
    rw [eval_of_compile hcompile, evalTree, hresult]

/-- The result says that there is no room for the expression: not for its literals among the
constants, not for its values on the stack, or not for its instructions. -/
def NoRoom (s : Session) (e : Expr) (result : Except EvalError Value) : Prop :=
  (∃ err what, result = .error (.compile err) ∧ err.cause = .operandOverflow what ∧
    65536 < s.constants.size + e.literals) ∨
  (∃ err, result = .error (.runtime err) ∧ err.fault = .stackOverflow ∧
    s.config.sizes.stack < e.height) ∨
  ∃ err k, result = .error (.runtime err) ∧ err.fault = .instructionLimit k ∧ 0 < s.config.limit

/-- What the machine of a session lacks, the session has no room for. -/
theorem noRoom_of_lacks {bytecode : Bytecode} {err : RuntimeError}
    (h : (s.start bytecode).Lacks e.height err.fault) : s.NoRoom e (.error (.runtime err)) := by
  obtain ⟨hfault, hlt⟩ | ⟨hfault, hlt⟩ := h
  · refine .inr (.inl ⟨err, rfl, hfault, ?_⟩)
    have hsize : (s.start bytecode).stack.size = s.config.sizes.stack := Array.size_replicate
    rwa [hsize, show (s.start bytecode).live = [] from List.take_zero, List.length_nil,
      Nat.zero_add] at hlt
  · refine .inr (.inr ⟨err, _, rfl, hfault, ?_⟩)
    change 0 < s.config.limit.toNat at hlt
    omega

/-- The result of a program that is one expression is what the code of the expression delivers,
unless there is no room. -/
theorem evalTree_delivers [Casing] {r : Except Fault Value} (h : e.Delivers r)
    (hadds : Compile.Adds e.compile e.literals) (hfuel : e.nodes < fuel) :
    s.NoRoom e (s.evalTree fuel (.ofBody [.expr loc e])) ∨
      (∃ v, r = .ok v ∧ s.evalTree fuel (.ofBody [.expr loc e]) = .ok v) ∨
      ∃ err : RuntimeError, r = .error err.fault ∧
        s.evalTree fuel (.ofBody [.expr loc e]) = .error (.runtime err) := by
  have hnew : Compile.Adds (Program.ofBody [.expr loc e]).compile e.literals :=
    .bind (.bind hadds fun _ => Compile.adds_emit _ _) fun _ => .pure _
  have hcompiled := hnew s.copies
  rw [Compile.Sat, constants_copies] at hcompiled
  rw [evalTree]
  cases hresult : (Program.ofBody [.expr loc e]).compile s.copies with
  | error err c =>
    rw [hresult] at hcompiled
    obtain ⟨⟨what, hwhat⟩, hroom⟩ := hcompiled
    exact .inl (.inl ⟨err, what, rfl, hwhat, hroom⟩)
  | ok u c =>
    obtain ⟨_, hcode, hemits⟩ := Program.bytecode_emits rfl rfl hresult
    obtain ⟨is, his, rfl⟩ := Program.emits_expr hemits
    have hstands : (s.start c.bytecode).Stands [] (is ++ [⟨.pop, []⟩]) :=
      ⟨hcode, rfl, Nat.zero_le _⟩
    have hlive : (s.start c.bytecode).live = [] := List.take_zero
    have hrun : (s.start c.bytecode).Proceeds (e.nodes + 1)
        (fun m => ¬m.running = true ∧ r = .ok m.lastPopped) fun f =>
          r = .error f ∨ (s.start c.bytecode).Lacks e.height f := by
      refine (h.runs _ _ _ _ his _ _ _ hstands List.prefix_rfl).bind ?_
      rintro m ⟨v, rfl, hpassed⟩
      refine (hstands.passed hpassed).finishes (hpassed.live.trans (by rw [hlive]; rfl)) ?_ ?_
      · intro m' hstopped hlast
        exact ⟨hstopped, by rw [hlast]⟩
      · intro hlimit
        rw [hpassed.limit] at hlimit ⊢
        exact .inr (Machine.lacks_limit _ hlimit)
    obtain ⟨m, hrun, hstopped, hr⟩ | ⟨err, m, hrun, hr⟩ := hrun
    · obtain ⟨rest, rfl⟩ := Nat.exists_eq_add_of_le hfuel
      dsimp only
      rw [hrun, Machine.runFor_of_not_running hstopped]
      exact .inr (.inl ⟨_, hr, rfl⟩)
    · dsimp only
      rw [hrun fuel hfuel]
      obtain hr | hlacks := hr
      · exact .inr (.inr ⟨err, hr, rfl⟩)
      · exact .inl (noRoom_of_lacks hlacks)

/-- Integers wrap around. The result of a source is that of its tree. For an expression that is built
from integer literals by minus signs, sums, differences and products, it is the 64-bit integer that
the exact value is wrapped to. For a quotient of two such expressions it is a fault exactly if the
divisor is wrapped to zero, and else the quotient of the wrapped values toward zero, where the one
that is too large wraps around. Either is missing only if there is no room for the expression. -/
theorem integers_wrap [Casing] (s : Session) (fuel : Nat) :
    (∀ source, (Program.parse source).errors = [] →
      (s.eval fuel source).1.result = s.evalTree fuel (Program.parse source).program) ∧
    (∀ loc e z, e.Exact z → e.nodes < fuel →
      let result := s.evalTree fuel (.ofBody [.expr loc e])
      s.NoRoom e result ∨ ∃ n, Wraps n z ∧ result = .ok (.int n)) ∧
    ∀ loc loc' a b x y, a.Exact x → b.Exact y → a.nodes + b.nodes + 1 < fuel →
      let result := s.evalTree fuel (.ofBody [.expr loc (.binary loc' .div a b)])
      s.NoRoom (.binary loc' .div a b) result ∨
        ∃ p q, Wraps p x ∧ Wraps q y ∧
          (q.toInt = 0 ∧ (∃ err, result = .error (.runtime err) ∧ err.fault = .divisionByZero) ∨
            q.toInt ≠ 0 ∧ ∃ r, result = .ok (.int r) ∧
              r.toInt =
                if p.toInt = -2 ^ 63 ∧ q.toInt = -1 then -2 ^ 63 else p.toInt.tdiv q.toInt) := by
  refine ⟨fun source => eval_eq_evalTree, ?_, ?_⟩
  · intro loc e z he hfuel result
    obtain hroom | ⟨v, hv, hresult⟩ | ⟨err, hv, -⟩ := evalTree_delivers he.delivers he.adds hfuel
    · exact .inl hroom
    · cases hv
      exact .inr ⟨_, wraps_ofInt z, hresult⟩
    · cases hv
  · intro loc loc' a b x y ha hb hfuel result
    have hadds := ha.adds.binary (o := .div) hb.adds (by decide) rfl loc'
    have hzero : (Int64.ofInt y).toInt = 0 ↔ Int64.ofInt y = 0 := by
      rw [← Int64.toInt_zero, Int64.toInt_inj]
    obtain hroom | ⟨v, hv, hresult⟩ | ⟨err, hv, hresult⟩ :=
      evalTree_delivers (Expr.delivers_quotient ha hb loc') hadds hfuel
    · exact .inl hroom
    · refine .inr ⟨_, _, wraps_ofInt x, wraps_ofInt y, .inr ?_⟩
      split at hv
      · cases hv
      · next hne =>
        cases hv
        exact ⟨mt hzero.1 hne, _, hresult, toInt_quotient _ _⟩
    · refine .inr ⟨_, _, wraps_ofInt x, wraps_ofInt y, .inl ?_⟩
      split at hv
      · next heq =>
        exact ⟨hzero.2 heq, err, hresult, (Except.error.inj hv).symm⟩
      · cases hv

/-- A new session with the default settings has room for a short expression. -/
theorem not_noRoom_new {tracing : Bool} {result : Except EvalError Value} (hliterals : e.literals ≤ 65536)
    (hheight : e.height ≤ 2048) : ¬(new .default tracing).NoRoom e result := by
  rintro (⟨_, _, -, -, hlt⟩ | ⟨_, -, -, hlt⟩ | ⟨_, _, -, -, hlt⟩)
  · exact Nat.not_lt.2 hliterals (Nat.zero_add e.literals ▸ hlt)
  · exact Nat.not_lt.2 hheight hlt
  · exact Int.lt_irrefl 0 hlt

/-- The greatest integer and one is the least one, and stays so when it is divided by minus one. Twice
the least integer is no divisor. -/
theorem integers_wrap_bounds :
    let s := new .default false
    let one : Expr := .int .none "1" 1
    let low : Expr := .binary .none .add (.int .none "9223372036854775807" 9223372036854775807) one
    low.Exact (2 ^ 63) ∧
      s.evalTree 4 (.ofBody [.expr .none low]) = .ok (.int Int64.minValue) ∧
      s.evalTree 7 (.ofBody [.expr .none (.binary .none .div low (.unary .none .neg one))]) =
        .ok (.int Int64.minValue) ∧
      ∃ err, s.evalTree 10 (.ofBody [.expr .none (.binary .none .div one (.binary .none .add low low))])
        = .error (.runtime err) ∧ err.fault = .divisionByZero := by
  intro s one low
  have hone : one.Exact 1 := .int .none "1" 1
  have hlow : low.Exact (2 ^ 63) := .add .none (.int .none _ 9223372036854775807) hone
  have hleast {n : Int64} (h : Wraps n (2 ^ 63)) : n.toInt = -2 ^ 63 := by
    obtain ⟨hge, hle, hmod⟩ := h
    rw [Int.ModEq] at hmod
    omega
  refine ⟨hlow, ?_, ?_, ?_⟩
  · obtain hroom | ⟨n, hn, hresult⟩ := (integers_wrap s 4).2.1 .none low _ hlow (by decide)
    · exact absurd hroom (not_noRoom_new (by decide) (by decide))
    · rw [hresult, Int64.toInt_inj.1 ((hleast hn).trans Int64.toInt_minValue.symm)]
  · obtain hroom | ⟨p, q, hp, hq, ⟨hzero, -⟩ | ⟨-, r, hresult, hr⟩⟩ :=
      (integers_wrap s 7).2.2 .none .none low _ _ _ hlow (.neg .none hone) (by decide)
    · exact absurd hroom (not_noRoom_new (by decide) (by decide))
    · obtain ⟨-, -, hmod⟩ := hq
      rw [hzero, Int.ModEq] at hmod
      exact absurd hmod (by decide)
    · have hminus : q.toInt = -1 := by
        obtain ⟨hge, hle, hmod⟩ := hq
        rw [Int.ModEq] at hmod
        omega
      rw [if_pos ⟨hleast hp, hminus⟩] at hr
      rw [hresult, Int64.toInt_inj.1 (hr.trans Int64.toInt_minValue.symm)]
  · obtain hroom | ⟨p, q, -, hq, ⟨-, hfault⟩ | ⟨hne, -⟩⟩ :=
      (integers_wrap s 10).2.2 .none .none one _ _ _ hone (.add .none hlow hlow) (by decide)
    · exact absurd hroom (not_noRoom_new (by decide) (by decide))
    · exact hfault
    · obtain ⟨hge, hle, hmod⟩ := hq
      rw [Int.ModEq] at hmod
      omega

end Session

end StackScript
