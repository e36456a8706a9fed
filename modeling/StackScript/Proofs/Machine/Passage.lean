import StackScript.Proofs.Compile.Occurrence
import StackScript.Proofs.Machine.Stations

/-!
# Calls that pass through a stretch of code

A function that has started a stretch of its code and has got past the end of it
has been at the end: jumps stay in the stretch or go to its end. On the way it
takes none of the values that were above its locals when the stretch began, so
these are still there, with those that the stretch leaves on top of them. For the
code of expressions this is one value each.

## Main definitions

* `Instr.Replaces`: the values that an instruction takes are replaced by others.
* `Machine.Evaluates`: a call has executed the code of an expression.

## Main results

* `Machine.Ok.resumes`: what one instruction of a call does until the next one.
* `Machine.Ok.passes`: a stretch that is passed through.
* `Machine.Ok.evaluates_all`: the values of expressions one after another.
-/

namespace StackScript

/-- Of the values of the first list, those that the instruction takes are replaced by `n` others.
From the floor on the others stay. -/
def Instr.Replaces (i : Instr) (floor n : Nat) (live live' : List Value) : Prop :=
  ∃ S S' args values, live = S ++ args ∧ args.length = i.takes ∧ live' = S' ++ values ∧
    values.length = n ∧ S'.length = S.length ∧ S'.drop floor = S.drop floor

namespace Instr.Replaces

variable {i : Instr} {floor n : Nat} {live live' : List Value}

theorem length_eq (h : i.Replaces floor n live live') :
    live'.length + i.takes = live.length + n := by
  obtain ⟨S, S', args, values, rfl, hargs, rfl, hvalues, hlength, -⟩ := h
  rw [List.length_append, List.length_append]
  omega

/-- Values that stand low enough are not taken. -/
theorem keeps (h : i.Replaces floor n live live') {d : Nat}
    (hd : floor + d + i.takes ≤ live.length) : (live'.drop floor).take d = (live.drop floor).take d := by
  obtain ⟨S, S', args, values, rfl, hargs, rfl, hvalues, hlength, hdrop⟩ := h
  rw [List.length_append, hargs] at hd
  have htake (T vs : List Value) (hT : T.length = S.length) :
      ((T ++ vs).drop floor).take d = (T.drop floor).take d := by
    rw [List.drop_append_of_le_length (by omega),
      List.take_append_of_le_length (by rw [List.length_drop]; omega)]
  rw [htake S' values hlength, htake S args rfl, hdrop]

end Instr.Replaces

namespace Machine

open Instr

variable {P : Array Value} {G : Nat} {m mj mk : Machine} {j k l : Nat}

/-! ### The instructions of a call -/

theorem SameActivation.refl [Casing] (hj : m.dispatch j = some mj) : m.SameActivation j j := by
  refine ⟨Nat.le_refl j, mj, mj, hj, hj, rfl, ?_⟩
  intro i mi hi hi' hmi
  obtain rfl : i = j := Nat.le_antisymm hi' hi
  rw [Option.some.inj (hmi.symm.trans hj)]

theorem SameActivation.trans [Casing] (h : m.SameActivation j k) (h' : m.SameActivation k l) :
    m.SameActivation j l := by
  obtain ⟨hjk, mj, mk, hj, hk, hlength, hbetween⟩ := h
  obtain ⟨hkl, mk', ml, hk', hl, hlength', hbetween'⟩ := h'
  obtain rfl := Option.some.inj (hk'.symm.trans hk)
  refine ⟨Nat.le_trans hjk hkl, mj, ml, hj, hl, hlength'.trans hlength, ?_⟩
  intro i mi hji hil hi
  rcases Nat.le_total i k with hik | hki
  · exact hbetween i mi hji hik hi
  · rw [← hlength]
    exact hbetween' i mi hki hil hi

/-- A call that executes another instruction has a next one. -/
theorem SameActivation.exists_next [Casing] (h : m.SameActivation j k) (hlt : j < k) :
    ∃ l, j < l ∧ m.SameActivation j l ∧ m.SameActivation l k ∧
      ∀ i, j < i → i < l → ¬m.SameActivation j i := by
  classical
  have hex : ∃ l, j < l ∧ m.SameActivation j l := ⟨k, hlt, h⟩
  obtain ⟨hjl, hsame⟩ := Nat.find_spec hex
  refine ⟨Nat.find hex, hjl, hsame, hsame.between h (Nat.find_min' hex ⟨hlt, h⟩), ?_⟩
  intro i hji hil hsame
  exact Nat.find_min hex hil ⟨hji, hsame⟩

/-- From one instruction of a call to the next one, the values that the instruction takes are
replaced, whatever it calls. -/
theorem Ok.resumes [Casing] (h : m.Ok P G) (hpool : PoolOk P G) (htidy : m.Tidy P)
    (hsame : m.SameActivation j k) (hlt : j < k)
    (hnone : ∀ l, j < l → l < k → ¬m.SameActivation j l) (hj : m.dispatch j = some mj)
    (hk : m.dispatch k = some mk) :
    ∃ i next n, (mj.frame.next, .instr i) ∈ mj.frame.fn.code.walk ∧
      mk.frame = { mj.frame with next := next } ∧
      i.Replaces (mj.frame.base + mj.frame.fn.locals) n mj.live mk.live ∧
      (i.Falls ∧ next = mj.frame.next + i.op.size ∧ n = i.gives ∨ i.target? = some next ∧ n = 0) := by
  obtain ⟨mj', m₁, hj', hnext, hm₁⟩ := dispatch_of_lt hk hlt
  obtain rfl := Option.some.inj (hj'.symm.trans hj)
  obtain ⟨hok, hrunning, -⟩ := h.dispatch hpool hj
  obtain ⟨i, hfetch, hwalk, hacts⟩ := hok.acts hpool hrunning hnext
  have hdirect (hlength : m₁.frames.length = mj'.frames.length) : m₁ = mk := by
    obtain rfl : k = j + 1 := by
      by_contra hne
      have hdeeper := hsame.deeper hnone hj hm₁ (Nat.lt_succ_self j) (by omega)
      omega
    exact Option.some.inj (hm₁.symm.trans hk)
  refine ⟨i, ?_⟩
  generalize hlive : mj'.live = live at hacts ⊢
  generalize hframes : mj'.frames = fs at hacts hdirect
  generalize hlive₁ : m₁.live = live₁ at hacts
  generalize hframes₁ : m₁.frames = fs₁ at hacts hdirect
  cases hacts with
  | @falls S S' args values f callers hfalls _ hargs hvalues _ hlength _ hdrop =>
    obtain rfl := hdirect rfl
    obtain ⟨rfl, -⟩ := List.cons.inj hframes
    refine ⟨_, i.gives, hwalk, (List.cons.inj hframes₁).1, ?_, .inl ⟨hfalls, rfl, rfl⟩⟩
    exact ⟨S, S', args, values, rfl, hargs, hlive₁, hvalues, hlength, hdrop⟩
  | @jumps _ args f callers t ht hargs =>
    obtain rfl := hdirect rfl
    obtain ⟨rfl, -⟩ := List.cons.inj hframes
    refine ⟨t, 0, hwalk, (List.cons.inj hframes₁).1, ?_, .inr ⟨ht, rfl⟩⟩
    exact ⟨_, _, args, [], rfl, hargs, by rw [hlive₁, List.append_nil], rfl, rfl, rfl⟩
  | @answers S args b f callers hi =>
    obtain rfl := hdirect rfl
    obtain ⟨rfl, -⟩ := List.cons.inj hframes
    subst hi
    refine ⟨_, 1, hwalk, (List.cons.inj hframes₁).1, ?_, .inl ⟨⟨nofun, nofun, nofun⟩, rfl, rfl⟩⟩
    exact ⟨S, S, _ :: args, [_], rfl, rfl, hlive₁, rfl, rfl, rfl⟩
  | @enters S args free id fn f callers hi =>
    subst hi
    obtain ⟨hframesk, below, callee, args', result, hsplit, hargs, hlivek, -⟩ :=
      h.call_completes hpool htidy hsame hlt hnone hj hk hfetch
    rw [hlive] at hsplit
    refine ⟨_, 1, hwalk, (List.cons.inj hframesk).1, ?_, .inl ⟨⟨nofun, nofun, nofun⟩, rfl, rfl⟩⟩
    exact ⟨below, below, callee :: args', [result], hsplit, congrArg (· + 1) hargs, hlivek, rfl, rfl,
      rfl⟩
  | @returns S rest v f caller callers =>
    obtain ⟨-, mj, -, hmj, -, -, hbetween⟩ := hsame
    obtain rfl := Option.some.inj (hmj.symm.trans hj)
    have hle := hbetween (j + 1) m₁ (Nat.le_succ j) hlt hm₁
    rw [hframes, hframes₁] at hle
    exact absurd hle (Nat.not_succ_le_self _)

/-! ### Stretches of code -/

variable {code : Code} {is before seg after : List Instr} {depth : Nat → Nat}

/-- A call that starts in a stretch of its code and gets past it has been at its end, with the depth
of the stretch there. The values below those that the stretch works on are as they were. -/
theorem Ok.passes [Casing] (h : m.Ok P G) (hpool : PoolOk P G) (htidy : m.Tidy P)
    (hlaid : code.Laid is) (his : is = before ++ (seg ++ after))
    (hflow : Flowing depth (Lands (bytes before) seg) (bytes before) seg) {d : Nat}
    (hsame : m.SameActivation j k) (hj : m.dispatch j = some mj) (hk : m.dispatch k = some mk)
    (hcode : mj.frame.fn.code = code) (hland : Lands (bytes before) seg mj.frame.next)
    (hheight : mj.live.length = mj.frame.base + mj.frame.fn.locals + d + depth mj.frame.next)
    (hpast : bytes before + bytes seg ≤ mk.frame.next) :
    ∃ l ml, m.SameActivation j l ∧ m.SameActivation l k ∧ m.dispatch l = some ml ∧
      ml.frame = { mj.frame with next := bytes before + bytes seg } ∧
      ml.live.length =
        mj.frame.base + mj.frame.fn.locals + d + depth (bytes before + bytes seg) ∧
      (ml.live.drop (mj.frame.base + mj.frame.fn.locals)).take d =
        (mj.live.drop (mj.frame.base + mj.frame.fn.locals)).take d := by
  -- The induction is on the number of instructions of the run that are left to look at.
  induction hn : k - j using Nat.strong_induction_on generalizing j mj with
  | _ n ih =>
    obtain hend | hlt := Nat.eq_or_lt_of_le hland.bounds.2
    · refine ⟨j, mj, .refl hj, hsame, hj, ?_, ?_, rfl⟩
      · rw [← hend]
      · rw [hheight, hend]
    have hjk : j < k := by
      refine Nat.lt_of_le_of_ne hsame.1 ?_
      rintro rfl
      obtain rfl := Option.some.inj (hj.symm.trans hk)
      omega
    obtain ⟨l, hjl, hsamel, hsamek, hnone⟩ := hsame.exists_next hjk
    have ⟨_, ml, _, hml, _⟩ := hsamek
    obtain ⟨i, next, g, hwalk, hframe, hreplaces, hnext⟩ :=
      h.resumes hpool htidy hsamel hjl hnone hj hml
    rw [hcode] at hwalk
    obtain ⟨hflows, hlandNext⟩ := hlaid.flows_stretch his hflow hland hlt hwalk
    obtain ⟨hlandl, hdepth⟩ :
        Lands (bytes before) seg next ∧ depth next = depth mj.frame.next - i.takes + g := by
      obtain ⟨hfalls, rfl, rfl⟩ | ⟨ht, rfl⟩ := hnext
      · exact ⟨hlandNext, hflows.falls hfalls⟩
      · obtain ⟨-, hlandt, hdt⟩ := hflows.jumps next ht
        exact ⟨hlandt, hdt⟩
    have htakes := hflows.takes
    have hlength := hreplaces.length_eq
    have hheightl : ml.live.length = ml.frame.base + ml.frame.fn.locals + d + depth ml.frame.next := by
      rw [hframe]
      simp only
      omega
    obtain ⟨b, mb, hsameb, hsamebk, hmb, hframeb, hlengthb, hkeepsb⟩ :=
      ih (k - l) (by omega) hsamek hml (by rw [hframe]; exact hcode) (by rw [hframe]; exact hlandl)
        hheightl rfl
    rw [hframe] at hframeb hlengthb hkeepsb
    refine ⟨b, mb, hsamel.trans hsameb, hsamebk, hmb, hframeb, hlengthb, hkeepsb.trans ?_⟩
    exact hreplaces.keeps (by omega)

/-! ### Expressions -/

/-- A call has executed the code of the expression from the instruction with number `j` of the run
to the one with number `k`, before which the value is on top of what was on the stack. -/
def Evaluates [Casing] (m : Machine) (e : Expr) (j k : Nat) (v : Value) : Prop :=
  m.SameActivation j k ∧ ∃ mj mk below, m.dispatch j = some mj ∧ m.dispatch k = some mk ∧
    mj.frame.fn.code.Holds e mj.frame.next mk.frame.next ∧ mk.live = below ++ [v] ∧
    below.length = mj.live.length

theorem Ok.locals_le (h : m.Ok P G) (hpool : PoolOk P G) (hrunning : m.running = true) :
    m.frame.base + m.frame.fn.locals ≤ m.live.length := by
  obtain ⟨i, is, depth, inside, hready, -, -⟩ := h.ready hpool hrunning
  rw [← hready.position.2]
  exact Nat.le_add_right _ _

/-- A call that starts the code of an expression and gets past it has evaluated it. The values above
the locals are as they were. -/
theorem Ok.evaluates [Casing] (h : m.Ok P G) (hpool : PoolOk P G) (htidy : m.Tidy P)
    (hlaid : code.Laid is) (his : is = before ++ (seg ++ after)) {e : Expr} {σ τ : Context}
    (hemits : e.Emits (bytes before) σ seg τ) (hsame : m.SameActivation j k)
    (hj : m.dispatch j = some mj) (hk : m.dispatch k = some mk) (hcode : mj.frame.fn.code = code)
    (hstart : mj.frame.next = bytes before) (hpast : bytes before + bytes seg ≤ mk.frame.next) :
    ∃ l ml below v, m.SameActivation l k ∧ m.Evaluates e j l v ∧ m.dispatch l = some ml ∧
      ml.frame = { mj.frame with next := bytes before + bytes seg } ∧ ml.live = below ++ [v] ∧
      below.length = mj.live.length ∧ below.drop (mj.frame.base + mj.frame.fn.locals) =
        mj.live.drop (mj.frame.base + mj.frame.fn.locals) := by
  obtain ⟨depth, hfirst, hlast, hflow⟩ := tree_balanced.expr_all e _ _ _ _ hemits 0
  obtain ⟨hok, hrunning, -⟩ := h.dispatch hpool hj
  have hlocals := hok.locals_le hpool hrunning
  have hheight : mj.live.length = mj.frame.base + mj.frame.fn.locals +
      (mj.live.length - (mj.frame.base + mj.frame.fn.locals)) + depth mj.frame.next := by
    rw [hstart, hfirst]
    omega
  obtain ⟨l, ml, hsamel, hsamek, hml, hframe, hlength, hkeeps⟩ :=
    h.passes hpool htidy hlaid his hflow hsame hj hk hcode ⟨[], seg, rfl, by rw [hstart]; rfl⟩
      hheight hpast
  rw [hlast] at hlength
  obtain ⟨below, v, hlive⟩ : ∃ below v, ml.live = below ++ [v] := by
    obtain hnil | ⟨below, v, hlive⟩ := List.eq_nil_or_concat' ml.live
    · rw [hnil, List.length_nil] at hlength
      omega
    · exact ⟨below, v, hlive⟩
  have hbelow : below.length = mj.live.length := by
    rw [hlive, List.length_append, List.length_singleton] at hlength
    omega
  have hholds : mj.frame.fn.code.Holds e mj.frame.next ml.frame.next := by
    rw [hcode, hstart, hframe]
    exact ⟨before, seg, after, σ, τ, his ▸ hlaid.toEncodes, hemits, rfl, rfl⟩
  refine ⟨l, ml, below, v, hsamek, ⟨hsamel, mj, ml, below, hj, hml, hholds, hlive, hbelow⟩, hml,
    hframe, hlive, hbelow, ?_⟩
  rwa [hlive, List.drop_append_of_le_length (by omega),
    List.take_append_of_le_length (by rw [List.length_drop]; omega),
    List.take_of_length_le (by rw [List.length_drop]; omega),
    List.take_of_length_le (by rw [List.length_drop])] at hkeeps

theorem exists_append_of_drop {S T vs : List Value} {n : Nat} (hn : n ≤ S.length)
    (hdrop : T.drop n = S.drop n ++ vs) (hlength : T.length = S.length + vs.length) :
    ∃ S', T = S' ++ vs ∧ S'.length = S.length ∧ S'.drop n = S.drop n := by
  have htake : (T.take n).length = n := by
    rw [List.length_take]
    omega
  refine ⟨T.take n ++ S.drop n, ?_, ?_, ?_⟩
  · rw [List.append_assoc, ← hdrop, List.take_append_drop]
  · rw [List.length_append, htake, List.length_drop]
    omega
  · rw [List.drop_append_of_le_length htake.ge, List.drop_of_length_le htake.le, List.nil_append]

/-- A call that starts the code of expressions one after another and gets past it has evaluated all
of them, and their values are on the stack in this order. -/
theorem Ok.evaluates_all [Casing] (h : m.Ok P G) (hpool : PoolOk P G) (htidy : m.Tidy P)
    (hlaid : code.Laid is) (es : List Expr) (his : is = before ++ (seg ++ after)) {σ τ : Context}
    (hemits : Emission.all (es.map Expr.Emits) (bytes before) σ seg τ)
    (hsame : m.SameActivation j k) (hj : m.dispatch j = some mj) (hk : m.dispatch k = some mk)
    (hcode : mj.frame.fn.code = code) (hstart : mj.frame.next = bytes before)
    (hpast : bytes before + bytes seg ≤ mk.frame.next) :
    ∃ l ml below values, m.SameActivation j l ∧ m.SameActivation l k ∧ m.dispatch l = some ml ∧
      ml.frame = { mj.frame with next := bytes before + bytes seg } ∧ ml.live = below ++ values ∧
      below.length = mj.live.length ∧ below.drop (mj.frame.base + mj.frame.fn.locals) =
        mj.live.drop (mj.frame.base + mj.frame.fn.locals) ∧
      List.Forall₂ (fun e v => ∃ a b, j ≤ a ∧ b ≤ l ∧ m.Evaluates e a b v) es values := by
  induction es generalizing before seg σ j mj with
  | nil =>
    obtain ⟨rfl, -⟩ := hemits
    exact ⟨j, mj, mj.live, [], .refl hj, hsame, hj, by rw [bytes_nil, Nat.add_zero, ← hstart],
      (List.append_nil _).symm, rfl, rfl, .nil⟩
  | cons e es ih =>
    obtain ⟨s, τ', t, hs, ht, rfl⟩ := hemits
    rw [bytes_append, ← Nat.add_assoc] at hpast
    have hsplit : is = before ++ (s ++ (t ++ after)) := by rw [his, List.append_assoc]
    obtain ⟨b, mb, below, v, hsameb, hevaluates, hmb, hframe, hlive, hlength, hdrop⟩ :=
      h.evaluates hpool htidy hlaid hsplit hs hsame hj hk hcode hstart (by omega)
    obtain ⟨hok, hrunning, -⟩ := h.dispatch hpool hj
    have hlocals := hok.locals_le hpool hrunning
    have hrest : is = (before ++ s) ++ (t ++ after) := by rw [hsplit, List.append_assoc]
    rw [← bytes_append] at ht hpast
    obtain ⟨l, ml, T, values, hsamebl, hsamel, hml, hframel, hlivel, hlengthl, hdropl, hvalues⟩ :=
      ih hrest ht hsameb hmb (by rw [hframe]; exact hcode) (by rw [hframe, bytes_append]) hpast
    rw [hframe] at hframel hdropl
    simp only at hframel hdropl
    rw [hlive, List.drop_append_of_le_length (by omega)] at hdropl
    rw [bytes_append, Nat.add_assoc, ← bytes_append] at hframel
    rw [hlive, List.length_append, List.length_singleton] at hlengthl
    obtain ⟨S, rfl, hS, hdropS⟩ : ∃ S, T = S ++ [v] ∧ S.length = mj.live.length ∧
        S.drop (mj.frame.base + mj.frame.fn.locals) =
          mj.live.drop (mj.frame.base + mj.frame.fn.locals) :=
      exists_append_of_drop (by omega) (by rw [hdropl, hdrop]) (by rw [hlengthl, hlength]; rfl)
    refine ⟨l, ml, S, v :: values, hevaluates.1.trans hsamebl, hsamel, hml, hframel, ?_, hS, hdropS, ?_⟩
    · rw [hlivel, List.append_assoc]
      rfl
    · refine .cons ⟨j, b, Nat.le_refl j, hsamebl.1, hevaluates⟩ (hvalues.imp ?_)
      rintro e v ⟨a, c, ha, hc, he⟩
      exact ⟨a, c, Nat.le_trans hevaluates.1.1 ha, hc, he⟩

end Machine

end StackScript
