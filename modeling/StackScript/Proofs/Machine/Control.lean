import StackScript.Proofs.Machine.Run

/-!
# What a step does to the stack and to the frames

A safe machine that takes a step has done one of five things, unless it has
returned from the main code, which ends the run. It has replaced the values that
an instruction takes by those it gives, it has jumped, it has called a builtin
function or a closure, or it has returned. Each time the values below the locals
of the current function are as they were. Those above the locals that the
instruction does not take are, too, unless it returns.

## Main definitions

* `Instr.Hands`: the value that a return hands over.
* `Machine.Acts`, `Machine.Ends`: what a step does.

## Main results

* `Machine.Ok.acts_step`: every step of a safe machine acts or ends the run.
-/

namespace StackScript

/-- The value that a return hands over, where the values on the stack are those of the list. -/
def Instr.Hands (i : Instr) (live : List Value) (v : Value) : Prop :=
  i.op = .returnValue ∧ live.getLast? = some v ∨ i.op = .ret ∧ v = .null

theorem Instr.Hands.returns {i : Instr} {live : List Value} {v : Value} (h : i.Hands live v) :
    i.Returns :=
  h.imp And.left And.left

namespace Machine

/-- What an instruction does to the values on the stack and to the frames, from the inside out. -/
inductive Acts [Casing] (i : Instr) : List Value → List Frame → List Value → List Frame → Prop
  | falls {S S' args values : List Value} {f : Frame} {callers : List Frame} :
    i.Falls → i.op ≠ .call → args.length = i.takes → values.length = i.gives →
    f.base + f.fn.locals ≤ S.length → S'.length = S.length → S'.take f.base = S.take f.base →
    S'.drop (f.base + f.fn.locals) = S.drop (f.base + f.fn.locals) →
    Acts i (S ++ args) (f :: callers) (S' ++ values)
      ({ f with next := f.next + i.op.size } :: callers)
  | jumps {S args : List Value} {f : Frame} {callers : List Frame} {t : Nat} :
    i.target? = some t → args.length = i.takes → f.base + f.fn.locals ≤ S.length →
    Acts i (S ++ args) (f :: callers) S ({ f with next := t } :: callers)
  | answers {S args : List Value} {b : Builtin} {f : Frame} {callers : List Frame} :
    i = ⟨.call, [args.length]⟩ → f.base + f.fn.locals ≤ S.length →
    Acts i (S ++ .builtin (.known b) :: args) (f :: callers) (S ++ [b.value args])
      ({ f with next := f.next + i.op.size } :: callers)
  | enters {S args free : List Value} {id : Nat} {fn : Function} {f : Frame}
    {callers : List Frame} : i = ⟨.call, [args.length]⟩ → f.base + f.fn.locals ≤ S.length →
    Acts i (S ++ .closure id (some fn) free :: args) (f :: callers)
      (S ++ .closure id (some fn) free :: Exec.locals fn args)
      (⟨fn, id, free, 0, S.length + 1⟩ :: { f with next := f.next + i.op.size } :: callers)
  | returns {S rest : List Value} {v : Value} {f caller : Frame} {callers : List Frame} :
    i.Hands (S ++ rest) v → S.length + 1 = f.base →
    Acts i (S ++ rest) (f :: caller :: callers) (S ++ [v]) (caller :: callers)

/-- A return from the main code ends the run. -/
def Ends (i : Instr) (m m' : Machine) : Prop :=
  i.Returns ∧ m.callers = #[] ∧ m'.running = false

namespace Ready

variable {P : Array Value} {G : Nat} {m m₁ m₂ : Machine} {i : Instr} {is : List Instr}
  {depth : Nat → Nat} {inside : Bool}

/-- The machine goes on to the next instruction. -/
theorem acts_falls [Casing] {S S' args values : List Value} (hfetched : m.Fetched i m₂)
    (hfalls : i.Falls)
    (hcall : i.op ≠ .call) (hsplit : m.live = S ++ args) (hargs : args.length = i.takes)
    (hlocals : m.frame.base + m.frame.fn.locals ≤ S.length) (hlive : m₂.live = S' ++ values)
    (hvalues : values.length = i.gives) (hlength : S'.length = S.length)
    (hbelow : S'.take m.frame.base = S.take m.frame.base)
    (habove : S'.drop (m.frame.base + m.frame.fn.locals) =
      S.drop (m.frame.base + m.frame.fn.locals)) :
    Acts i m.live m.frames m₂.live m₂.frames := by
  rw [hfetched.frames, frames, hsplit, hlive]
  exact .falls hfalls hcall hargs hvalues hlocals hlength hbelow habove

/-- The machine goes on to the next instruction, and nothing has been pushed. -/
theorem acts_takes [Casing] {S S' args : List Value} (hfetched : m.Fetched i m₂) (hfalls : i.Falls)
    (hcall : i.op ≠ .call) (hsplit : m.live = S ++ args) (hargs : args.length = i.takes)
    (hlocals : m.frame.base + m.frame.fn.locals ≤ S.length) (hlive : m₂.live = S')
    (hgives : i.gives = 0) (hlength : S'.length = S.length)
    (hbelow : S'.take m.frame.base = S.take m.frame.base)
    (habove : S'.drop (m.frame.base + m.frame.fn.locals) =
      S.drop (m.frame.base + m.frame.fn.locals)) :
    Acts i m.live m.frames m₂.live m₂.frames :=
  acts_falls hfetched hfalls hcall hsplit hargs hlocals (hlive.trans (List.append_nil S').symm)
    hgives.symm hlength hbelow habove

theorem acts_jumps [Casing] {S args : List Value} {t : Nat} (hfetched : m.Fetched i m₂)
    (ht : i.target? = some t) (hsplit : m.live = S ++ args) (hargs : args.length = i.takes)
    (hlocals : m.frame.base + m.frame.fn.locals ≤ S.length) (hlive : m₂.live = S) :
    Acts i m.live m.frames { m₂ with frame := { m₂.frame with next := t } }.live
      { m₂ with frame := { m₂.frame with next := t } }.frames := by
  have hframes : { m₂ with frame := { m₂.frame with next := t } }.frames =
      { m.frame with next := t } :: m.callers.toList.reverse := by
    rw [frames, hfetched.frame, hfetched.callers]
  rw [hframes, frames, hsplit]
  subst hlive
  exact .jumps ht hargs hlocals

open Exec

variable (h : Ready P G m i is depth inside) (hfetched : m.Fetched i m₁) (hfits : m₁.Fits)
  (hlive : m₁.live = m.live)

include h hfetched hlive

/-- An instruction that pushes what it computes from the values it takes finds all that it needs
for it. -/
theorem exists_yields (hcall : i.op ≠ .call) (hclosure : i.op ≠ .closure) (hgives : i.gives = 1)
    {args : List Value} (hargs : args.length = i.takes)
    (hevery : ∀ v ∈ args, v.Every (ClosureOk P)) : ∃ r, i.Yields m₁ args r := by
  cases h.legal with
  | @const n v _ hv _ =>
    obtain rfl := List.length_eq_zero_iff.1 hargs
    refine ⟨.ok v, .source ?_⟩
    change m₁.constants[n]?.map Except.ok = _
    rw [hfetched.constants, h.ok.constants, hv]
    rfl
  | closure => exact absurd rfl hclosure
  | @global _ n hop _ =>
    obtain rfl | rfl := hop
    · obtain rfl := List.length_eq_zero_iff.1 hargs
      cases hv : m₁.globals[n]? with
      | some v => exact ⟨.ok v, .source (by simp [Instr.source?, hv])⟩
      | none => exact ⟨_, .source (by simp [Instr.source?, hv]; rfl)⟩
    · cases hgives
  | @«local» _ n hop hn =>
    obtain rfl | rfl := hop
    · obtain rfl := List.length_eq_zero_iff.1 hargs
      have hbound : m.frame.base + n < m.live.length := by
        have hheight := h.position.2
        simp only at hn
        omega
      refine ⟨.ok m.live[m.frame.base + n], .source ?_⟩
      change m₁.live[m₁.frame.base + n]?.map Except.ok = _
      rw [hlive, hfetched.frame, List.getElem?_eq_getElem hbound]
      rfl
    · cases hgives
  | @free n hn =>
    obtain rfl := List.length_eq_zero_iff.1 hargs
    refine ⟨.ok (m.frame.free.get ⟨n, hn⟩), .source ?_⟩
    change m₁.frame.free[n]?.map Except.ok = _
    rw [hfetched.frame, List.getElem?_eq_getElem hn]
    rfl
  | self =>
    obtain rfl := List.length_eq_zero_iff.1 hargs
    exact ⟨_, .source rfl⟩
  | builtin b =>
    obtain rfl := List.length_eq_zero_iff.1 hargs
    exact ⟨_, .source (by simp [Instr.source?, Builtin.ofSlot?_slot]; rfl)⟩
  | count hop _ =>
    obtain rfl | rfl := hop
    · exact ⟨_, .gather rfl hargs⟩
    · exact ⟨_, .gather rfl hargs⟩
  | jump hop _ =>
    obtain rfl | rfl := hop
    · cases hgives
    · cases hgives
  | call => exact absurd rfl hcall
  | plain hop hself =>
    obtain ⟨r, hr, -⟩ := Instr.yieldsOk_plain (G := G) (m := m₁) hop hself hgives hargs hevery
    exact ⟨r, hr⟩

include hfits

theorem acts_yields [Casing] (hfalls : i.Falls) (hcall : i.op ≠ .call) (hclosure : i.op ≠ .closure)
    (hgives : i.gives = 1) :
    Sat (exec i) m₁ (fun _ m₂ => Acts i m.live m.frames m₂.live m₂.frames) fun _ _ => True := by
  obtain ⟨S, args, hsplit, hargs, hlocals, -, hevery⟩ := h.split
  obtain ⟨r, hr⟩ := h.exists_yields hfetched hlive hcall hclosure hgives hargs hevery
  refine yields_sat hfits (hlive.trans hsplit) hr ?_ (fun _ _ _ _ => trivial) fun _ _ _ => trivial
  intro v m₂ _ hagrees _ hlive₂
  exact acts_falls (hfetched.agrees hagrees) hfalls hcall hsplit hargs hlocals hlive₂ hgives.symm
    rfl rfl rfl

theorem acts_closes [Casing] {n k : Nat} {f : Function} (hi : i = ⟨.closure, [n, k]⟩)
    (hf : P[n]? = some (.function (some f))) :
    Sat (exec i) m₁ (fun _ m₂ => Acts i m.live m.frames m₂.live m₂.frames) fun _ _ => True := by
  subst hi
  obtain ⟨S, args, hsplit, hargs, hlocals, -, -⟩ := h.split
  have hfn : m₁.constants[n]? = some (.function (some f)) := by
    rw [hfetched.constants, h.ok.constants]
    exact hf
  have hfetched' : m.Fetched _ { m₁ with fresh := m₁.fresh + 1 } := hfetched.beside
  refine close_sat hfits (hlive.trans hsplit) hargs hfn ?_ fun _ _ _ => trivial
  intro m₂ hagrees _ hlive₂
  exact acts_falls (hfetched'.agrees hagrees) ⟨nofun, nofun, nofun⟩ nofun hsplit hargs hlocals
    hlive₂ rfl rfl rfl rfl

/-- The stores take one value, and change at most a local of the current function. -/
theorem acts_stores [Casing] {n : Nat} (hi : i = ⟨.setGlobal, [n]⟩ ∨ i = ⟨.setLocal, [n]⟩)
    (hn : i.op = .setLocal → n < m.frame.fn.locals) :
    Sat (exec i) m₁ (fun _ m₂ => Acts i m.live m.frames m₂.live m₂.frames) fun _ _ => True := by
  obtain rfl | rfl := hi
  · obtain ⟨S, v, hsplit, -, hlocals, -, -⟩ := h.split_one hlive rfl
    refine setGlobal_sat hfits hsplit ?_ fun _ => trivial
    intro m₂ hagrees _ hlive₂ _ _
    exact acts_takes (hfetched.agrees hagrees).beside ⟨nofun, nofun, nofun⟩ nofun (hlive ▸ hsplit) rfl
      hlocals hlive₂ rfl rfl rfl rfl
  · obtain ⟨S, v, hsplit, -, hlocals, -, -⟩ := h.split_one hlive rfl
    have hbase : m₁.frame.base = m.frame.base := by rw [hfetched.frame]
    have hbound := hn rfl
    refine setLocal_sat hfits hsplit (by omega) ?_
    intro m₂ hagrees _ hlive₂
    refine acts_takes (hfetched.agrees hagrees) ⟨nofun, nofun, nofun⟩ nofun (hlive ▸ hsplit) rfl
      hlocals hlive₂ rfl (by simp) ?_ ?_
    · rw [hbase]
      exact List.take_set_of_le (by omega)
    · rw [hbase]
      exact List.drop_set_of_lt (by omega)

theorem acts_branches [Casing] {t : Nat} (hi : i = ⟨.jump, [t]⟩ ∨ i = ⟨.jumpIfFalse, [t]⟩) :
    Sat (exec i) m₁ (fun _ m₂ => Acts i m.live m.frames m₂.live m₂.frames) fun _ _ => True := by
  obtain rfl | rfl := hi
  · obtain ⟨S, args, hsplit, hargs, hlocals, -, -⟩ := h.split
    obtain rfl := List.length_eq_zero_iff.1 hargs
    refine jump_sat (acts_jumps hfetched rfl hsplit hargs hlocals ?_)
    rw [hlive, hsplit, List.append_nil]
  · obtain ⟨S, v, hsplit, -, hlocals, -, -⟩ := h.split_one hlive rfl
    refine jumpIfFalse_sat hfits hsplit ?_
    intro m₂ hagrees _ hlive₂
    have hfetched₂ := hfetched.agrees hagrees
    rw [hlive] at hsplit
    by_cases hv : v.truthy = true
    · rw [if_pos hv]
      exact acts_takes hfetched₂ ⟨nofun, nofun, nofun⟩ nofun hsplit rfl hlocals hlive₂ rfl rfl rfl rfl
    · rw [if_neg hv]
      exact acts_jumps hfetched₂ rfl hsplit rfl hlocals hlive₂

/-- Only builtin functions and closures can be called. -/
theorem acts_calls [Casing] {n : Nat} (hi : i = ⟨.call, [n]⟩) :
    Sat (exec i) m₁ (fun _ m₂ => Acts i m.live m.frames m₂.live m₂.frames) fun _ _ => True := by
  obtain ⟨S, callee, args, hsplit, rfl, hlocals, -, hcallee, -⟩ := h.split_call hi
  cases hcallee with
  | @closure id fn free =>
    have hi' := hi
    subst hi
    refine call_closure_sat hfits (hlive.trans hsplit) ?_ (fun _ => trivial) (fun _ _ => trivial)
      fun _ => trivial
    intro m₂ _ _ hagrees _ hlive₂
    have hframes : m₂.frames = ⟨fn, id, free, 0, S.length + 1⟩ ::
        { m.frame with next := m.frame.next + Opcode.call.size } :: m.callers.toList.reverse := by
      rw [frames_of_push hagrees.callers, hagrees.frame, hfetched.callers, hfetched.frame]
    rw [hframes, frames, hlive₂, hsplit]
    exact .enters hi' hlocals
  | builtin b =>
    have hi' := hi
    subst hi
    have hfetched' : m.Fetched _ { m₁ with output := b.output args :: m₁.output } := hfetched.beside
    refine call_builtin_sat hfits (hlive.trans hsplit) ?_
    intro m₂ hagrees _ hlive₂
    rw [(hfetched'.agrees hagrees).frames, frames, hlive₂, hsplit]
    exact .answers hi' hlocals
  | _ =>
    subst hi
    exact call_other_sat hfits (hlive.trans hsplit) (by simp) (by simp) (by simp) trivial

omit hlive in
/-- A return from a function goes on in the caller. It cannot fail. -/
theorem acts_returns [Casing] {v : Value} {caller : Frame} (rest : List Value)
    (hcaller : m.callers.back? = some caller) (hhands : i.Hands m.live v)
    (hrest : m.live = m₁.live ++ rest) (hbase : m.frame.base ≤ m₁.live.length) :
    Sat (leave v) m₁ (fun _ m₂ => Acts i m.live m.frames m₂.live m₂.frames) fun _ _ => False := by
  obtain ⟨callers, hpush⟩ := Array.back?_eq_some_iff.1 hcaller
  refine h.returns_sat hfetched hfits hpush hbase ?_
  intro m₂ hagrees _ hlive₂ hlength
  have hframes₂ : m₂.frames = caller :: callers.toList.reverse := by
    rw [frames, hagrees.callers, hagrees.frame]
  have hsplit : m.live = m₁.live.take (m.frame.base - 1) ++
      (m₁.live.drop (m.frame.base - 1) ++ rest) := by
    rw [← List.append_assoc, List.take_append_drop, hrest]
  rw [hsplit] at hhands ⊢
  rw [frames_of_push hpush, hframes₂, hlive₂]
  exact .returns hhands hlength

omit hlive in
/-- A return from a function goes on in the caller. One from the main code ends the run. -/
theorem acts_leaves [Casing] {v : Value} (rest : List Value) (hhands : i.Hands m.live v)
    (hrest : m.live = m₁.live ++ rest) (hbase : m.frame.base ≤ m₁.live.length) :
    Sat (leave v) m₁ (fun _ m₂ => Acts i m.live m.frames m₂.live m₂.frames ∨ Ends i m m₂)
      fun _ _ => True := by
  cases hcaller : m.callers.back? with
  | none =>
    have hnone : m₁.callers.back? = none := by rw [hfetched.callers, hcaller]
    refine leave_main_sat hfits hnone ?_ fun _ => trivial
    intro m₂ hagrees _ _ _
    refine .inr ⟨hhands.returns, Array.back?_eq_none_iff.1 hcaller, ?_⟩
    rw [running, hagrees.frame]
    simp
  | some caller =>
    exact (h.acts_returns hfetched hfits rest hcaller hhands hrest hbase).mono
      (fun _ _ => .inl) fun _ _ => False.elim

/-- What a return does before it leaves the function: it takes the value that it hands over. -/
theorem leaves_with [Casing] (hreturns : i.Returns) {Q : Unit → Machine → Prop}
    {E : Fault → Machine → Prop}
    (hleave : ∀ v m₂ rest, m.Fetched i m₂ → m₂.Fits → i.Hands m.live v → m.live = m₂.live ++ rest →
      m.frame.base ≤ m₂.live.length → Sat (leave v) m₂ Q E) : Sat (exec i) m₁ Q E := by
  have hheight := h.position.2
  obtain ⟨op, operands⟩ := i
  obtain rfl | rfl := hreturns
  · obtain ⟨S, v, hsplit, -, hlocals, -, -⟩ := h.split_one hlive rfl
    refine .bind (.pop hfits hsplit ?_)
    intro m₂ hagrees hfits₂ hlive₂ _
    rw [hlive] at hsplit
    refine hleave v m₂ [v] (hfetched.agrees hagrees) hfits₂ (.inl ⟨rfl, ?_⟩) ?_ ?_
    · rw [hsplit, List.getLast?_concat]
    · rw [hlive₂, hsplit]
    · rw [hlive₂]
      omega
  · refine hleave .null m₁ [] hfetched hfits (.inr ⟨rfl, rfl⟩) ?_ ?_
    · rw [hlive, List.append_nil]
    · rw [hlive]
      omega

/-- What a legal instruction does. -/
theorem acts [Casing] :
    Sat (exec i) m₁ (fun _ m₂ => Acts i m.live m.frames m₂.live m₂.frames ∨ Ends i m m₂)
      fun _ _ => True := by
  have hstays {x : Exec Unit}
      (hx : Sat x m₁ (fun _ m₂ => Acts i m.live m.frames m₂.live m₂.frames) fun _ _ => True) :
      Sat x m₁ (fun _ m₂ => Acts i m.live m.frames m₂.live m₂.frames ∨ Ends i m m₂)
        fun _ _ => True :=
    hx.mono (fun _ _ => .inl) fun _ _ _ => trivial
  cases h.legal with
  | const => exact hstays (h.acts_yields hfetched hfits hlive ⟨nofun, nofun, nofun⟩ nofun nofun rfl)
  | closure _ _ hf => exact hstays (h.acts_closes hfetched hfits hlive rfl hf)
  | global hop hn =>
    obtain rfl | rfl := hop
    · exact hstays (h.acts_yields hfetched hfits hlive ⟨nofun, nofun, nofun⟩ nofun nofun rfl)
    · exact hstays (h.acts_stores hfetched hfits hlive (.inl rfl) nofun)
  | «local» hop hn =>
    obtain rfl | rfl := hop
    · exact hstays (h.acts_yields hfetched hfits hlive ⟨nofun, nofun, nofun⟩ nofun nofun rfl)
    · exact hstays (h.acts_stores hfetched hfits hlive (.inr rfl) fun _ => hn)
  | free => exact hstays (h.acts_yields hfetched hfits hlive ⟨nofun, nofun, nofun⟩ nofun nofun rfl)
  | self => exact hstays (h.acts_yields hfetched hfits hlive ⟨nofun, nofun, nofun⟩ nofun nofun rfl)
  | builtin => exact hstays (h.acts_yields hfetched hfits hlive ⟨nofun, nofun, nofun⟩ nofun nofun rfl)
  | count hop _ =>
    obtain rfl | rfl := hop
    · exact hstays (h.acts_yields hfetched hfits hlive ⟨nofun, nofun, nofun⟩ nofun nofun rfl)
    · exact hstays (h.acts_yields hfetched hfits hlive ⟨nofun, nofun, nofun⟩ nofun nofun rfl)
  | jump hop _ =>
    obtain rfl | rfl := hop
    · exact hstays (h.acts_branches hfetched hfits hlive (.inl rfl))
    · exact hstays (h.acts_branches hfetched hfits hlive (.inr rfl))
  | call => exact hstays (h.acts_calls hfetched hfits hlive rfl)
  | @plain op hop hself =>
    by_cases hpop : op = .pop
    · subst hpop
      obtain ⟨S, v, hsplit, -, hlocals, -, -⟩ := h.split_one hlive rfl
      refine hstays (pop_sat hfits hsplit ?_)
      intro m₂ hagrees _ hlive₂ _
      exact acts_takes (hfetched.agrees hagrees) ⟨nofun, nofun, nofun⟩ nofun (hlive ▸ hsplit) rfl
        hlocals hlive₂ rfl rfl rfl rfl
    by_cases hreturns : Instr.Returns ⟨op, []⟩
    · refine h.leaves_with hfetched hfits hlive hreturns ?_
      intro v m₂ rest hfetched₂ hfits₂
      exact h.acts_leaves hfetched₂ hfits₂ rest
    obtain ⟨hvalue, hret⟩ := not_or.1 hreturns
    obtain ⟨hgives, hjump, hcall, hclosure⟩ := Instr.gives_plain hop hpop hvalue hret
    exact hstays (h.acts_yields hfetched hfits hlive ⟨hjump, hvalue, hret⟩ hcall hclosure hgives)

end Ready

/-- A step of a safe machine. -/
theorem Ok.acts_step [Casing] {P : Array Value} {G : Nat} {m m' : Machine} {u : Unit} (h : m.Ok P G)
    (hpool : PoolOk P G) (hrunning : m.running = true) (hstep : Machine.step m = .ok u m') :
    ∃ i, m.frame.fn.code.fetch m.frame.next = some (.instr i) ∧
      (m.frame.next, .instr i) ∈ m.frame.fn.code.walk ∧
      (Acts i m.live m.frames m'.live m'.frames ∨ Ends i m m') := by
  obtain ⟨i, is, depth, inside, hready, hfetch, hwalk⟩ := h.ready hpool hrunning
  have hsat : Exec.Sat Machine.step m
      (fun _ m₂ => Acts i m.live m.frames m₂.live m₂.frames ∨ Ends i m m₂) fun _ _ => True := by
    refine step_sat h.fits hfetch ?_ fun _ => trivial
    intro m₁ hagrees hfits hlive
    exact hready.acts ⟨hagrees.frame, hagrees.callers, hagrees.constants, hagrees.maxFrames,
      hagrees.limit, hagrees.size⟩ hfits hlive
  exact ⟨i, hfetch, hwalk, hsat.of_ok hstep⟩

theorem step_of_next [Casing] {m m' : Machine} (hnext : m.next? = some m') :
    Machine.step m = .ok () m' ∧ m'.running = true := by
  unfold next? at hnext
  split at hnext
  · next hresult =>
    split at hnext
    · next hrunning =>
      obtain rfl := Option.some.inj hnext
      exact ⟨hresult, hrunning⟩
    · cases hnext
  · cases hnext

/-- A step of a safe machine that then goes on. -/
theorem Ok.acts [Casing] {P : Array Value} {G : Nat} {m m' : Machine} (h : m.Ok P G)
    (hpool : PoolOk P G) (hrunning : m.running = true) (hnext : m.next? = some m') :
    ∃ i, m.frame.fn.code.fetch m.frame.next = some (.instr i) ∧
      (m.frame.next, .instr i) ∈ m.frame.fn.code.walk ∧
      Acts i m.live m.frames m'.live m'.frames := by
  obtain ⟨hstep, hrunning'⟩ := step_of_next hnext
  obtain ⟨i, hfetch, hwalk, hacts | hends⟩ := h.acts_step hpool hrunning hstep
  · exact ⟨i, hfetch, hwalk, hacts⟩
  · rw [hends.2.2] at hrunning'
    cases hrunning'

end Machine

end StackScript
