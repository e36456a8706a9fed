import StackScript.Proofs.Meaning.Expressions

/-!
# The code of statements

Each statement ends with what it has pushed popped again, so the stack is as high
after it as before. In a branch or in the body of a function the last pop is left
out, and the value that it would have taken is the value of the branch or of the
call.

A piece of statements is therefore followed up to its last pop. Where that pop
stands in the code, as it does between statements, one more step leads to the
end of the piece.

## Main definitions

* `Instr.trunk`: instructions without their last pop.
* `Call.Ends`: a machine when statements have been evaluated.
* `Follows`: a piece of statements that follows an evaluation.

## Main results

* `Follows.through`: statements in the middle of a code.
* `Follows.branch`, `Follows.leaves`: branches, and bodies of functions.
* `Pushes.cond`: conditions.
* `follows_body`: statements one after another.
-/

namespace StackScript

/-! ### The last instruction -/

namespace Instr

variable {s t : List Instr} {i : Instr}

/-- The instructions without a last pop. -/
def trunk (is : List Instr) : List Instr :=
  match is.getLast? with
  | none => []
  | some i => if i.op = .pop then is.dropLast else is

theorem trunk_concat (s : List Instr) (i : Instr) :
    trunk (s ++ [i]) = if i.op = .pop then s else s ++ [i] := by
  simp [trunk]

theorem trunk_pop (s : List Instr) (operands : List Nat) : trunk (s ++ [⟨.pop, operands⟩]) = s := by
  rw [trunk_concat, if_pos rfl]

theorem trunk_of_ne (s : List Instr) (hi : i.op ≠ .pop) : trunk (s ++ [i]) = s ++ [i] := by
  rw [trunk_concat, if_neg hi]

theorem trunk_append (s : List Instr) (ht : t ≠ []) : trunk (s ++ t) = s ++ trunk t := by
  obtain rfl | ⟨t, i, rfl⟩ := List.eq_nil_or_concat t
  · exact absurd rfl ht
  · rw [List.concat_eq_append, ← List.append_assoc, trunk_concat, trunk_concat]
    by_cases hi : i.op = .pop
    · rw [if_pos hi, if_pos hi]
    · rw [if_neg hi, if_neg hi, List.append_assoc]

theorem trunk_prefix (s : List Instr) : trunk s <+: s := by
  obtain rfl | ⟨s, i, rfl⟩ := List.eq_nil_or_concat s
  · exact List.prefix_rfl
  · rw [List.concat_eq_append, trunk_concat]
    by_cases hi : i.op = .pop
    · rw [if_pos hi]
      exact List.prefix_append s [i]
    · exact ⟨[], by rw [if_neg hi, List.append_nil]⟩

/-- A branch adds at most one instruction after the last pop is left out. -/
theorem trunk_prefix_keepValue (s : List Instr) : trunk s <+: keepValue s := by
  obtain rfl | ⟨s, i, rfl⟩ := List.eq_nil_or_concat s
  · exact List.nil_prefix
  · rw [List.concat_eq_append, trunk_concat]
    simp only [keepValue, List.getLast?_append, List.getLast?_singleton, Option.some_or,
      List.dropLast_concat]
    split
    · exact List.prefix_rfl
    · split
      · exact List.prefix_rfl
      · exact List.prefix_append _ _

/-- So does the body of a function. -/
theorem trunk_prefix_close (s : List Instr) : trunk s <+: close s := by
  obtain rfl | ⟨s, i, rfl⟩ := List.eq_nil_or_concat s
  · exact List.nil_prefix
  · rw [List.concat_eq_append, trunk_concat]
    simp only [close, List.getLast?_append, List.getLast?_singleton, Option.some_or,
      List.dropLast_concat]
    split
    · exact List.prefix_append _ _
    · split
      · exact List.prefix_rfl
      · exact List.prefix_append _ _

end Instr

theorem Call.CodeAt.of_prefix {K : Call} {offset : Nat} {s t : List Instr} (h : K.CodeAt offset t)
    (hs : s <+: t) : K.CodeAt offset s := by
  obtain ⟨u, rfl⟩ := hs
  exact h.left

/-! ### Machines between instructions -/

namespace Call.Standing

variable {P : Array Value} {G : List Bytes} {R : Machine.Ending → Machine → Prop} {K : Call}
  {st : Store} {m : Machine} {next : Nat} {ops : List Value} {w : Value}

/-- The machine when the topmost operand has been taken from the stack. -/
theorem dropped (h : K.Standing P G st m next (ops ++ [w])) :
    ∃ S, m.live = S ++ [w] ∧ ∀ m', m.Agrees m' → m'.Fits → m'.live = S →
      K.Standing P G st m' next ops := by
  obtain ⟨locals, hlive, hlocals⟩ := h.live
  refine ⟨K.below ++ (locals ++ ops), by simp [hlive], ?_⟩
  intro m' hagrees hfits hlive'
  exact ⟨h.mirrors.of_agrees hagrees, hfits, hagrees.frame.trans h.frame,
    hagrees.callers.trans h.callers, hagrees.maxFrames.trans h.depth, h.grown,
    ⟨locals, hlive', hlocals⟩, fun v hv => h.ops v (List.mem_append_left _ hv)⟩

theorem shows_top (h : K.Standing P G st m next (ops ++ [w])) :
    w.Shows P G st.lambdas w.outline :=
  ⟨rfl, h.ops w (by simp)⟩

/-- The machine when it has jumped. -/
theorem goto (h : K.Standing P G st m next ops) (next' : Nat) :
    K.Standing P G st { m with frame := { m.frame with next := next' } } next' ops :=
  h.move (h.mirrors.transfer rfl rfl rfl rfl) h.fits rfl rfl rfl rfl

/-- A return leaves the call with the topmost operand. -/
theorem returnValue [Casing] (h : K.Standing P G st m next (ops ++ [w])) {operands : List Nat}
    (hleave : ∀ m', K.Inside P G st m' →
      Exec.Sat (Exec.leave w) m' (fun _ m'' => m''.Runs R) (Machine.Stops R)) :
    Exec.Sat (Exec.exec ⟨.returnValue, operands⟩) m (fun _ m' => m'.Runs R) (Machine.Stops R) := by
  obtain ⟨S, hlive, hdropped⟩ := h.dropped
  refine .bind (.pop h.fits hlive ?_)
  intro m' hagrees hfits hlive' _
  exact hleave m' (hdropped m' hagrees hfits hlive').inside

end Call.Standing

/-! ### Pieces of statements -/

/-- A machine when the statements of the piece `seg` have been evaluated up to a last pop. They have
done nothing if there are no instructions. Otherwise the last one has left its value on the stack, or
has bound it to a name. -/
inductive Call.Ends (P : Array Value) (G : List Bytes) (K : Call) (offset : Nat) (seg : List Instr)
    (ops : List Value) (last : Last) (st : Store) (m : Machine) : Last → Store → Machine → Prop
  | idle : seg = [] → Ends P G K offset seg ops last st m last st m
  | shown {t : List Instr} {w : Value} {st' : Store} {m' : Machine} :
    seg = t ++ [⟨.pop, []⟩] → K.Standing P G st' m' (offset + Instr.bytes t) (ops ++ [w]) →
    Ends P G K offset seg ops last st m (.shown w.outline) st' m'
  | bound {t : List Instr} {i : Instr} {v : Value} {st' : Store} {m' : Machine} :
    seg = t ++ [i] → i.op ≠ .pop → ¬ i.Returns →
    K.Standing P G st' m' (offset + Instr.bytes seg) ops →
    (K.current = none → m'.lastPopped.Shows P G st'.lambdas v) →
    Ends P G K offset seg ops last st m (.bound v) st' m'

/-- The piece of code follows the evaluation of statements up to a last pop. It is empty only if
there is nothing to evaluate. -/
structure Follows [Casing] (P : Array Value) (G : List Bytes) (R : Machine.Ending → Machine → Prop)
    (d : Nat)
    (p : Emission) (xs : List Bytes) (y : Option Current → Names → Last → Eval Last) : Prop where
  idle : ∀ offset σ τ, p offset σ [] τ → ∀ current names last, y current names last = pure last
  run : ∀ K B offset σ seg τ names st m ops last, Piece P G R d K B p xs offset σ seg τ names →
    K.CodeAt offset (Instr.trunk seg) → K.Standing P G st m offset ops →
    (y K.current names last).Sat st
      (fun last' st' => ∀ m', K.Ends P G offset seg ops last st m last' st' m' → m'.Runs R) B →
    m.Runs R

section

variable {P : Array Value} {G : List Bytes} {R : Machine.Ending → Machine → Prop} {d : Nat}
  {p q : Emission} {xs ys : List Bytes}

namespace Follows

variable {y z : Option Current → Names → Last → Eval Last}

/-- Where the last pop stands in the code, the end of the piece is reached. If what was popped last is
the value of the last statement before the piece, it is so after it. -/
theorem through [Casing] (h : Follows P G R d p xs y) (hT : Tolerates P G R) {K : Call}
    {B : Break → Store → Prop} {offset : Nat} {σ τ : Context} {seg : List Instr} {names : Names}
    {st : Store} {m : Machine} {ops : List Value} {last : Last}
    (hpiece : Piece P G R d K B p xs offset σ seg τ names) (hcode : K.CodeAt offset seg)
    (hstanding : K.Standing P G st m offset ops)
    (hy : (y K.current names last).Sat st (fun last' st' => ∀ m',
      K.Standing P G st' m' (offset + Instr.bytes seg) ops →
      (K.current = none → m.lastPopped.Shows P G st.lambdas last.final →
        m'.lastPopped.Shows P G st'.lambdas last'.final) → m'.Runs R) B) : m.Runs R := by
  refine h.run K B offset σ seg τ names st m ops last hpiece
    (hcode.of_prefix (Instr.trunk_prefix seg)) hstanding (hy.mono ?_)
  intro last' st' hlast' m' hends
  cases hends with
  | idle hseg =>
    subst hseg
    exact hlast' m hstanding fun _ => id
  | bound _ _ _ hstanding' hrecent => exact hlast' m' hstanding' fun hmain _ => hrecent hmain
  | @shown t w _ _ hseg hstanding' =>
    subst hseg
    refine hstanding'.step hT hpiece.ok hcode.right ?_
    intro m₁ hstanding₁
    obtain ⟨S, hlive, hdropped⟩ := hstanding₁.dropped
    refine Exec.pop_sat hstanding₁.fits hlive ?_
    intro m₂ hagrees hfits hlive₂ hpopped
    refine hlast' m₂ ?_ fun _ _ => ?_
    · rw [Instr.bytes_append, ← Nat.add_assoc]
      exact hdropped m₂ hagrees hfits hlive₂
    · rw [hpopped]
      exact hstanding₁.shows_top

theorem nothing [Casing] : Follows P G R d Emission.nothing [] (fun _ _ last => pure last) where
  idle _ _ _ _ _ _ _ := rfl
  run := by
    intro K B offset σ seg τ names st m ops last hpiece hcode hstanding hy
    obtain ⟨rfl, rfl⟩ := hpiece.emits
    exact hy m (.idle rfl)

/-- Statements one after another. -/
theorem seq [Casing] (hy : Follows P G R d p xs y) (hz : Follows P G R d q ys z)
    (hT : Tolerates P G R) (hp : p.Lawful) (hq : q.Lawful) (hbinds : p.Binds xs) :
    Follows P G R d (p.seq q) (xs ++ ys)
      (fun current names last => do
        let last ← y current names last
        z current (names.bindAll xs) last) where
  idle := by
    rintro offset σ τ ⟨s, σ₁, t, hs, ht, hnil⟩ current names last
    obtain ⟨rfl, rfl⟩ := List.append_eq_nil_iff.1 hnil.symm
    rw [hy.idle _ _ _ hs, pure_bind, hz.idle _ _ _ ht]
  run := by
    intro K B offset σ seg τ names st m ops last hpiece hcode hstanding h
    obtain ⟨s, σ₁, t, rfl, hfirst, hsecond⟩ := hpiece.split hp hq hbinds
    rw [Eval.sat_bind] at h
    by_cases ht : t = []
    · subst ht
      rw [List.append_nil] at hcode
      refine hy.run K B offset σ s σ₁ names st m ops last hfirst hcode hstanding (h.mono ?_)
      intro last₁ st₁ h₁ m₁ hends
      rw [hz.idle _ _ _ hsecond.emits, Eval.sat_pure] at h₁
      refine h₁ m₁ ?_
      rwa [List.append_nil]
    -- The first part is gone through with its last pop, the second part up to its own.
    · rw [Instr.trunk_append s ht] at hcode
      refine hy.through hT hfirst hcode.left hstanding (h.mono ?_)
      intro last₁ st₁ h₁ m₁ hstanding₁ _
      refine hz.run K B _ σ₁ t τ _ st₁ m₁ ops last₁ hsecond hcode.right hstanding₁ (h₁.mono ?_)
      intro last₂ st₂ h₂ m₂ hends
      refine h₂ m₂ ?_
      cases hends with
      | idle hnil => exact absurd hnil ht
      | @shown t' w _ _ hseg hstanding₂ =>
        refine .shown (t := s ++ t') (by rw [hseg, List.append_assoc]) ?_
        rwa [Instr.bytes_append, ← Nat.add_assoc]
      | @bound t' i v _ _ hseg hpop hreturns hstanding₂ hrecent =>
        refine .bound (t := s ++ t') (by rw [hseg, List.append_assoc]) hpop hreturns ?_ hrecent
        rwa [Instr.bytes_append, ← Nat.add_assoc]

/-- A branch pushes the value of its last statement. -/
theorem branch [Casing] (hy : Follows P G R d p xs y) (hT : Tolerates P G R) :
    Pushes P G R d (Emission.branch p) xs
      (fun current names => do return (← y current names .none).value) fun v => [v] := by
  intro K B offset σ seg τ names st m ops hpiece hcode hstanding h
  obtain ⟨s, hs, rfl⟩ := hpiece.emits
  rw [Eval.sat_bind] at h
  have hnull {st' : Store} {m' : Machine} {t : List Instr} (ht : Instr.keepValue s = t ++ [⟨.null, []⟩])
      (hstanding' : K.Standing P G st' m' (offset + Instr.bytes t) ops)
      (h' : ∀ ws m'', ws.map Value.outline = [.null] →
        K.Standing P G st' m'' (offset + Instr.bytes (Instr.keepValue s)) (ops ++ ws) → m''.Runs R) :
      m'.Runs R := by
    rw [ht] at hcode h'
    refine hstanding'.step hT hpiece.ok hcode.right ?_
    intro m₁ hstanding₁
    have hstanding₁' : K.Standing P G st' m₁ (offset + Instr.bytes t + Opcode.null.size) (ops ++ []) := by
      rwa [List.append_nil]
    refine hstanding₁'.yields hT (.source (r := .ok .null) rfl) ?_ ?_ nofun
    · intro w hw
      obtain rfl := Except.ok.inj hw
      exact .null
    · intro w m₂ hw hstanding₂
      obtain rfl := Except.ok.inj hw
      refine h' [.null] m₂ rfl ?_
      rw [Instr.bytes_append, ← Nat.add_assoc]
      exact hstanding₂
  refine hy.run K B offset σ s τ names st m ops .none (hpiece.of_emits hs)
    (hcode.of_prefix (Instr.trunk_prefix_keepValue s)) hstanding (h.mono ?_)
  intro last st' hlast m' hends
  rw [Eval.sat_pure] at hlast
  cases hends with
  | idle hnil =>
    subst hnil
    exact hnull (t := []) rfl hstanding hlast
  | @shown t w _ _ hseg hstanding' =>
    have hkeep : Instr.keepValue s = t := by simp [hseg, Instr.keepValue]
    rw [hkeep] at hlast
    exact hlast [w] m' rfl hstanding'
  | @bound t i v _ _ hseg hpop hreturns hstanding' _ =>
    have hkeep : Instr.keepValue s = s ++ [⟨.null, []⟩] := by
      simp [hseg, Instr.keepValue, hpop, hreturns]
    exact hnull hkeep hstanding' hlast

/-- The body of a function leaves the call with the value of its last statement. -/
theorem leaves [Casing] (hy : Follows P G R d p xs y) (hT : Tolerates P G R) {K : Call}
    {B : Break → Store → Prop} {σ τ : Context} {s : List Instr} {names : Names} {st : Store}
    {m : Machine} (hpiece : Piece P G R d K B p xs 0 σ s τ names) (hinstrs : K.instrs = Instr.close s)
    (hstanding : K.Standing P G st m 0 [])
    (h : (do return (← y K.current names .none).value : Eval Value).Sat st (fun v st' => ∀ (w : Value) m',
      w.Shows P G st'.lambdas v → K.Inside P G st' m' →
      Exec.Sat (Exec.leave w) m' (fun _ m'' => m''.Runs R) (Machine.Stops R)) B) : m.Runs R := by
  have hcode : K.CodeAt 0 (Instr.close s) := ⟨[], [], by simp [hinstrs], rfl⟩
  rw [Eval.sat_bind] at h
  have hnull {st' : Store} {m' : Machine} {t : List Instr} (ht : Instr.close s = t ++ [⟨.ret, []⟩])
      (hstanding' : K.Standing P G st' m' (0 + Instr.bytes t) [])
      (h' : ∀ (w : Value) m'', w.Shows P G st'.lambdas .null → K.Inside P G st' m'' →
        Exec.Sat (Exec.leave w) m'' (fun _ m'' => m''.Runs R) (Machine.Stops R)) : m'.Runs R := by
    rw [ht] at hcode
    refine hstanding'.step hT hpiece.ok hcode.right ?_
    intro m₁ hstanding₁
    exact h' .null m₁ ⟨rfl, .null⟩ hstanding₁.inside
  refine hy.run K B 0 σ s τ names st m [] .none hpiece
    (hcode.of_prefix (Instr.trunk_prefix_close s)) hstanding (h.mono ?_)
  intro last st' hlast m' hends
  rw [Eval.sat_pure] at hlast
  cases hends with
  | idle hnil =>
    subst hnil
    exact hnull (t := []) rfl hstanding hlast
  | @shown t w _ _ hseg hstanding' =>
    have hclose : Instr.close s = t ++ [⟨.returnValue, []⟩] := by simp [hseg, Instr.close]
    rw [hclose] at hcode
    refine hstanding'.step hT hpiece.ok hcode.right ?_
    intro m₁ hstanding₁
    rw [← List.nil_append [w]] at hstanding₁
    refine hstanding₁.returnValue fun m₂ hinside => ?_
    exact hlast w m₂ hstanding₁.shows_top hinside
  | @bound t i v _ _ hseg hpop hreturns hstanding' _ =>
    have hclose : Instr.close s = s ++ [⟨.ret, []⟩] := by
      simp [hseg, Instr.close, hpop, hreturns]
    exact hnull hclose hstanding' hlast

end Follows

/-! ### Single statements -/

section

variable {x : Option Current → Names → Eval Value}

theorem follows_expr [Casing] (hx : Pushes P G R d p xs x fun v => [v]) :
    Follows P G R d (p.seq (Emission.one ⟨.pop, []⟩)) xs
      (fun current names _ => do return .shown (← x current names)) where
  idle := by
    rintro offset σ τ ⟨s, _, _, _, ⟨rfl, rfl⟩, hnil⟩
    simp at hnil
  run := by
    intro K B offset σ seg τ names st m ops last hpiece hcode hstanding h
    obtain ⟨s, rfl, hfirst⟩ := hpiece.split_one
    rw [Instr.trunk_pop] at hcode
    rw [Eval.sat_bind] at h
    refine hx K B offset σ s τ names st m ops hfirst hcode hstanding (h.mono ?_)
    intro v st₁ h₁ ws m₁ hws hstanding₁
    obtain ⟨w, rfl, rfl⟩ := List.map_eq_singleton_iff.1 hws
    exact h₁ m₁ (.shown rfl hstanding₁)

theorem follows_ret [Casing] (hx : Pushes P G R d p xs x fun v => [v]) (hT : Tolerates P G R) :
    Follows P G R d (p.seq (Emission.one ⟨.returnValue, []⟩)) xs
      (fun current names _ => do throw (.returned (← x current names))) where
  idle := by
    rintro offset σ τ ⟨s, _, _, _, ⟨rfl, rfl⟩, hnil⟩
    simp at hnil
  run := by
    intro K B offset σ seg τ names st m ops last hpiece hcode hstanding h
    obtain ⟨s, rfl, hfirst⟩ := hpiece.split_one
    rw [Instr.trunk_of_ne s (by decide)] at hcode
    rw [Eval.sat_bind] at h
    refine hx K B offset σ s τ names st m ops hfirst hcode.left hstanding (h.mono ?_)
    intro v st₁ hbreak ws m₁ hws hstanding₁
    obtain ⟨w, rfl, rfl⟩ := List.map_eq_singleton_iff.1 hws
    rw [Eval.sat_throw] at hbreak
    refine hstanding₁.step hT hpiece.ok hcode.right ?_
    intro m₂ hstanding₂
    exact hstanding₂.returnValue fun m₃ hinside =>
      hpiece.breaks.returned _ st₁ hbreak w m₃ hstanding₂.shows_top hinside

theorem follows_retNone [Casing] (hT : Tolerates P G R) :
    Follows P G R d (Emission.one ⟨.ret, []⟩) [] (fun _ _ _ => throw (.returned .null)) where
  idle := by
    rintro offset σ τ ⟨hnil, -⟩
    cases hnil
  run := by
    intro K B offset σ seg τ names st m ops last hpiece hcode hstanding hbreak
    obtain ⟨rfl, rfl⟩ := hpiece.emits
    rw [Eval.sat_throw] at hbreak
    refine hstanding.step hT hpiece.ok hcode ?_
    intro m₁ hstanding₁
    exact hpiece.breaks.returned _ st hbreak .null m₁ ⟨rfl, .null⟩ hstanding₁.inside

end

/-! ### Assignments -/

/-- A global variable is assigned to by storing a value in its slot. -/
theorem Mirrors.assign {st : Store} {m : Machine} {k : Nat} {x : Bytes} {w v : Value}
    (h : Mirrors P G st m) (hG : G.Nodup) (hx : G[k]? = some x) (hw : w.Shows P G st.lambdas v) :
    Mirrors P G { st with globals := assigned st.globals x v }
      { m with globals := m.globals.setIfInBounds k w } where
  constants := h.constants
  fresh := h.fresh
  written := h.written
  globals := by
    intro k' x' w' hx' hw'
    change w'.Shows P G st.lambdas (if x' = x then v else st.globals x')
    by_cases hk : k = k'
    · subst hk
      obtain rfl : x = x' := Option.some.inj (hx.symm.trans hx')
      rw [if_pos rfl]
      rw [Array.getElem?_setIfInBounds_self] at hw'
      split at hw'
      · obtain rfl := Option.some.inj hw'
        exact hw
      · cases hw'
    · have hne : x' ≠ x := by
        rintro rfl
        exact hk ((List.getElem?_inj (List.getElem?_eq_some_iff.1 hx).1 hG).1 (hx.trans hx'.symm))
      rw [Array.getElem?_setIfInBounds_ne hk] at hw'
      rw [if_neg hne]
      exact h.globals k' x' w' hx' hw'
  spare := by
    intro k' w' hk' hw'
    have hk : k ≠ k' := by
      have := (List.getElem?_eq_some_iff.1 hx).1
      omega
    rw [Array.getElem?_setIfInBounds_ne hk] at hw'
    exact h.spare k' w' hk' hw'
  unset := by
    intro x' hx'
    have hne : x' ≠ x := by
      rintro rfl
      exact hx' (List.mem_of_getElem? hx)
    exact (if_neg hne).trans (h.unset x' hx')

/-- The variables of the current call are on the stack. -/
theorem Mirrors.withVars {st : Store} {m : Machine} (h : Mirrors P G st m) (vars : Bytes → Value) :
    Mirrors P G { st with vars := vars } m :=
  ⟨h.constants, h.fresh, h.written, h.globals, h.spare, h.unset⟩

/-- The variables of a call, when one of them has been assigned to. -/
theorem forall₂_assigned {S : Value → Value → Prop} {slots : List Bytes} {locals : List Value}
    {vars : Bytes → Value} (h : List.Forall₂ (fun x w => S w (vars x)) slots locals)
    (hnodup : slots.Nodup) {k : Nat} {x : Bytes} (hx : slots[k]? = some x) {w v : Value} (hw : S w v) :
    List.Forall₂ (fun y u => S u (assigned vars x v y)) slots (locals.set k w) := by
  induction h generalizing k with
  | nil => cases hx
  | @cons y u slots locals hu hrest ih =>
    obtain ⟨hy, hnodup⟩ := List.nodup_cons.1 hnodup
    cases k with
    | zero =>
      obtain rfl := Option.some.inj hx
      refine .cons (by rwa [assigned, if_pos rfl]) ?_
      have hothers : ∀ z ∈ slots, z ≠ y := by
        rintro z hz rfl
        exact hy hz
      refine ((List.forall₂_and_left _ _).2 ⟨hothers, hrest⟩).imp ?_
      rintro z r ⟨hz, hr⟩
      rwa [assigned, if_neg hz]
    | succ k =>
      refine .cons ?_ (ih hnodup hx)
      have hne : y ≠ x := by
        rintro rfl
        exact hy (List.mem_of_getElem? hx)
      rwa [assigned, if_neg hne]

/-- The place is that of a variable to which the code of the call can assign: a global one in the main
code, and one of its own in a function. -/
def Call.Assigns (G : List Bytes) (K : Call) (x : Bytes) : Place → Prop
  | .global k => K.current = none ∧ G[k]? = some x
  | .local k => K.current.isSome ∧ K.slots[k]? = some x
  | _ => False

/-- A name is bound to such a place. -/
theorem Call.Covers.assigns {K : Call} {names : Names} {t : Table} {ts : List Table} {x : Bytes}
    (hcovers : K.Covers G (names.bind x)) (hnames : names.Match (t :: ts)) :
    K.Assigns G x (t.define x).1 := by
  obtain ⟨globals, levels⟩ := names
  have hget {bound all : List Bytes} {k : Nat} (hpre : bound <+: all) (hk : bound[k]? = some x) :
      all[k]? = some x := by
    obtain ⟨rest, rfl⟩ := hpre
    rw [List.getElem?_append_left (List.getElem?_eq_some_iff.1 hk).1, hk]
  cases levels with
  | nil =>
    cases ts with
    | cons u ts => exact hnames.elim
    | nil =>
      obtain ⟨k, hk, hx⟩ := hnames.lists.define_place x
      rw [hk, Table.slot, if_neg (by simp [hnames.enclosed])]
      exact ⟨hcovers.2, hget hcovers.1 hx⟩
  | cons l levels =>
    obtain ⟨hl, -⟩ := hnames
    obtain ⟨k, hk, hx⟩ := hl.lists.define_place x
    rw [hk, Table.slot, if_pos hl.enclosed]
    exact ⟨hcovers.2.2.2, hget hcovers.2.1 hx⟩

/-- The topmost operand is assigned to a variable. -/
theorem Call.Standing.store [Casing] {K : Call} {B : Break → Store → Prop} {st : Store}
    {m : Machine} {next : Nat} {ops : List Value} {w : Value} {x : Bytes} {place : Place}
    (hstanding : K.Standing P G st m next (ops ++ [w])) (hT : Tolerates P G R) (hK : K.Ok P G)
    (hplace : K.Assigns G x place)
    (h : (Eval.assign K.current x w.outline).Sat st (fun _ st' => ∀ m', K.Standing P G st' m' next ops →
      (K.current = none → m'.lastPopped.Shows P G st'.lambdas w.outline) → m'.Runs R) B) :
    Exec.Sat (Exec.exec place.store) m (fun _ m' => m'.Runs R) (Machine.Stops R) := by
  have hshows := hstanding.shows_top
  cases place with
  | builtin slot => exact hplace.elim
  | free index => exact hplace.elim
  | self => exact hplace.elim
  | global k =>
    obtain ⟨hmain, hx⟩ := hplace
    obtain ⟨S, hlive, hdropped⟩ := hstanding.dropped
    refine Exec.setGlobal_sat hstanding.fits hlive ?_ ?_
    · intro m' hagrees hfits hlive' hpopped _
      have hstanding' := hdropped m' hagrees hfits hlive'
      have hmirrors := hstanding'.mirrors.assign hK.globals hx hshows
      rw [hmain] at h
      refine h _ ⟨hmirrors.transfer rfl rfl rfl ?_, hfits, hstanding'.frame, hstanding'.callers,
        hstanding'.depth, hstanding'.grown, hstanding'.live, hstanding'.ops⟩ fun _ => ?_
      · rw [hagrees.globals]
      · change m'.lastPopped.Shows P G st.lambdas w.outline
        rw [hpopped]
        exact hshows
    · intro _
      exact (hT st m hstanding.mirrors).2 _ trivial
  | «local» k =>
    obtain ⟨hinside, hx⟩ := hplace
    obtain ⟨c, hc⟩ := Option.isSome_iff_exists.1 hinside
    obtain ⟨locals, hlive, hlocals⟩ := hstanding.live
    have hbase : m.frame.base = K.below.length := by rw [hstanding.frame, hK.base]
    have hk : k < locals.length := by
      rw [← hlocals.length_eq]
      exact (List.getElem?_eq_some_iff.1 hx).1
    have hlive' : m.live = (K.below ++ (locals ++ ops)) ++ [w] := by simp [hlive]
    refine Exec.setLocal_sat hstanding.fits hlive' (n := k) ?_ ?_
    · simp only [hbase, List.length_append]
      omega
    · intro m' hagrees hfits hlive''
      rw [hc] at h
      refine h m' ⟨(hstanding.mirrors.of_agrees hagrees).withVars _, hfits,
        hagrees.frame.trans hstanding.frame, hagrees.callers.trans hstanding.callers,
        hagrees.maxFrames.trans hstanding.depth, hstanding.grown, ?_, ?_⟩ nofun
      · refine ⟨locals.set k w, ?_, forall₂_assigned hlocals hK.nodup hx hshows⟩
        rw [hlive'', hbase, List.set_append_right _ _ (Nat.le_add_right _ _), Nat.add_sub_cancel_left,
          List.set_append_left _ _ hk]
      · exact fun u hu => hstanding.ops u (List.mem_append_left _ hu)

/-- The name is bound before its value is computed. -/
theorem follows_bind [Casing] {x : Option Current → Names → Eval Value} (name : Bytes)
    (hx : Pushes P G R d p xs x fun v => [v]) (hT : Tolerates P G R) :
    Follows P G R d (Emission.bind name p) (name :: xs)
      (fun current names _ => do
        let v ← x current (names.bind name)
        Eval.assign current name v
        return .bound v) where
  idle := by
    rintro offset σ τ ⟨-, s, -, hnil⟩
    simp at hnil
  run := by
    intro K B offset σ seg τ names st m ops last hpiece hcode hstanding h
    obtain ⟨hstorable, s, hs, rfl⟩ := hpiece.emits
    have hcovers : K.Covers G (names.bind name) := Call.Covers.of_bindAll hpiece.covers
    have hplace : K.Assigns G name (σ.table.define name).1 :=
      hcovers.assigns hpiece.known
    have hop : (σ.table.define name).1.store.op ≠ .pop ∧
        ¬ (σ.table.define name).1.store.Returns := by
      cases (σ.table.define name).1 <;> simp [Place.store, Instr.Returns]
    rw [Instr.trunk_of_ne s hop.1] at hcode
    have hvalue : Piece P G R d K B p xs offset (σ.define name) s τ (names.bind name) :=
      ⟨hpiece.ok, hpiece.depth, hpiece.breaks, hs, hpiece.context.define hstorable,
        Names.Match.define hpiece.known name, hpiece.grows, hpiece.covers⟩
    rw [Eval.sat_bind] at h
    refine hx K B offset _ s τ _ st m ops hvalue hcode.left hstanding (h.mono ?_)
    intro v st₁ h₁ ws m₁ hws hstanding₁
    obtain ⟨w, rfl, rfl⟩ := List.map_eq_singleton_iff.1 hws
    refine hstanding₁.step hT hpiece.ok hcode.right ?_
    intro m₂ hstanding₂
    rw [Eval.sat_bind] at h₁
    refine hstanding₂.store hT hpiece.ok hplace (h₁.mono ?_)
    intro _ st₃ h₃ m₃ hstanding₃ hrecent
    refine h₃ m₃ (.bound rfl hop.1 hop.2 ?_ hrecent)
    rw [Instr.bytes_append, Instr.bytes_cons, Instr.bytes_nil, Nat.add_zero, ← Nat.add_assoc]
    exact hstanding₃

/-! ### Conditions -/

/-- The parts of a condition. -/
theorem Piece.split_cond [Casing] {r : Emission} {zs : List Bytes} {K : Call}
    {B : Break → Store → Prop} {offset : Nat} {σ τ : Context} {seg : List Instr} {names : Names}
    (h : Piece P G R d K B (Emission.cond p q r) (xs ++ (ys ++ zs)) offset σ seg τ names)
    (hp : p.Lawful) (hq : q.Lawful) (hr : r.Lawful) (hpbinds : p.Binds xs) (hqbinds : q.Binds ys) :
    ∃ s t u σ₁ σ₂ yesAt elseAt,
      Piece P G R d K B p xs offset σ s σ₁ names ∧
      Piece P G R d K B q ys yesAt σ₁ t σ₂ (names.bindAll xs) ∧
      Piece P G R d K B r zs elseAt σ₂ u τ ((names.bindAll xs).bindAll ys) ∧
      yesAt = offset + Instr.bytes s + Opcode.jumpIfFalse.size ∧
      elseAt = yesAt + Instr.bytes t + Opcode.jump.size ∧
      seg = s ++ ⟨.jumpIfFalse, [elseAt]⟩ :: (t ++ ⟨.jump, [elseAt + Instr.bytes u]⟩ :: u) := by
  obtain ⟨s, σ₁, t, σ₂, u, yesAt, elseAt, endAt, hs, ht, hu, hyes, helse, rfl, -, hseg⟩ := h.emits
  obtain ⟨hσ₁, -, -⟩ := hp _ _ _ _ hs h.context
  obtain ⟨hσ₂, hgrows₁, -⟩ := hq _ _ _ _ ht hσ₁
  obtain ⟨-, hgrows₂, -⟩ := hr _ _ _ _ hu hσ₂
  have hcovers := h.covers
  rw [Names.bindAll_append, Names.bindAll_append] at hcovers
  have hknown₁ := hpbinds _ _ _ _ _ hs h.known
  have hknown₂ := hqbinds _ _ _ _ _ ht hknown₁
  have hfinal := hgrows₂.trans h.grows
  exact ⟨s, t, u, σ₁, σ₂, yesAt, elseAt,
    ⟨h.ok, h.depth, h.breaks, hs, h.context, h.known, hgrows₁.trans hfinal,
      hcovers.of_bindAll.of_bindAll⟩,
    ⟨h.ok, h.depth, h.breaks, ht, hσ₁, hknown₁, hfinal, hcovers.of_bindAll⟩,
    ⟨h.ok, h.depth, h.breaks, hu, hσ₂, hknown₂, h.grows, hcovers⟩, hyes, helse, hseg⟩

/-- A condition pushes the value of the branch that is taken. -/
theorem Pushes.cond [Casing] {r : Emission} {zs : List Bytes}
    {x y z : Option Current → Names → Eval Value}
    (hx : Pushes P G R d p xs x fun v => [v]) (hy : Pushes P G R d q ys y fun v => [v])
    (hz : Pushes P G R d r zs z fun v => [v]) (hT : Tolerates P G R) (hp : p.Lawful) (hq : q.Lawful)
    (hr : r.Lawful) (hpbinds : p.Binds xs) (hqbinds : q.Binds ys) :
    Pushes P G R d (Emission.cond p q r) (xs ++ (ys ++ zs))
      (fun current names => do
        let v ← x current names
        if v.truthy then y current (names.bindAll xs)
        else z current ((names.bindAll xs).bindAll ys)) fun v => [v] := by
  intro K B offset σ seg τ names st m ops hpiece hcode hstanding h
  obtain ⟨s, t, u, σ₁, σ₂, yesAt, elseAt, htest, hyes, hno, hyesAt, helseAt, rfl⟩ :=
    hpiece.split_cond hp hq hr hpbinds hqbinds
  have hend : offset + Instr.bytes (s ++ ⟨.jumpIfFalse, [elseAt]⟩ ::
      (t ++ ⟨.jump, [elseAt + Instr.bytes u]⟩ :: u)) = elseAt + Instr.bytes u := by
    simp only [Instr.bytes_append, Instr.bytes_cons]
    omega
  rw [hend] at h
  have hjumpIf := hcode.right
  have hyesCode := hjumpIf.tail.left
  have hjump := hjumpIf.tail.right
  have hnoCode := hjump.tail
  rw [← hyesAt] at hyesCode hjump hnoCode
  rw [← helseAt] at hnoCode
  rw [Eval.sat_bind] at h
  refine hx K B offset σ s σ₁ names st m ops htest hcode.left hstanding (h.mono ?_)
  intro v st₁ h₁ ws m₁ hws hstanding₁
  obtain ⟨w, rfl, rfl⟩ := List.map_eq_singleton_iff.1 hws
  refine hstanding₁.step hT hpiece.ok hjumpIf ?_
  intro m₂ hstanding₂
  obtain ⟨S, hlive, hdropped⟩ := hstanding₂.dropped
  refine Exec.jumpIfFalse_sat hstanding₂.fits hlive ?_
  intro m₃ hagrees hfits hlive₃
  have hstanding₃ := hdropped m₃ hagrees hfits hlive₃
  rw [Value.truthy_outline] at h₁
  by_cases hw : w.truthy = true
  · rw [if_pos hw] at h₁ ⊢
    rw [← hyesAt] at hstanding₃
    refine hy K B yesAt σ₁ t σ₂ _ st₁ m₃ ops hyes hyesCode hstanding₃ (h₁.mono ?_)
    intro v st₂ h₂ ws m₄ hws hstanding₄
    refine hstanding₄.step hT hpiece.ok hjump ?_
    intro m₅ hstanding₅
    exact Exec.jump_sat (h₂ ws _ hws (hstanding₅.goto _))
  · rw [if_neg hw] at h₁ ⊢
    exact hz K B elseAt σ₂ u τ _ st₁ _ ops hno hnoCode (hstanding₃.goto _) h₁

/-! ### Bodies -/

theorem follows_body [Casing] {call : Value → List Value → Eval Value} {body : List Stmt}
    (hT : Tolerates P G R) (h : ∀ s ∈ body, Follows P G R d s.Emits s.lets
      fun current names last => s.eval call current names last) :
    Follows P G R d (Emission.all (emitsBody body)) (letsBody body)
      fun current names last => evalBody call current names last body := by
  induction body with
  | nil => exact .nothing
  | cons s rest ih =>
    obtain ⟨hs, hrest⟩ := List.forall_mem_cons.1 h
    have hlawful : (Emission.all (emitsBody rest)).Lawful := by
      rw [emitsBody_eq]
      apply Emission.Lawful.all
      simp only [List.mem_map]
      rintro _ ⟨s, -, rfl⟩
      exact tree_lawful.stmt_all s
    exact hs.seq (ih hrest) hT (tree_lawful.stmt_all s) hlawful (tree_binds.stmt_all s)

end

end StackScript
