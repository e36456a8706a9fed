import StackScript.Proofs.Tree.Formed

/-!
# Reading on after a fault

A reader that fails has noted why, and it has moved the stream forward only. So
the depth that a source is read with never runs out, whatever its faults are:
every round of a loop goes past a token. What is left after the faults is a
program of its own, with the statements that could be read, and each of them is
well formed.

## Main definitions

* `Parse.Stream.Onward`: what readers may do to a stream.
* `Parse.Settles`: how a reader ends.
* `Parse.Settled`: all readers of trees end well at a depth.

## Main results

* `Parse.settled`: if the depth suffices, what is read is well formed, and a failure is noted.
* `Program.parse_formed`: every source has a well-formed tree, and failures are never silent.
-/

namespace StackScript

namespace Parse

/-! ### Streams that are read on -/

/-- Readers go forward and note faults. They do not take a fault back. -/
structure Stream.Onward (o s : Stream) : Prop where
  tokens : s.tokens <:+ o.tokens
  eof : s.eof = o.eof
  errors : o.errors <:+ s.errors
  spent : s.spent = o.spent

/-- A fault has been noted since. -/
def Stream.Blames (o s : Stream) : Prop := s.errors ≠ o.errors

/-- The tokens are written as their kinds say, and the end of the source comes after all of them. -/
structure Stream.Proper (o : Stream) : Prop where
  tokens : ∀ t ∈ o.tokens, t.Proper
  eof : o.eof.kind = .eof

namespace Stream.Onward

variable {o s : Stream}

theorem refl (o : Stream) : o.Onward o := ⟨List.suffix_rfl, rfl, List.suffix_rfl, rfl⟩

theorem advance (h : o.Onward s) : o.Onward { s with tokens := s.tokens.tail } :=
  ⟨(List.tail_suffix _).trans h.tokens, h.eof, h.errors, h.spent⟩

theorem note (h : o.Onward s) (e : ParseError) : o.Onward { s with errors := e :: s.errors } :=
  ⟨h.tokens, h.eof, h.errors.trans (List.suffix_cons e s.errors), h.spent⟩

/-- A fault that is noted stays. -/
theorem blames_note (h : o.Onward s) (e : ParseError) :
    o.Blames { s with errors := e :: s.errors } := by
  intro heq
  have hlength : s.errors.length + 1 = o.errors.length := congrArg List.length heq
  have hle := h.errors.length_le
  omega

/-- The current token is written as its kind says. -/
theorem proper_current (h : o.Onward s) (ho : o.Proper) : (s.tokens.headD s.eof).Proper := by
  cases htokens : s.tokens with
  | nil =>
    have hkind : s.eof.kind = .eof := by rw [h.eof, ho.eof]
    exact .of_kind (by rw [List.headD_nil, hkind]; decide) (by rw [List.headD_nil, hkind]; decide)
  | cons t ts => exact ho.tokens t (h.tokens.subset (htokens ▸ List.mem_cons_self ..))

/-- At the end of the source there is no token but that for the end. -/
theorem length_pos (h : o.Onward s) (ho : o.Proper) (hkind : (s.tokens.headD s.eof).kind ≠ .eof) :
    1 ≤ s.tokens.length := by
  cases htokens : s.tokens with
  | nil =>
    rw [htokens, List.headD_nil, h.eof] at hkind
    exact absurd ho.eof hkind
  | cons t ts => exact Nat.le_add_left 1 ts.length

theorem two_le_length (h : o.Onward s) (ho : o.Proper)
    (hkind : (s.tokens.tail.headD s.eof).kind ≠ .eof) : 2 ≤ s.tokens.length := by
  have htail := h.advance.length_pos ho hkind
  rw [List.length_tail] at htail
  omega

end Stream.Onward

/-! ### How a reader ends -/

variable {α β : Type} {o s : Stream} {F : Stream → Prop} {Q : α → Prop} {R : β → Prop}

/-- The reader goes forward from `s`, which is `o` read on. It yields something with the property
`Q`, or it fails and leaves a stream with the property `F`. -/
def Settles (o : Stream) (F : Stream → Prop) (x : Parse α) (s : Stream) (Q : α → Prop) : Prop :=
  o.Onward (x s).2 ∧ (x s).2.tokens.length ≤ s.tokens.length ∧
    match (x s).1 with
    | some a => Q a
    | none => F (x s).2

namespace Settles

theorem pure (hs : o.Onward s) {a : α} (ha : Q a) : Settles o F (Pure.pure a) s Q :=
  ⟨hs, Nat.le_refl _, ha⟩

theorem fail (hs : o.Onward s) (hF : F s) : Settles o F (fail : Parse α) s Q :=
  ⟨hs, Nat.le_refl _, hF⟩

theorem bind {x : Parse α} {f : α → Parse β} (hx : Settles o F x s Q)
    (hf : ∀ a s', Q a → o.Onward s' → s'.tokens.length ≤ s.tokens.length →
      Settles o F (f a) s' R) : Settles o F (x >>= f) s R := by
  obtain ⟨hon, hlength, hresult⟩ := hx
  cases hxs : x s with
  | mk r s' =>
    rw [hxs] at hon hlength hresult
    cases r with
    | none =>
      rw [Settles, bind_none hxs]
      exact ⟨hon, hlength, hresult⟩
    | some a =>
      obtain ⟨hon', hlength', hresult'⟩ := hf a s' hresult hon hlength
      rw [Settles, bind_some hxs]
      exact ⟨hon', Nat.le_trans hlength' hlength, hresult'⟩

/-- A failure that is yielded as a result may be passed over. -/
theorem attempt {x : Parse α} {F' : Stream → Prop} {f : Option α → Parse β}
    (hx : Settles o F' x s Q)
    (hsome : ∀ a s', Q a → o.Onward s' → s'.tokens.length ≤ s.tokens.length →
      Settles o F (f (some a)) s' R)
    (hnone : ∀ s', F' s' → o.Onward s' → s'.tokens.length ≤ s.tokens.length →
      Settles o F (f none) s' R) : Settles o F (attempt x >>= f) s R := by
  obtain ⟨hon, hlength, hresult⟩ := hx
  have hcontinue (r : Option α) (s' : Stream) (hxs : x s = (r, s'))
      (hr : Settles o F (f r) s' R) (hle : s'.tokens.length ≤ s.tokens.length) :
      Settles o F (Parse.attempt x >>= f) s R := by
    obtain ⟨hon', hlength', hresult'⟩ := hr
    rw [Settles, bind_some (attempt_eq hxs)]
    exact ⟨hon', Nat.le_trans hlength' hle, hresult'⟩
  cases hxs : x s with
  | mk r s' =>
    rw [hxs] at hon hlength hresult
    cases r with
    | none => exact hcontinue none s' hxs (hnone s' hresult hon hlength) hlength
    | some a => exact hcontinue (some a) s' hxs (hsome a s' hresult hon hlength) hlength

theorem mono {x : Parse α} {F' : Stream → Prop} (hx : Settles o F' x s Q)
    (hF : ∀ s', F' s' → F s') : Settles o F x s Q := by
  obtain ⟨hon, hlength, hresult⟩ := hx
  refine ⟨hon, hlength, ?_⟩
  cases hr : (x s).1 with
  | none =>
    rw [hr] at hresult
    exact hF _ hresult
  | some a =>
    rw [hr] at hresult
    exact hresult

theorem ite {p : Prop} [Decidable p] {x y : Parse α} (hx : p → Settles o F x s Q)
    (hy : ¬p → Settles o F y s Q) : Settles o F (if p then x else y) s Q := by
  split
  · next hp => exact hx hp
  · next hp => exact hy hp

theorem current {f : Token → Parse β} (h : Settles o F (f (s.tokens.headD s.eof)) s R) :
    Settles o F (current >>= f) s R := h

theorem peek {f : Token → Parse β} (h : Settles o F (f (s.tokens.tail.headD s.eof)) s R) :
    Settles o F (peek >>= f) s R := h

theorem advance {f : Unit → Parse β} (hs : o.Onward s)
    (hf : ∀ s', o.Onward s' → s'.tokens.length = s.tokens.length - 1 → Settles o F (f ()) s' R) :
    Settles o F (advance >>= f) s R := by
  obtain ⟨hon, hlength, hresult⟩ := hf _ hs.advance List.length_tail
  rw [List.length_tail] at hlength
  exact ⟨hon, by exact Nat.le_trans hlength (Nat.sub_le _ _), hresult⟩

theorem note {f : Unit → Parse β} (hs : o.Onward s) {e : ParseError}
    (hf : ∀ s', o.Onward s' → o.Blames s' → Settles o F (f ()) s' R) :
    Settles o F (note e >>= f) s R := by
  obtain ⟨hon, hlength, hresult⟩ := hf _ (hs.note e) (hs.blames_note e)
  exact ⟨hon, hlength, hresult⟩

/-- After a token that was required, it is the current one. -/
theorem expect {kind : Token.Kind} {f : Unit → Parse β} (hs : o.Onward s) (ho : o.Proper)
    (hkind : kind ≠ .eof)
    (hf : ∀ s', o.Onward s' → s'.tokens.length + 1 = s.tokens.length → 1 ≤ s'.tokens.length →
      (s'.tokens.headD s'.eof).kind = kind → s'.errors = s.errors →
      Settles o o.Blames (f ()) s' R) :
    Settles o o.Blames (expect kind >>= f) s R := by
  by_cases hnext : (s.tokens.tail.headD s.eof).kind = kind
  · have htwo := hs.two_le_length ho (hnext ▸ hkind)
    have hread : Parse.expect kind s = (some (), { s with tokens := s.tokens.tail }) := by
      simp only [Parse.expect, Bind.bind, Parse.bind, Parse.peek, if_pos hnext, Parse.advance]
    have hlength : s.tokens.tail.length = s.tokens.length - 1 := List.length_tail
    obtain ⟨hon, hle, hresult⟩ := hf { s with tokens := s.tokens.tail } hs.advance
      (by dsimp only; omega) (by dsimp only; omega) hnext rfl
    rw [Settles, bind_some hread]
    exact ⟨hon, by dsimp only at hle; omega, hresult⟩
  · have hread : ∃ e, Parse.expect kind s = (none, { s with errors := e :: s.errors }) := by
      refine ⟨.expected (s.tokens.tail.headD s.eof).pos kind (s.tokens.tail.headD s.eof).kind, ?_⟩
      simp only [Parse.expect, Bind.bind, Parse.bind, Parse.peek, if_neg hnext, Parse.note,
        Parse.fail]
    obtain ⟨e, hread⟩ := hread
    rw [Settles, bind_none hread]
    exact ⟨hs.note e, Nat.le_refl _, hs.blames_note e⟩

/-- The name in a token for a name is a name. -/
theorem ident {f : Ident → Parse β} (hs : o.Onward s) (ho : o.Proper)
    (hkind : (s.tokens.headD s.eof).kind = .ident)
    (hf : ∀ id : Ident, Token.IsName id.name → Settles o F (f id) s R) :
    Settles o F (ident >>= f) s R :=
  hf ⟨.token (s.tokens.headD s.eof).pos, (s.tokens.headD s.eof).literal⟩
    ((hs.proper_current ho).ident hkind)

end Settles

/-! ### Names and numbers -/

theorem settles_moreParams (ho : o.Proper) {depth : Nat} {acc : List Ident} (hs : o.Onward s)
    (hdepth : s.tokens.length ≤ depth) (hlength : 1 ≤ s.tokens.length)
    (hacc : ∀ p ∈ acc, Token.IsName p.name) :
    Settles o o.Blames (moreParams depth acc) s fun ps => ∀ p ∈ ps, Token.IsName p.name := by
  induction depth generalizing s acc with
  | zero => omega
  | succ depth ih =>
    -- Every round goes past a comma and a name, so the tokens are used up before the depth is.
    rw [moreParams]
    refine .peek (.ite (fun hcomma => ?_) fun _ => ?_)
    · have htwo := hs.two_le_length ho (by rw [hcomma]; decide)
      refine .advance hs fun s₁ hs₁ hlength₁ => ?_
      refine .expect hs₁ ho (by decide) fun s₂ hs₂ hlength₂ hpos hkind _ => ?_
      refine .ident hs₂ ho hkind fun id hid => ?_
      exact ih hs₂ (by omega) hpos (List.forall_mem_cons.2 ⟨hid, hacc⟩)
    · exact .expect hs ho (by decide) fun s₁ hs₁ _ _ _ _ => .pure hs₁ (by simpa using hacc)

theorem settles_params (ho : o.Proper) {depth : Nat} (hs : o.Onward s)
    (hdepth : s.tokens.length ≤ depth + 1) :
    Settles o o.Blames (params depth) s fun ps => ∀ p ∈ ps, Token.IsName p.name := by
  rw [params]
  refine .peek (.ite (fun _ => ?_) fun _ => ?_)
  · exact .advance hs fun s₁ hs₁ _ => .pure hs₁ (List.forall_mem_nil _)
  · refine .expect hs ho (by decide) fun s₁ hs₁ hlength₁ hpos hkind _ => .ident hs₁ ho hkind
      fun id hid => ?_
    exact settles_moreParams ho hs₁ (by omega) hpos (List.forall_mem_singleton.2 hid)

theorem toInt_ofNat_of_le {n : Nat} (h : n ≤ maxLiteral) : (Int64.ofNat n).toInt = n := by
  rw [maxLiteral] at h
  exact Int64.toInt_ofNat_of_lt (by omega)

theorem settles_integer (ho : o.Proper) (hs : o.Onward s)
    (hkind : (s.tokens.headD s.eof).kind = .int) :
    Settles o o.Blames integer s (Expr.Formed []) := by
  rw [integer]
  refine .current (.ite (fun hrange => ?_) fun _ => ?_)
  · refine .pure hs (.int ((hs.proper_current ho).int hkind) (toInt_ofNat_of_le hrange) ?_)
    rw [maxLiteral] at hrange
    omega
  · exact .note hs fun s₁ hs₁ hblames => .fail hs₁ hblames

theorem mem_known_of_ofKind? {kind : Token.Kind} {op : BinaryOp}
    (h : BinaryOp.ofKind? kind = some op) : op ∈ BinaryOp.known := by
  unfold BinaryOp.ofKind? at h
  split at h <;> cases h <;> decide

/-! ### Readers of trees -/

/-- At this depth the readers of trees do not run out of it, given streams that are not too long.
What they yield is well formed, and if they fail they have noted a fault. Statements never fail as
a whole.

A reader that calls another one at the same token has a larger constant in its bound, and every
token that is passed gains six. -/
structure Settled (o : Stream) (depth : Nat) : Prop where
  expr : ∀ {s : Stream} (precedence : Nat), o.Onward s → 6 * s.tokens.length + 2 ≤ depth →
    Settles o o.Blames (expr depth precedence) s (Expr.Formed [])
  primary : ∀ {s : Stream}, o.Onward s → 6 * s.tokens.length + 1 ≤ depth →
    Settles o o.Blames (primary depth) s (Expr.Formed [])
  unary : ∀ {s : Stream} (pos : Pos) {op : UnaryOp}, o.Onward s → 1 ≤ s.tokens.length →
    6 * s.tokens.length ≤ depth → op ∈ UnaryOp.known →
    Settles o o.Blames (unary depth pos op) s (Expr.Formed [])
  conditional : ∀ {s : Stream} (pos : Pos), o.Onward s → 1 ≤ s.tokens.length →
    6 * s.tokens.length ≤ depth → Settles o o.Blames (conditional depth pos) s (Expr.Formed [])
  operators : ∀ {s : Stream} (precedence : Nat) {left : Expr}, o.Onward s →
    6 * s.tokens.length + 1 ≤ depth → left.Formed [] →
    Settles o o.Blames (operators depth precedence left) s (Expr.Formed [])
  list : ∀ {s : Stream} {close : Token.Kind}, o.Onward s → 1 ≤ s.tokens.length →
    6 * s.tokens.length ≤ depth → close ≠ .eof →
    Settles o o.Blames (list depth close) s fun es => ∀ e ∈ es, e.Formed []
  moreItems : ∀ {s : Stream} {close : Token.Kind} {acc : List Expr}, o.Onward s →
    6 * s.tokens.length + 1 ≤ depth → close ≠ .eof → (∀ e ∈ acc, e.Formed []) →
    Settles o o.Blames (moreItems depth close acc) s fun es => ∀ e ∈ es, e.Formed []
  pairs : ∀ {s : Stream} {acc : List (Expr × Expr)}, o.Onward s → 1 ≤ s.tokens.length →
    6 * s.tokens.length ≤ depth → (∀ p ∈ acc, p.1.Formed [] ∧ p.2.Formed []) →
    Settles o o.Blames (pairs depth acc) s fun ps => ∀ p ∈ ps, p.1.Formed [] ∧ p.2.Formed []
  block : ∀ {s : Stream}, o.Onward s → 1 ≤ s.tokens.length → 6 * s.tokens.length ≤ depth →
    Settles o o.Blames (block depth) s Block.Formed
  statements : ∀ {s : Stream} (inBlock : Bool) {acc : List Stmt}, o.Onward s →
    6 * s.tokens.length + 4 ≤ depth → (∀ s ∈ acc, s.Formed) →
    Settles o (fun _ => False) (statements depth inBlock acc) s fun ss => ∀ s ∈ ss, s.Formed
  statement : ∀ {s : Stream}, o.Onward s → 6 * s.tokens.length + 3 ≤ depth →
    Settles o o.Blames (statement depth) s Stmt.Formed

namespace Settled

variable {depth : Nat} (h : Settled o depth)

include h

theorem expr_succ (precedence : Nat) (hs : o.Onward s)
    (hdepth : 6 * s.tokens.length + 2 ≤ depth + 1) :
    Settles o o.Blames (Parse.expr (depth + 1) precedence) s (Expr.Formed []) := by
  rw [Parse.expr]
  refine .bind (h.primary hs (by omega)) fun left s₁ hleft hs₁ hlength₁ => ?_
  exact h.operators precedence hs₁ (by omega) hleft

theorem unary_succ (pos : Pos) {op : UnaryOp} (hs : o.Onward s) (hpos : 1 ≤ s.tokens.length)
    (hdepth : 6 * s.tokens.length ≤ depth + 1) (hop : op ∈ UnaryOp.known) :
    Settles o o.Blames (Parse.unary (depth + 1) pos op) s (Expr.Formed []) := by
  rw [Parse.unary]
  refine .advance hs fun s₁ hs₁ hlength₁ => ?_
  refine .bind (h.expr _ hs₁ (by omega)) fun right s₂ hright hs₂ _ => ?_
  exact .pure hs₂ (.unary hop hright)

theorem conditional_succ (ho : o.Proper) (pos : Pos) (hs : o.Onward s)
    (hdepth : 6 * s.tokens.length ≤ depth + 1) :
    Settles o o.Blames (Parse.conditional (depth + 1) pos) s (Expr.Formed []) := by
  rw [Parse.conditional]
  refine .expect hs ho (by decide) fun s₁ hs₁ hlength₁ _ _ _ => ?_
  refine .advance hs₁ fun s₂ hs₂ hlength₂ => ?_
  refine .bind (h.expr _ hs₂ (by omega)) fun test s₃ htest hs₃ hlength₃ => ?_
  refine .expect hs₃ ho (by decide) fun s₄ hs₄ hlength₄ _ _ _ => ?_
  refine .expect hs₄ ho (by decide) fun s₅ hs₅ hlength₅ hpos₅ _ _ => ?_
  refine .bind (h.block hs₅ hpos₅ (by omega)) fun yes s₆ hyes hs₆ hlength₆ => ?_
  refine .peek (.ite (fun _ => ?_) fun _ => ?_)
  · refine .advance hs₆ fun s₇ hs₇ hlength₇ => ?_
    refine .expect hs₇ ho (by decide) fun s₈ hs₈ hlength₈ hpos₈ _ _ => ?_
    refine .bind (h.block hs₈ hpos₈ (by omega)) fun no s₉ hno hs₉ _ => .current ?_
    exact .pure hs₉ (.cond htest hyes (by simpa using hno))
  · refine .current (.pure hs₆ (.cond htest hyes ?_))
    exact fun _ hnone => absurd hnone (Option.not_mem_none _)

theorem operators_succ (ho : o.Proper) (precedence : Nat) {left : Expr} (hs : o.Onward s)
    (hdepth : 6 * s.tokens.length + 1 ≤ depth + 1) (hleft : left.Formed []) :
    Settles o o.Blames (Parse.operators (depth + 1) precedence left) s (Expr.Formed []) := by
  rw [Parse.operators]
  refine .peek (.ite (fun _ => .advance hs fun s₁ hs₁ hlength₁ => ?_) fun _ => .pure hs hleft)
  dsimp only
  split
  · next hkind =>
    have htwo := hs.two_le_length ho (by rw [hkind]; decide)
    refine .bind (h.list hs₁ (by omega) (by omega) (by decide)) fun args s₂ hargs hs₂ hlength₂ => ?_
    exact .current (h.operators _ hs₂ (by omega) (.call hleft hargs))
  · next hkind =>
    have htwo := hs.two_le_length ho (by rw [hkind]; decide)
    refine .advance hs₁ fun s₂ hs₂ hlength₂ => ?_
    refine .bind (h.expr _ hs₂ (by omega)) fun index s₃ hindex hs₃ hlength₃ => ?_
    refine .expect hs₃ ho (by decide) fun s₄ hs₄ hlength₄ _ _ _ => ?_
    exact .current (h.operators _ hs₄ (by omega) (.index hleft hindex))
  · split
    · next op hop =>
      have htwo := hs.two_le_length ho fun hkind => by rw [hkind] at hop; cases hop
      refine .advance hs₁ fun s₂ hs₂ hlength₂ => ?_
      refine .bind (h.expr _ hs₂ (by omega)) fun right s₃ hright hs₃ hlength₃ => ?_
      exact h.operators _ hs₃ (by omega) (.binary (mem_known_of_ofKind? hop) hleft hright)
    · exact .pure hs₁ hleft

theorem list_succ {close : Token.Kind} (hs : o.Onward s) (hpos : 1 ≤ s.tokens.length)
    (hdepth : 6 * s.tokens.length ≤ depth + 1) (hclose : close ≠ .eof) :
    Settles o o.Blames (Parse.list (depth + 1) close) s fun es => ∀ e ∈ es, e.Formed [] := by
  rw [Parse.list]
  refine .peek (.ite (fun _ => ?_) fun _ => ?_)
  · exact .advance hs fun s₁ hs₁ _ => .pure hs₁ (List.forall_mem_nil _)
  · refine .advance hs fun s₁ hs₁ hlength₁ => ?_
    refine .bind (h.expr _ hs₁ (by omega)) fun e s₂ he hs₂ hlength₂ => ?_
    exact h.moreItems hs₂ (by omega) hclose (List.forall_mem_singleton.2 he)

theorem moreItems_succ (ho : o.Proper) {close : Token.Kind} {acc : List Expr} (hs : o.Onward s)
    (hdepth : 6 * s.tokens.length + 1 ≤ depth + 1) (hclose : close ≠ .eof)
    (hacc : ∀ e ∈ acc, e.Formed []) :
    Settles o o.Blames (Parse.moreItems (depth + 1) close acc) s fun es =>
      ∀ e ∈ es, e.Formed [] := by
  rw [Parse.moreItems]
  refine .peek (.ite (fun hcomma => ?_) fun _ => ?_)
  · have htwo := hs.two_le_length ho (by rw [hcomma]; decide)
    refine .advance hs fun s₁ hs₁ hlength₁ => .advance hs₁ fun s₂ hs₂ hlength₂ => ?_
    refine .bind (h.expr _ hs₂ (by omega)) fun e s₃ he hs₃ hlength₃ => ?_
    exact h.moreItems hs₃ (by omega) hclose (List.forall_mem_cons.2 ⟨he, hacc⟩)
  · exact .expect hs ho hclose fun s₁ hs₁ _ _ _ _ => .pure hs₁ (by simpa using hacc)

theorem pairs_succ (ho : o.Proper) {acc : List (Expr × Expr)} (hs : o.Onward s)
    (hpos : 1 ≤ s.tokens.length) (hdepth : 6 * s.tokens.length ≤ depth + 1)
    (hacc : ∀ p ∈ acc, p.1.Formed [] ∧ p.2.Formed []) :
    Settles o o.Blames (Parse.pairs (depth + 1) acc) s fun ps =>
      ∀ p ∈ ps, p.1.Formed [] ∧ p.2.Formed [] := by
  rw [Parse.pairs]
  refine .peek (.ite (fun _ => ?_) fun _ => ?_)
  · exact .advance hs fun s₁ hs₁ _ => .pure hs₁ (by simpa using hacc)
  · refine .advance hs fun s₁ hs₁ hlength₁ => ?_
    refine .bind (h.expr _ hs₁ (by omega)) fun key s₂ hkey hs₂ hlength₂ => ?_
    refine .expect hs₂ ho (by decide) fun s₃ hs₃ hlength₃ _ _ _ => ?_
    refine .advance hs₃ fun s₄ hs₄ hlength₄ => ?_
    refine .bind (h.expr _ hs₄ (by omega)) fun value s₅ hvalue hs₅ hlength₅ => ?_
    have hmore : ∀ p ∈ (key, value) :: acc, p.1.Formed [] ∧ p.2.Formed [] :=
      List.forall_mem_cons.2 ⟨⟨hkey, hvalue⟩, hacc⟩
    refine .peek (.ite (fun _ => ?_) fun hbrace => ?_)
    · refine .expect hs₅ ho (by decide) fun s₆ hs₆ hlength₆ hpos₆ _ _ => ?_
      exact h.pairs hs₆ hpos₆ (by omega) hmore
    · have htwo := hs₅.two_le_length ho (by rw [not_not.1 hbrace]; decide)
      exact h.pairs hs₅ (by omega) (by omega) hmore

theorem block_succ (hs : o.Onward s) (hpos : 1 ≤ s.tokens.length)
    (hdepth : 6 * s.tokens.length ≤ depth + 1) :
    Settles o o.Blames (Parse.block (depth + 1)) s Block.Formed := by
  rw [Parse.block]
  refine .current (.advance hs fun s₁ hs₁ hlength₁ => ?_)
  have hstatements := h.statements true hs₁ (by omega) (List.forall_mem_nil _)
  refine .bind (hstatements.mono fun _ hfalse => hfalse.elim) fun body s₂ hbody hs₂ _ => .current ?_
  refine .ite (fun _ => ?_) fun _ => ?_
  · exact .note hs₂ fun s₃ hs₃ _ => .pure hs₃ (.mk hbody)
  · exact .pure hs₂ (.mk hbody)

theorem statements_succ (ho : o.Proper) (inBlock : Bool) {acc : List Stmt} (hs : o.Onward s)
    (hdepth : 6 * s.tokens.length + 4 ≤ depth + 1) (hacc : ∀ s ∈ acc, s.Formed) :
    Settles o (fun _ => False) (Parse.statements (depth + 1) inBlock acc) s fun ss =>
      ∀ s ∈ ss, s.Formed := by
  rw [Parse.statements]
  refine .current (.ite (fun _ => .pure hs (by simpa using hacc)) fun hmore => ?_)
  have hpos := hs.length_pos ho fun heof => hmore (.inl heof)
  refine .ite (fun _ => .advance hs fun s₁ hs₁ hlength₁ => ?_) fun _ => ?_
  · exact h.statements inBlock hs₁ (by omega) hacc
  refine .attempt (h.statement hs (by omega)) (fun stmt s₁ hstmt hs₁ hlength₁ => ?_)
    fun s₁ _ hs₁ hlength₁ => ?_
  · refine .advance hs₁ fun s₂ hs₂ hlength₂ => ?_
    exact h.statements inBlock hs₂ (by omega) (List.forall_mem_cons.2 ⟨hstmt, hacc⟩)
  · exact .advance hs₁ fun s₂ hs₂ hlength₂ => h.statements inBlock hs₂ (by omega) hacc

theorem statement_succ (ho : o.Proper) (hs : o.Onward s)
    (hdepth : 6 * s.tokens.length + 3 ≤ depth + 1) :
    Settles o o.Blames (Parse.statement (depth + 1)) s Stmt.Formed := by
  rw [Parse.statement]
  refine .current ?_
  split
  · refine .expect hs ho (by decide) fun s₁ hs₁ hlength₁ _ hkind _ => ?_
    refine .ident hs₁ ho hkind fun id hid => ?_
    refine .expect hs₁ ho (by decide) fun s₂ hs₂ hlength₂ _ _ _ => ?_
    refine .advance hs₂ fun s₃ hs₃ hlength₃ => ?_
    refine .bind (h.expr _ hs₃ (by omega)) fun value s₄ hvalue hs₄ _ => ?_
    refine .peek (.ite (fun _ => ?_) fun _ => ?_)
    · exact .advance hs₄ fun s₅ hs₅ _ => .current (.pure hs₅ (.bind hid (hvalue.named _)))
    · exact .current (.pure hs₄ (.bind hid (hvalue.named _)))
  · refine .peek (.ite (fun _ => ?_) fun _ => .ite (fun _ => ?_) fun _ => ?_)
    · exact .advance hs fun s₁ hs₁ _ => .pure hs₁ .retNone
    · exact .pure hs .retNone
    · refine .advance hs fun s₁ hs₁ hlength₁ => ?_
      refine .bind (h.expr _ hs₁ (by omega)) fun value s₂ hvalue hs₂ _ => ?_
      have hret : ∀ e ∈ some value, Expr.Formed [] e := by simpa using hvalue
      refine .peek (.ite (fun _ => ?_) fun _ => ?_)
      · exact .advance hs₂ fun s₃ hs₃ _ => .current (.pure hs₃ (.ret hret))
      · exact .current (.pure hs₂ (.ret hret))
  · refine .bind (h.expr _ hs (by omega)) fun value s₁ hvalue hs₁ _ => ?_
    refine .peek (.ite (fun _ => ?_) fun _ => ?_)
    · exact .advance hs₁ fun s₂ hs₂ _ => .pure hs₂ (.expr hvalue)
    · exact .pure hs₁ (.expr hvalue)

theorem primary_succ (ho : o.Proper) (hs : o.Onward s)
    (hdepth : 6 * s.tokens.length + 1 ≤ depth + 1) :
    Settles o o.Blames (Parse.primary (depth + 1)) s (Expr.Formed []) := by
  have hpos {kind : Token.Kind} (hkind : (s.tokens.headD s.eof).kind = kind) (hne : kind ≠ .eof) :
      1 ≤ s.tokens.length := hs.length_pos ho (hkind ▸ hne)
  rw [Parse.primary]
  refine .current ?_
  split
  · next hkind => exact .ident hs ho hkind fun id hid => .pure hs (.ident hid)
  · next hkind => exact settles_integer ho hs hkind
  · exact .pure hs .string
  · exact .pure hs .bool
  · exact .pure hs .bool
  · next hkind => exact h.unary _ hs (hpos hkind (by decide)) (by omega) (by decide)
  · next hkind => exact h.unary _ hs (hpos hkind (by decide)) (by omega) (by decide)
  · next hkind =>
    have hpos := hpos hkind (by decide)
    refine .advance hs fun s₁ hs₁ hlength₁ => ?_
    refine .attempt (h.expr _ hs₁ (by omega)) (fun e s₂ he hs₂ _ => ?_) fun s₂ hblames hs₂ _ => ?_
    · exact .expect hs₂ ho (by decide) fun s₃ hs₃ _ _ _ _ => .pure hs₃ he
    · refine .expect hs₂ ho (by decide) fun s₃ hs₃ _ _ _ herrors => .fail hs₃ ?_
      rwa [Stream.Blames, herrors]
  · next hkind => exact h.conditional _ hs (hpos hkind (by decide)) (by omega)
  · refine .expect hs ho (by decide) fun s₁ hs₁ hlength₁ _ _ _ => ?_
    refine .bind (settles_params ho hs₁ (by omega)) fun ps s₂ hps hs₂ hlength₂ => ?_
    refine .expect hs₂ ho (by decide) fun s₃ hs₃ hlength₃ hpos₃ _ _ => ?_
    refine .bind (h.block hs₃ hpos₃ (by omega)) fun body s₄ hbody hs₄ _ => ?_
    exact .current (.pure hs₄ (.function hps hbody))
  · next hkind =>
    refine .bind (h.list hs (hpos hkind (by decide)) (by omega) (by decide))
      fun items s₁ hitems hs₁ _ => ?_
    exact .current (.pure hs₁ (.array hitems))
  · next hkind =>
    refine .bind (h.pairs hs (hpos hkind (by decide)) (by omega) (List.forall_mem_nil _))
      fun ps s₁ hps hs₁ _ => ?_
    exact .current (.pure hs₁ (.hash (fun p hp => (hps p hp).1) fun p hp => (hps p hp).2))
  · exact .note hs fun s₁ hs₁ hblames => .fail hs₁ hblames

end Settled

/-- If the depth suffices, what is read is well formed, and a failure is noted. -/
theorem settled (ho : o.Proper) (depth : Nat) : Settled o depth := by
  induction depth with
  | zero => constructor <;> intros <;> omega
  | succ depth h =>
    exact {
      expr := h.expr_succ
      primary := h.primary_succ ho
      unary := h.unary_succ
      conditional := fun pos hs _ => h.conditional_succ ho pos hs
      operators := h.operators_succ ho
      list := h.list_succ
      moreItems := h.moreItems_succ ho
      pairs := h.pairs_succ ho
      block := h.block_succ
      statements := h.statements_succ ho
      statement := h.statement_succ ho }

/-! ### Failures -/

/-- The reader does not run out of depth. It keeps the faults that were noted before, and if it
fails it notes another one. -/
def FailsLoudly (x : Parse α) (s : Stream) : Prop :=
  (x s).2.spent = s.spent ∧ ∃ new, (x s).2.errors = new ++ s.errors ∧ ((x s).1 = none → new ≠ [])

theorem Settles.failsLoudly {x : Parse α} (h : Settles s s.Blames x s Q) : FailsLoudly x s := by
  obtain ⟨hon, -, hresult⟩ := h
  obtain ⟨new, hnew⟩ := hon.errors
  refine ⟨hon.spent, new, hnew.symm, ?_⟩
  rintro hnone rfl
  rw [hnone] at hresult
  exact hresult hnew.symm

/-- A reader that may not fail yields something. -/
theorem Settles.exists_yield {x : Parse α} (h : Settles o (fun _ => False) x s Q) :
    ∃ a s', x s = (some a, s') ∧ Q a ∧ o.Onward s' := by
  obtain ⟨hon, -, hresult⟩ := h
  cases hx : x s with
  | mk r s' =>
    rw [hx] at hon hresult
    cases r with
    | none => exact hresult.elim
    | some a => exact ⟨a, s', rfl, hresult, hon⟩

/-- The tokens of a source are proper, from any of them on. -/
theorem Stream.Proper.of_scan {source : Bytes} (htokens : s.tokens <:+ (Token.scan source).1)
    (heof : s.eof = (Token.scan source).2) : s.Proper where
  tokens := fun t ht => Token.scan_proper source t (htokens.subset ht)
  eof := heof ▸ (Token.scanFrom_eof [] ⟨.start source, source⟩ (List.forall_mem_nil _)).2

end Parse

/-- The statements of a source are read to the end, and all that could be read are well formed. -/
theorem Program.exists_body (source : Bytes) :
    ∃ body s, Parse.statements (Parse.depthFor (Token.scan source).1.length) false []
        (Parse.stream (Token.scan source).2 (Token.scan source).1) = (some body, s) ∧
      s.spent = false ∧ Program.parse source = ⟨.ofBody body, s.errors.reverse⟩ ∧
      ∀ stmt ∈ (Program.parse source).program.body, stmt.Formed := by
  have hproper : (Parse.stream (Token.scan source).2 (Token.scan source).1).Proper :=
    .of_scan List.suffix_rfl rfl
  have hdepth : 6 * (Token.scan source).1.length + 4 ≤
      Parse.depthFor (Token.scan source).1.length := by
    rw [Parse.depthFor]
    omega
  have hread := (Parse.settled hproper _).statements false (.refl _) hdepth (List.forall_mem_nil _)
  obtain ⟨body, s, hresult, hbody, hon⟩ := hread.exists_yield
  have hparse : Program.parse source = ⟨.ofBody body, s.errors.reverse⟩ := by
    rw [Program.parse_eq, Parse.tokens, hresult]
    rfl
  refine ⟨body, s, hresult, hon.spent, hparse, ?_⟩
  rw [hparse]
  exact hbody

/-- A source has a well-formed tree even if it has faults: reading its statements yields some of
them, without running out of depth, and all of these are well formed. From any place in the source,
a reader of statements or of expressions that fails notes a fault. The depths are those that are
left there at least while the source is read. -/
theorem Program.parse_formed (source : Bytes) :
    (∃ body s, Parse.statements (Parse.depthFor (Token.scan source).1.length) false []
        (Parse.stream (Token.scan source).2 (Token.scan source).1) = (some body, s) ∧
      s.spent = false ∧ Program.parse source = ⟨.ofBody body, s.errors.reverse⟩ ∧
      ∀ stmt ∈ (Program.parse source).program.body, stmt.Formed) ∧
    ∀ s : Parse.Stream, s.tokens <:+ (Token.scan source).1 → s.eof = (Token.scan source).2 →
      (∀ depth, 6 * s.tokens.length + 3 ≤ depth → Parse.FailsLoudly (Parse.statement depth) s) ∧
      (∀ depth precedence, 6 * s.tokens.length + 2 ≤ depth →
        Parse.FailsLoudly (Parse.expr depth precedence) s) ∧
      (∀ depth, 6 * s.tokens.length + 1 ≤ depth → Parse.FailsLoudly (Parse.primary depth) s) ∧
      ∀ depth precedence left, 6 * s.tokens.length + 1 ≤ depth → left.Formed [] →
        Parse.FailsLoudly (Parse.operators depth precedence left) s := by
  refine ⟨Program.exists_body source, ?_⟩
  intro s htokens heof
  have h (depth : Nat) := Parse.settled (.of_scan htokens heof) depth
  refine ⟨?_, ?_, ?_, ?_⟩
  · exact fun depth hdepth => ((h depth).statement (.refl s) hdepth).failsLoudly
  · exact fun depth precedence hdepth => ((h depth).expr precedence (.refl s) hdepth).failsLoudly
  · exact fun depth hdepth => ((h depth).primary (.refl s) hdepth).failsLoudly
  · exact fun depth precedence left hdepth hleft =>
      ((h depth).operators precedence (.refl s) hdepth hleft).failsLoudly

/-- A sum without its second operand cannot be read, wherever it stands in its source. -/
theorem Program.parse_formed_sum :
    let source : Bytes := "let f = fn(x) { x }; 1 +"
    let s : Parse.Stream :=
      ⟨(Token.scan source).1.drop 11, (Token.scan source).2, [.openBlock .none], false⟩
    s.tokens.length = 2 ∧ (Parse.statement 15 s).1.isNone = true ∧
      Parse.FailsLoudly (Parse.statement 15) s := by
  intro source s
  have hlength : s.tokens.length = 2 := by decide +kernel
  refine ⟨hlength, by decide +kernel, ?_⟩
  exact ((Program.parse_formed source).2 s (List.drop_suffix 11 _) rfl).1 15 (by omega)

end StackScript
