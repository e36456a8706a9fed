import StackScript.Proofs.Tree.Calls
import StackScript.Proofs.Tree.Recovery

/-!
# Reading ends

A reader that calls another one has gone past a token since it was called, or it
hands over to a reader of a lower rank. So the calls inside a call are always
below it, and the depth that they need is linear in the number of tokens left.
What would be answered without depth is never asked for, neither in a source
without faults nor after them.

That all calls inside a call are below it is said without a trace of them: if
two ways to answer calls differ only for calls that are not below, the reader
does the same with both.

## Main definitions

* `Parse.Call.Below`: one call has less to read than another.
* `Parse.Call.Descends`: the calls inside a call are below it.
* `Parse.ending`: how a call ends, whatever the depth.

## Main results

* `Parse.descends`: calls descend.
* `Parse.answers_eq_ending`: a depth that suffices does not matter.
* `Program.parse_terminates`: every source is read to an end.
-/

namespace StackScript

namespace Parse

variable {α β : Type}

/-! ### What is left to read -/

/-- At one token, readers are called by readers of higher ranks only. -/
def Call.rank : Call α → Nat
  | .statements .. => 4
  | .statement => 3
  | .expr _ => 2
  | .primary | .operators .. | .moreItems .. | .moreParams _ => 1
  | .unary .. | .conditional _ | .list _ | .pairs _ | .block => 0

/-- Where the call can be made: some readers are called at their first token only, and that is not
the end of the source. -/
def Call.Fits (s : Stream) : Call α → Prop
  | .unary .. | .conditional _ | .list _ | .pairs _ | .block => s.tokens ≠ []
  | _ => True

/-- The call has fewer tokens left than another one, or as many and a lower rank. -/
def Call.Below (c' : Call β) (s' : Stream) (c : Call α) (s : Stream) : Prop :=
  s'.tokens.length < s.tokens.length ∨
    s'.tokens.length = s.tokens.length ∧ c'.rank < c.rank

/-- The depth that the call needs. -/
def Call.depth (c : Call α) (s : Stream) : Nat := 6 * s.tokens.length + c.rank

theorem Call.rank_le (c : Call α) : c.rank ≤ 4 := by
  cases c <;> simp [Call.rank]

theorem Call.Below.depth_lt {c' : Call β} {c : Call α} {s' s : Stream} (h : c'.Below s' c s) :
    c'.depth s' < c.depth s := by
  have hrank := c'.rank_le
  unfold Call.depth
  obtain hlt | ⟨heq, hlt⟩ := h <;> omega

theorem Call.Fits.depth_pos {c : Call α} {s : Stream} (h : c.Fits s) : 0 < c.depth s := by
  have htoken (hs : s.tokens ≠ []) : 0 < c.depth s :=
    Nat.add_pos_left (Nat.mul_pos (by decide) (List.length_pos_iff.2 hs)) _
  cases c with
  | unary | conditional | list | pairs | block => exact htoken h
  | _ => exact Nat.add_pos_right _ (by simp [Call.rank])

/-- The calls that come after this one and are below it are answered in the same way. -/
def SameBelow (again again' : Answers) (c : Call α) (s : Stream) : Prop :=
  ∀ (β : Type) (c' : Call β) (s' : Stream), s.Forward s' → c'.Fits s' → c'.Below s' c s →
    again' β c' s' = again β c' s'

/-- The calls inside the call are below it: with other answers to all other calls the reader does
the same. -/
def Call.Descends (c : Call α) (s : Stream) : Prop :=
  ∀ again again' : Answers, (∀ β (c' : Call β), Moves Stream.Forward (again β c')) →
    SameBelow again again' c s → c.body again' s = c.body again s

/-! ### Readers that do the same -/

/-- The two readers do the same to the stream. -/
def Same (s : Stream) (y x : Parse α) : Prop := y s = x s

namespace Same

variable {o s : Stream}

theorem rfl {x : Parse α} : Same s x x := Eq.refl (x s)

theorem bind {x y : Parse α} {f g : α → Parse β} [hx : Moves Stream.Forward x] (hs : o.Forward s)
    (hxy : Same s y x)
    (hfg : ∀ a s', o.Forward s' → s'.tokens.length ≤ s.tokens.length → Same s' (g a) (f a)) :
    Same s (y >>= g) (x >>= f) := by
  have hforward := hx.moves s
  unfold Same at hxy ⊢
  cases hresult : x s with
  | mk r s' =>
    rw [hresult] at hforward hxy
    cases r with
    | none => rw [bind_none hresult, bind_none hxy]
    | some a =>
      rw [bind_some hresult, bind_some hxy]
      exact hfg a s' (Motion.trans hs hforward) hforward.tokens.length_le

theorem attempt {x y : Parse α} (hxy : Same s y x) : Same s (attempt y) (attempt x) := by
  unfold Same at hxy ⊢
  simp only [Parse.attempt, hxy]

theorem ite {p : Prop} [Decidable p] {x x' y y' : Parse α} (hx : p → Same s x' x)
    (hy : ¬p → Same s y' y) : Same s (if p then x' else y') (if p then x else y) := by
  split
  · next hp => exact hx hp
  · next hp => exact hy hp

theorem peek {f g : Token → Parse β}
    (h : Same s (g (s.tokens.tail.headD s.eof)) (f (s.tokens.tail.headD s.eof))) :
    Same s (peek >>= g) (peek >>= f) :=
  h

theorem current {f g : Token → Parse β}
    (h : Same s (g (s.tokens.headD s.eof)) (f (s.tokens.headD s.eof))) :
    Same s (current >>= g) (current >>= f) :=
  h

theorem ident {f g : Ident → Parse β} (h : ∀ id, Same s (g id) (f id)) :
    Same s (ident >>= g) (ident >>= f) :=
  h _

theorem advance {f g : Unit → Parse β} (hs : o.Forward s)
    (hfg : ∀ s', o.Forward s' → s'.tokens.length = s.tokens.length - 1 → Same s' (g ()) (f ())) :
    Same s (advance >>= g) (advance >>= f) :=
  hfg _ (Motion.trans hs (Motion.advance s)) List.length_tail

end Same

section

variable {o s : Stream}

/-- There is a token unless the source is at its end. -/
theorem length_pos_of_kind (heof : o.eof.kind = .eof) (hs : o.Forward s)
    (hkind : (s.tokens.headD s.eof).kind ≠ .eof) : 1 ≤ s.tokens.length := by
  cases htokens : s.tokens with
  | nil =>
    rw [htokens, List.headD_nil, hs.eof] at hkind
    exact absurd heof hkind
  | cons t ts => exact Nat.le_add_left 1 ts.length

theorem two_le_length_of_kind (heof : o.eof.kind = .eof) (hs : o.Forward s)
    (hkind : (s.tokens.tail.headD s.eof).kind ≠ .eof) : 2 ≤ s.tokens.length := by
  have htail := length_pos_of_kind heof (Motion.trans hs (Motion.advance s)) hkind
  rw [List.length_tail] at htail
  omega

/-- After a token that was required there is one token less. -/
theorem Same.expect {f g : Unit → Parse β} (heof : o.eof.kind = .eof) (hs : o.Forward s)
    {kind : Token.Kind} (hkind : kind ≠ .eof)
    (hfg : ∀ s', o.Forward s' → s'.tokens.length + 1 = s.tokens.length → 1 ≤ s'.tokens.length →
      Same s' (g ()) (f ())) : Same s (expect kind >>= g) (expect kind >>= f) := by
  unfold Same
  by_cases hnext : (s.tokens.tail.headD s.eof).kind = kind
  · have htwo := two_le_length_of_kind heof hs (hnext ▸ hkind)
    have hlength : s.tokens.tail.length = s.tokens.length - 1 := List.length_tail
    rw [bind_some (expect_of_kind hnext), bind_some (expect_of_kind hnext)]
    refine hfg _ (Motion.trans hs (Motion.advance s)) ?_ ?_
    · dsimp only
      omega
    · dsimp only
      omega
  · rw [bind_none (expect_of_ne hnext), bind_none (expect_of_ne hnext)]

end

/-! ### Calls inside calls -/

namespace SameBelow

variable {again again' : Answers} {c : Call α} {c' : Call β} {o s : Stream}

/-- A call after the next token is below. -/
theorem fewer (h : SameBelow again again' c o) (hs : o.Forward s) (hfits : c'.Fits s)
    (hlt : s.tokens.length < o.tokens.length) : Same s (again' β c') (again β c') :=
  h _ _ s hs hfits (.inl hlt)

/-- A call of a lower rank is below, whether or not a token was passed. -/
theorem lower (h : SameBelow again again' c o) (hs : o.Forward s) (hfits : c'.Fits s)
    (hrank : c'.rank < c.rank) : Same s (again' β c') (again β c') := by
  obtain hlt | heq := Nat.lt_or_eq_of_le hs.tokens.length_le
  · exact h.fewer hs hfits hlt
  · exact h _ _ s hs hfits (.inr ⟨heq, hrank⟩)

end SameBelow

section

variable {o s : Stream} {again again' : Answers}

theorem same_paramsBy (heof : o.eof.kind = .eof) (hs : o.Forward s)
    (h : SameBelow again again' .primary o) (hlt : s.tokens.length < o.tokens.length) :
    Same s (paramsBy again') (paramsBy again) := by
  refine .peek (.ite (fun _ => .rfl) fun _ => ?_)
  refine .expect heof hs (by decide) fun s₁ hs₁ hlength₁ _ => .ident fun id => ?_
  exact h.fewer hs₁ trivial (by omega)

variable [hagain : ∀ β (c : Call β), Moves Stream.Forward (again β c)]

theorem same_primary (heof : o.eof.kind = .eof) (h : SameBelow again again' .primary o) :
    Same o (Call.primary.body again') (Call.primary.body again) := by
  have ho : o.Forward o := Motion.refl o
  have htoken {kind : Token.Kind} (hkind : (o.tokens.headD o.eof).kind = kind) (hne : kind ≠ .eof) :
      o.tokens ≠ [] := List.length_pos_iff.1 (length_pos_of_kind heof ho (hkind ▸ hne))
  refine .current ?_
  split
  · exact .rfl
  · exact .rfl
  · exact .rfl
  · exact .rfl
  · exact .rfl
  · next hkind => exact h.lower ho (htoken hkind (by decide)) (by simp [Call.rank])
  · next hkind => exact h.lower ho (htoken hkind (by decide)) (by simp [Call.rank])
  · next hkind =>
    have hpos := List.length_pos_iff.2 (htoken hkind (by decide))
    refine .advance ho fun s₁ hs₁ hlength₁ => ?_
    refine .bind hs₁ (.attempt (h.fewer hs₁ trivial (by omega))) fun e s₂ hs₂ _ => rfl
  · next hkind => exact h.lower ho (htoken hkind (by decide)) (by simp [Call.rank])
  · refine .expect heof ho (by decide) fun s₁ hs₁ hlength₁ _ => ?_
    refine .bind hs₁ (same_paramsBy heof hs₁ h (by omega)) fun ps s₂ hs₂ hlength₂ => ?_
    refine .expect heof hs₂ (by decide) fun s₃ hs₃ hlength₃ hpos => ?_
    exact .bind hs₃ (h.fewer hs₃ (List.length_pos_iff.1 hpos) (by omega)) fun _ _ _ _ => .rfl
  · next hkind =>
    exact .bind ho (h.lower ho (htoken hkind (by decide)) (by simp [Call.rank]))
      fun _ _ _ _ => .rfl
  · next hkind =>
    exact .bind ho (h.lower ho (htoken hkind (by decide)) (by simp [Call.rank]))
      fun _ _ _ _ => .rfl
  · exact .rfl

theorem same_conditional (heof : o.eof.kind = .eof) {pos : Pos}
    (h : SameBelow again again' (.conditional pos) o) :
    Same o ((Call.conditional pos).body again') ((Call.conditional pos).body again) := by
  refine .expect heof (Motion.refl o) (by decide) fun s₁ hs₁ hlength₁ _ => ?_
  refine .advance hs₁ fun s₂ hs₂ hlength₂ => ?_
  refine .bind hs₂ (h.fewer hs₂ trivial (by omega)) fun test s₃ hs₃ hlength₃ => ?_
  refine .expect heof hs₃ (by decide) fun s₄ hs₄ hlength₄ _ => ?_
  refine .expect heof hs₄ (by decide) fun s₅ hs₅ hlength₅ hpos₅ => ?_
  refine .bind hs₅ (h.fewer hs₅ (List.length_pos_iff.1 hpos₅) (by omega))
    fun yes s₆ hs₆ hlength₆ => ?_
  refine .peek (.ite (fun _ => ?_) fun _ => .rfl)
  refine .advance hs₆ fun s₇ hs₇ hlength₇ => ?_
  refine .expect heof hs₇ (by decide) fun s₈ hs₈ hlength₈ hpos₈ => ?_
  exact .bind hs₈ (h.fewer hs₈ (List.length_pos_iff.1 hpos₈) (by omega)) fun _ _ _ _ => .rfl

theorem same_operators (heof : o.eof.kind = .eof) {precedence : Nat} {left : Expr}
    (h : SameBelow again again' (.operators precedence left) o) :
    Same o ((Call.operators precedence left).body again')
      ((Call.operators precedence left).body again) := by
  have ho : o.Forward o := Motion.refl o
  refine .peek (.ite (fun _ => ?_) fun _ => .rfl)
  refine .advance ho fun s₁ hs₁ hlength₁ => ?_
  dsimp only
  split
  · next hkind =>
    have htwo := two_le_length_of_kind heof ho (by rw [hkind]; decide)
    refine .bind hs₁ (h.fewer hs₁ ?_ (by omega)) fun args s₂ hs₂ hlength₂ => ?_
    · exact List.length_pos_iff.1 (by omega)
    · exact .current (h.fewer hs₂ trivial (by omega))
  · next hkind =>
    have htwo := two_le_length_of_kind heof ho (by rw [hkind]; decide)
    refine .advance hs₁ fun s₂ hs₂ hlength₂ => ?_
    refine .bind hs₂ (h.fewer hs₂ trivial (by omega)) fun index s₃ hs₃ hlength₃ => ?_
    refine .expect heof hs₃ (by decide) fun s₄ hs₄ hlength₄ _ => ?_
    exact .current (h.fewer hs₄ trivial (by omega))
  · split
    · next op hop =>
      have htwo := two_le_length_of_kind heof ho fun hkind => by rw [hkind] at hop; cases hop
      refine .advance hs₁ fun s₂ hs₂ hlength₂ => ?_
      refine .bind hs₂ (h.fewer hs₂ trivial (by omega)) fun right s₃ hs₃ hlength₃ => ?_
      exact h.fewer hs₃ trivial (by omega)
    · exact .rfl

theorem same_pairs (heof : o.eof.kind = .eof) {acc : List (Expr × Expr)} (ho' : o.tokens ≠ [])
    (h : SameBelow again again' (.pairs acc) o) :
    Same o ((Call.pairs acc).body again') ((Call.pairs acc).body again) := by
  have ho : o.Forward o := Motion.refl o
  have hpos := List.length_pos_iff.2 ho'
  refine .peek (.ite (fun _ => .rfl) fun _ => ?_)
  refine .advance ho fun s₁ hs₁ hlength₁ => ?_
  refine .bind hs₁ (h.fewer hs₁ trivial (by omega)) fun key s₂ hs₂ hlength₂ => ?_
  refine .expect heof hs₂ (by decide) fun s₃ hs₃ hlength₃ _ => ?_
  refine .advance hs₃ fun s₄ hs₄ hlength₄ => ?_
  refine .bind hs₄ (h.fewer hs₄ trivial (by omega)) fun value s₅ hs₅ hlength₅ => ?_
  refine .peek (.ite (fun _ => ?_) fun hbrace => ?_)
  · refine .expect heof hs₅ (by decide) fun s₆ hs₆ hlength₆ hpos₆ => ?_
    exact h.fewer hs₆ (List.length_pos_iff.1 hpos₆) (by omega)
  · have htwo := two_le_length_of_kind heof hs₅ (by rw [not_not.1 hbrace]; decide)
    exact h.fewer hs₅ (List.length_pos_iff.1 (by omega)) (by omega)

theorem same_statements (heof : o.eof.kind = .eof) {inBlock : Bool} {acc : List Stmt}
    (h : SameBelow again again' (.statements inBlock acc) o) :
    Same o ((Call.statements inBlock acc).body again')
      ((Call.statements inBlock acc).body again) := by
  have ho : o.Forward o := Motion.refl o
  refine .current (.ite (fun _ => .rfl) fun hmore => ?_)
  have hpos := length_pos_of_kind heof ho fun hend => hmore (.inl hend)
  refine .ite (fun _ => ?_) fun _ => ?_
  · exact .advance ho fun s₁ hs₁ hlength₁ => h.fewer hs₁ trivial (by omega)
  · refine .bind ho (.attempt (h.lower ho trivial (by simp [Call.rank]))) fun r s₁ hs₁ _ => ?_
    exact .advance hs₁ fun s₂ hs₂ hlength₂ => h.fewer hs₂ trivial (by omega)

theorem same_statement (heof : o.eof.kind = .eof) (h : SameBelow again again' .statement o) :
    Same o (Call.statement.body again') (Call.statement.body again) := by
  have ho : o.Forward o := Motion.refl o
  have hexpr {s : Stream} (hs : o.Forward s) :
      Same s (again' _ (.expr Precedence.lowest)) (again _ (.expr Precedence.lowest)) :=
    h.lower hs trivial (by simp [Call.rank])
  refine .current ?_
  split
  · refine .expect heof ho (by decide) fun s₁ hs₁ _ _ => .ident fun id => ?_
    refine .expect heof hs₁ (by decide) fun s₂ hs₂ _ _ => ?_
    refine .advance hs₂ fun s₃ hs₃ _ => ?_
    exact .bind hs₃ (hexpr hs₃) fun _ _ _ _ => .rfl
  · refine .peek (.ite (fun _ => .rfl) fun _ => .ite (fun _ => .rfl) fun _ => ?_)
    refine .advance ho fun s₁ hs₁ _ => ?_
    exact .bind hs₁ (hexpr hs₁) fun _ _ _ _ => .rfl
  · exact .bind ho (hexpr ho) fun _ _ _ _ => .rfl

end

/-- All calls inside a call are below it. -/
theorem descends {c : Call α} {s : Stream} (heof : s.eof.kind = .eof) (hfits : c.Fits s) :
    c.Descends s := by
  intro again again' hagain h
  have hs : s.Forward s := Motion.refl s
  change Same s (c.body again') (c.body again)
  -- A call inside has fewer tokens to read, or as many and a lower rank.
  cases c with
  | moreParams acc =>
    refine .peek (.ite (fun hcomma => ?_) fun _ => .rfl)
    have htwo := two_le_length_of_kind heof hs (by rw [hcomma]; decide)
    refine .advance hs fun s₁ hs₁ hlength₁ => ?_
    refine .expect heof hs₁ (by decide) fun s₂ hs₂ hlength₂ _ => .ident fun id => ?_
    exact h.fewer hs₂ trivial (by omega)
  | expr precedence =>
    refine .bind hs (h.lower hs trivial (by simp [Call.rank])) fun left s₁ hs₁ _ => ?_
    exact h.lower hs₁ trivial (by simp [Call.rank])
  | primary => exact same_primary heof h
  | unary pos op =>
    have hpos := List.length_pos_iff.2 hfits
    refine .advance hs fun s₁ hs₁ hlength₁ => ?_
    exact .bind hs₁ (h.fewer hs₁ trivial (by omega)) fun _ _ _ _ => .rfl
  | conditional pos => exact same_conditional heof h
  | operators precedence left => exact same_operators heof h
  | list close =>
    have hpos := List.length_pos_iff.2 hfits
    refine .peek (.ite (fun _ => .rfl) fun _ => .advance hs fun s₁ hs₁ hlength₁ => ?_)
    refine .bind hs₁ (h.fewer hs₁ trivial (by omega)) fun e s₂ hs₂ hlength₂ => ?_
    exact h.fewer hs₂ trivial (by omega)
  | moreItems close acc =>
    refine .peek (.ite (fun hcomma => ?_) fun _ => .rfl)
    have htwo := two_le_length_of_kind heof hs (by rw [hcomma]; decide)
    refine .advance hs fun s₁ hs₁ hlength₁ => .advance hs₁ fun s₂ hs₂ hlength₂ => ?_
    refine .bind hs₂ (h.fewer hs₂ trivial (by omega)) fun e s₃ hs₃ hlength₃ => ?_
    exact h.fewer hs₃ trivial (by omega)
  | pairs acc => exact same_pairs heof hfits h
  | block =>
    have hpos := List.length_pos_iff.2 hfits
    refine .current (.advance hs fun s₁ hs₁ hlength₁ => ?_)
    exact .bind hs₁ (h.fewer hs₁ trivial (by omega)) fun _ _ _ _ => .rfl
  | statements inBlock acc => exact same_statements heof h
  | statement => exact same_statement heof h

/-! ### Depths that suffice -/

section

variable {c : Call α} {s : Stream}

/-- Depths that suffice make no difference. -/
theorem answers_eq_of_depth_le (heof : s.eof.kind = .eof) (hfits : c.Fits s) {d d' : Nat}
    (hd : c.depth s ≤ d) (hd' : c.depth s ≤ d') : answers d' α c s = answers d α c s := by
  have hpos := hfits.depth_pos
  induction d generalizing α s d' with
  | zero => omega
  | succ d ih =>
    obtain ⟨d', rfl⟩ := Nat.exists_eq_add_of_le' (Nat.le_trans hpos hd')
    rw [answers_succ, answers_succ]
    refine descends heof hfits _ _ inferInstance fun β c' s' hs' hfits' hbelow => ?_
    have hlt := hbelow.depth_lt
    exact ih (hs'.eof ▸ heof) hfits' (by omega) (by omega) hfits'.depth_pos

/-- How a call ends: the answer that any depth gives that suffices. -/
def ending : Answers := fun α c s => answers (c.depth s) α c s

theorem answers_eq_ending (heof : s.eof.kind = .eof) (hfits : c.Fits s) {d : Nat}
    (hd : c.depth s ≤ d) : answers d α c s = ending α c s :=
  answers_eq_of_depth_le heof hfits (Nat.le_refl _) hd

/-- Without depths, readers are what they are in terms of each other. -/
theorem ending_eq_body (heof : s.eof.kind = .eof) (hfits : c.Fits s) :
    ending α c s = c.body ending s := by
  rw [← answers_eq_ending heof hfits (Nat.le_succ _), answers_succ]
  refine (descends heof hfits _ _ inferInstance fun β c' s' hs' hfits' hbelow => ?_).symm
  exact (answers_eq_ending (hs'.eof ▸ heof) hfits' (Nat.le_of_lt hbelow.depth_lt)).symm

/-- The depth is left alone. -/
def Stream.Spared (o s : Stream) : Prop := s.spent = o.spent

instance : Motion Stream.Spared where
  refl _ := rfl
  trans h h' := h'.trans h
  advance _ := rfl
  note _ _ := rfl

/-- A depth that suffices does not run out. -/
theorem spent_answers (heof : s.eof.kind = .eof) (hfits : c.Fits s) {d : Nat}
    (hd : c.depth s ≤ d) : (answers d α c s).2.spent = s.spent := by
  have hpos := hfits.depth_pos
  induction d generalizing α s with
  | zero => omega
  | succ d ih =>
    classical
    -- The calls inside have depth enough, so it does not matter that all others are refused.
    let able : Answers := fun β c' s' =>
      if s'.eof.kind = .eof ∧ c'.Fits s' ∧ c'.depth s' ≤ d then answers d β c' s' else (none, s')
    have hable (β : Type) (c' : Call β) : Moves Stream.Spared (able β c') := by
      refine ⟨fun s' => ?_⟩
      dsimp only [able]
      split
      · next h => exact ih h.1 h.2.1 h.2.2 h.2.1.depth_pos
      · rfl
    have hsame : c.body able s = c.body (answers d) s := by
      refine descends heof hfits _ _ inferInstance fun β c' s' hs' hfits' hbelow => if_pos ?_
      have hlt := hbelow.depth_lt
      exact ⟨hs'.eof ▸ heof, hfits', by omega⟩
    have hmoves : Moves Stream.Spared (c.body able) := moves_body c
    rw [answers_succ, ← hsame]
    exact hmoves.moves s

end

/-- Outside of blocks, statements are read up to the end of the source. -/
theorem tokens_of_statements {depth : Nat} {acc ss : List Stmt} {s s' : Stream}
    (hkinds : ∀ t ∈ s.tokens, t.kind ≠ .eof)
    (h : statements depth false acc s = (some ss, s')) : s'.tokens = [] := by
  induction depth generalizing acc s with
  | zero => cases h
  | succ depth ih =>
    change answers (depth + 1) _ (.statements false acc) s = _ at h
    rw [answers_succ] at h
    by_cases hend : EndsBody false (s.tokens.headD s.eof)
    · rw [statements_of_end hend] at h
      obtain ⟨-, rfl⟩ := Prod.mk.inj h
      cases htokens : s.tokens with
      | nil => rfl
      | cons t ts =>
        rw [htokens] at hend hkinds
        obtain hend | ⟨hblock, -⟩ := hend
        · exact absurd hend (hkinds t List.mem_cons_self)
        · cases hblock
    by_cases hsemicolon : (s.tokens.headD s.eof).kind = .semicolon
    · rw [statements_of_semicolon hend hsemicolon] at h
      exact ih (fun t ht => hkinds t (List.mem_of_mem_tail ht)) h
    · rw [statements_of_statement hend hsemicolon] at h
      refine ih (fun t ht => hkinds t ?_) h
      exact ((forward_answers depth _ .statement).moves s).tokens.subset (List.mem_of_mem_tail ht)

end Parse

/-- Every source is read to an end, with or without faults. A depth that is linear in the number of
tokens suffices: it does not run out, and a greater one makes no difference. This is so for every
reader that is called anywhere in the source. The calls inside a call are below it, since they have
fewer tokens left or, if they have as many, are calls of a reader of lower rank; so all readers end
that would call each other without any bound on the depth. -/
theorem Program.parse_terminates (source : Bytes) :
    (∀ depth, 6 * (Token.scan source).1.length + 4 ≤ depth → ∃ body s,
      Parse.statements depth false [] (Parse.stream (Token.scan source).2 (Token.scan source).1) =
        (some body, s) ∧
      s.spent = false ∧ s.tokens = [] ∧ Program.parse source = ⟨.ofBody body, s.errors.reverse⟩) ∧
    ∀ s : Parse.Stream, s.tokens <:+ (Token.scan source).1 → s.eof = (Token.scan source).2 →
      ∀ (α : Type) (c : Parse.Call α), c.Fits s →
        c.Descends s ∧ Parse.ending α c s = c.body Parse.ending s ∧
        ∀ depth, 6 * s.tokens.length + c.rank ≤ depth →
          (Parse.answers depth α c s).2.spent = s.spent ∧
          Parse.answers depth α c s = Parse.ending α c s := by
  obtain ⟨hkinds, heof⟩ := Token.scanFrom_eof [] ⟨.start source, source⟩ (List.forall_mem_nil _)
  refine ⟨fun depth hdepth => ?_, fun s _ hs α c hfits => ?_⟩
  · obtain ⟨body, s, hread, hspent, hparse, -⟩ := Program.exists_body source
    refine ⟨body, s, ?_, hspent, Parse.tokens_of_statements hkinds hread, hparse⟩
    rw [← hread]
    have hdepthFor : 6 * (Token.scan source).1.length + 4 ≤
        Parse.depthFor (Token.scan source).1.length := Nat.add_le_add_left (by decide) _
    exact Parse.answers_eq_of_depth_le (c := .statements false []) (s := Parse.stream _ _) heof
      trivial hdepthFor hdepth
  · have heof : s.eof.kind = .eof := hs ▸ heof
    exact ⟨Parse.descends heof hfits, Parse.ending_eq_body heof hfits, fun depth hdepth =>
      ⟨Parse.spent_answers heof hfits hdepth, Parse.answers_eq_ending heof hfits hdepth⟩⟩

/-- A list that nothing closes, in a block that nothing closes. -/
theorem Program.parse_terminates_unclosed :
    let source : Bytes := "if (x) \x7b [1, \x7b2: fn(a"
    let s := Parse.stream (Token.scan source).2 ((Token.scan source).1.drop 5)
    s.tokens.length = 9 ∧ Parse.Call.Fits s (.list .rbracket) ∧
      ∀ depth, 54 ≤ depth → (Parse.list depth .rbracket s).2.spent = false := by
  intro source s
  have hlength : s.tokens.length = 9 := by decide +kernel
  have hfits : s.tokens ≠ [] := List.length_pos_iff.1 (by omega)
  refine ⟨hlength, hfits, fun depth hdepth => ?_⟩
  have h := (Program.parse_terminates source).2 s (List.drop_suffix 5 _) rfl _
    (.list .rbracket) hfits
  exact (h.2.2 depth (by rw [hlength]; exact hdepth)).1

end StackScript
