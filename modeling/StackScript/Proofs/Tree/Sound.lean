import StackScript.Proofs.Tree.Calls
import StackScript.Proofs.Tree.Grammar

/-!
# What is read is derived

A reader that notes no fault has read a phrase of the grammar, and all of it: it
yields the tree that the phrase stands for and leaves the tokens after it.

Faults are never taken back. If there is none in the end there was none on the
way, so that each reader can be taken to have succeeded.

## Main definitions

* `Parse.Keeps`: a reader takes back no fault.
* `Parse.Sound`: what holds after a reader unless there are faults.

## Main results

* `Parse.sounds`: what is read is derived, if the depth suffices.
-/

namespace StackScript

namespace Parse

variable {α β : Type}

/-- The reader takes back no fault. -/
class Keeps (x : Parse α) : Prop where
  keeps : ∀ s : Stream, s.errors ≠ [] → (x s).2.errors ≠ []

/-- What is read goes forward, where faults are put before those that are there. -/
theorem Keeps.of_forward {x : Parse α} (hx : Moves Stream.Forward x) : Keeps x := by
  refine ⟨fun s hfaults hnone => hfaults ?_⟩
  have hsuffix := (hx.moves s).errors
  rw [hnone] at hsuffix
  exact List.suffix_nil.1 hsuffix

instance {x : Parse α} [hx : Moves Stream.Forward x] : Keeps x := .of_forward hx

section

variable (depth : Nat)

instance (precedence : Nat) : Moves Stream.Forward (expr depth precedence) :=
  forward_answers depth _ (.expr precedence)

instance (precedence : Nat) (left : Expr) : Moves Stream.Forward (operators depth precedence left) :=
  forward_answers depth _ (.operators precedence left)

instance (close : Token.Kind) (acc : List Expr) : Moves Stream.Forward (moreItems depth close acc) :=
  forward_answers depth _ (.moreItems close acc)

instance (acc : List (Expr × Expr)) : Moves Stream.Forward (pairs depth acc) :=
  forward_answers depth _ (.pairs acc)

instance : Moves Stream.Forward (block depth) := forward_answers depth _ .block

instance (inBlock : Bool) (acc : List Stmt) : Moves Stream.Forward (statements depth inBlock acc) :=
  forward_answers depth _ (.statements inBlock acc)

end

/-! ### Readers without faults -/

variable {eof : Token} {ts : List Token} {Q : α → List Token → Prop} {R : β → List Token → Prop}

/-- The stream with the tokens, before any fault. -/
def stream (eof : Token) (ts : List Token) : Stream := ⟨ts, eof, [], false⟩

/-- If there is no fault in the end, the reader yields a result, and the property holds of it and
of the tokens that are left. -/
def Sound (eof : Token) (x : Parse α) (ts : List Token) (Q : α → List Token → Prop) : Prop :=
  (x (stream eof ts)).2.errors = [] → ∃ a us, x (stream eof ts) = (some a, stream eof us) ∧ Q a us

theorem Sound.pure {a : α} (h : Q a ts) : Sound eof (Pure.pure a) ts Q := fun _ => ⟨a, ts, rfl, h⟩

theorem Sound.bind_of_keeps {x : Parse α} {f : α → Parse β} (hf : ∀ a, Keeps (f a))
    (hx : Sound eof x ts fun a us => Sound eof (f a) us R) : Sound eof (x >>= f) ts R := by
  intro hnone
  have hclean : (x (stream eof ts)).2.errors = [] := by
    by_contra hfaults
    cases hresult : x (stream eof ts) with
    | mk r s =>
      rw [hresult] at hfaults
      cases r with
      | some a =>
        rw [bind_some hresult] at hnone
        exact (hf a).keeps s hfaults hnone
      | none =>
        rw [bind_none hresult] at hnone
        exact hfaults hnone
  obtain ⟨a, us, hresult, hrest⟩ := hx hclean
  rw [bind_some hresult] at hnone ⊢
  exact hrest hnone

theorem Sound.bind {x : Parse α} {f : α → Parse β} [hf : ∀ a, Keeps (f a)]
    (hx : Sound eof x ts fun a us => Sound eof (f a) us R) : Sound eof (x >>= f) ts R :=
  .bind_of_keeps hf hx

theorem Sound.attempt {x : Parse α} {Q : Option α → List Token → Prop}
    (hx : Sound eof x ts fun a us => Q (some a) us) : Sound eof (attempt x) ts Q := by
  intro hnone
  obtain ⟨a, us, hresult, ha⟩ := hx hnone
  exact ⟨some a, us, attempt_eq hresult, ha⟩

theorem Sound.peek {f : Token → Parse β} (h : Sound eof (f (ts.tail.headD eof)) ts R) :
    Sound eof (peek >>= f) ts R :=
  h

theorem Sound.current {f : Token → Parse β} (h : Sound eof (f (ts.headD eof)) ts R) :
    Sound eof (current >>= f) ts R :=
  h

theorem Sound.ident {f : Ident → Parse β} (h : Sound eof (f (Grammar.ident (ts.headD eof))) ts R) :
    Sound eof (ident >>= f) ts R :=
  h

theorem Sound.advance {f : Unit → Parse β} (h : Sound eof (f ()) ts.tail R) :
    Sound eof (advance >>= f) ts R :=
  h

/-- A fault that is noted is there in the end. -/
theorem Sound.note {e : ParseError} {f : Unit → Parse α} [hf : Keeps (f ())] :
    Sound eof (note e >>= f) ts Q :=
  fun hnone => absurd hnone (hf.keeps _ (List.cons_ne_nil _ _))

theorem expect_eq {c t : Token} {us : List Token} {kind : Token.Kind} (h : t.kind = kind) :
    expect kind (stream eof (c :: t :: us)) = (some (), stream eof (t :: us)) :=
  congrFun (if_pos (c := t.kind = kind) h) _

/-- The token that is expected is there, and it is not the end of the source. -/
theorem Sound.expect (heof : eof.kind = .eof) {kind : Token.Kind} (hkind : kind ≠ .eof) {c : Token}
    {f : Unit → Parse β} (h : ∀ t us, ts = t :: us → t.kind = kind → Sound eof (f ()) (t :: us) R) :
    Sound eof (expect kind >>= f) (c :: ts) R := by
  by_cases hnext : (ts.headD eof).kind = kind
  · cases ts with
    | nil => exact absurd (hnext.symm.trans heof) hkind
    | cons t us =>
      unfold Sound
      rw [bind_some (expect_eq (t := t) hnext)]
      exact h t us rfl hnext
  · have hfails : Parse.expect kind (stream eof (c :: ts)) =
        (none, ⟨c :: ts, eof, [.expected (ts.headD eof).pos kind (ts.headD eof).kind], false⟩) :=
      congrFun (if_neg (c := (ts.headD eof).kind = kind) hnext) _
    intro hnone
    rw [bind_none hfails] at hnone
    cases hnone

/-! ### Operators -/

end Parse

namespace Grammar

theorem operator_of_ofKind? {kind : Token.Kind} {op : BinaryOp}
    (h : BinaryOp.ofKind? kind = some op) :
    Operator kind.precedence kind op := by
  cases kind <;> cases h <;> constructor

/-- Tokens that bind operands are operators, calls and indexing. -/
theorem exists_ofKind? {kind : Token.Kind} (h : 1 < kind.precedence) (hparen : kind ≠ .lparen)
    (hbracket : kind ≠ .lbracket) : ∃ op, BinaryOp.ofKind? kind = some op := by
  cases kind <;> simp_all [BinaryOp.ofKind?, Token.Kind.precedence]

theorem ofKind?_of_operator {n : Nat} {kind : Token.Kind} {op : BinaryOp} (h : Operator n kind op) :
    BinaryOp.ofKind? kind = some op ∧ kind.precedence = n ∧ kind ≠ .lparen ∧ kind ≠ .lbracket := by
  cases h <;> exact ⟨rfl, rfl, nofun, nofun⟩

theorem Operator.level {n : Nat} {kind : Token.Kind} {op : BinaryOp} (h : Operator n kind op) :
    2 ≤ n ∧ n ≤ 5 := by
  cases h <;> decide

/-- An expression that groups more tightly may stand where another one may. -/
theorem Derives.lower_le {strict : Prop} {n k : Nat} {e : Expr} {last : Token}
    {ts rest : List Token} (h : Derives strict (.expr n e last) ts rest) (hle : k ≤ n) :
    Derives strict (.expr k e last) ts rest := by
  induction hle with
  | refl => exact h
  | step _ ih => exact ih h.lower

/-- No pair starts with a closing brace. -/
theorem Derives.pairs_of_rbrace {strict : Prop} {ps : List (Expr × Expr)} {t : Token}
    {ts rest : List Token} (h : Derives strict (.pairs ps) (t :: ts) rest) (ht : t.kind = .rbrace) :
    ps = [] ∧ rest = t :: ts := by
  cases h with
  | noPairs => exact ⟨rfl, rfl⟩
  | lastPair hkey | morePairs hkey =>
    obtain ⟨t', us, hts, hstarts⟩ := hkey.first
    obtain ⟨rfl, -⟩ := List.cons.inj hts
    exact absurd ht (Token.Kind.ne_of_starts hstarts rfl)

end Grammar

namespace Parse

open Grammar

variable {eof : Token}

/-! ### Readers of phrases -/

/-- How tightly the first of the tokens binds. -/
def binds (eof : Token) (ts : List Token) : Nat := (ts.headD eof).kind.precedence

theorem exists_of_binds (heof : eof.kind = .eof) {ts : List Token} (h : 1 < binds eof ts) :
    ∃ t us, ts = t :: us := by
  cases ts with
  | nil => simp [binds, heof, Token.Kind.precedence] at h
  | cons t us => exact ⟨t, us, rfl⟩

theorem sound_moreParams (heof : eof.kind = .eof) {depth : Nat} {acc : List Ident} {t : Token}
    {ts : List Token} {Q : List Ident → List Token → Prop} (hdepth : ts.length + 1 ≤ depth)
    (hQ : ∀ ids r rest, MoreParams ids ts (r :: rest) → r.kind = .rparen →
      Q (acc.reverse ++ ids) (r :: rest)) :
    Sound eof (moreParams depth acc) (t :: ts) Q := by
  induction depth generalizing acc t ts with
  | zero => omega
  | succ depth ih =>
    rw [moreParams]
    refine .peek ?_
    split
    · next hcomma =>
      cases ts with
      | nil => simp [heof] at hcomma
      | cons c ts =>
        refine .advance (.expect heof (by decide) ?_)
        rintro x us rfl hx
        simp only [List.length_cons] at hdepth
        refine .ident (ih (by omega) fun ids r rest hids hr => ?_)
        rw [List.reverse_cons, List.append_assoc]
        exact hQ _ _ _ (.cons hcomma hx hids) hr
    · refine .expect heof (by decide) ?_
      rintro r rest rfl hr
      have hnone := hQ [] r rest .nil hr
      rw [List.append_nil] at hnone
      exact .pure hnone

theorem sound_params (heof : eof.kind = .eof) {depth : Nat} {t : Token} {ts : List Token}
    {Q : List Ident → List Token → Prop} (hdepth : ts.length ≤ depth)
    (hQ : ∀ ids r rest, Params ids ts (r :: rest) → r.kind = .rparen → Q ids (r :: rest)) :
    Sound eof (params depth) (t :: ts) Q := by
  refine .peek ?_
  split
  · next hr =>
    cases ts with
    | nil => simp [heof] at hr
    | cons r rest => exact .advance (.pure (hQ [] r rest .nil hr))
  · refine .expect heof (by decide) ?_
    rintro x us rfl hx
    refine .ident (sound_moreParams heof hdepth fun ids r rest hids hr => ?_)
    exact hQ _ _ _ (.cons hx hids) hr

/-- At this depth, what is read is derived, if there are not too many tokens. -/
structure Sounds (eof : Token) (depth : Nat) : Prop where
  /-- After an expression there is no operator that binds more tightly. -/
  expr : ∀ {p : Nat} {ts : List Token} {Q : Expr → List Token → Prop}, 1 ≤ p → p ≤ 6 →
    6 * ts.length + 2 ≤ depth →
    (∀ e last rest, Derives False (.expr (min (p + 1) 6) e last) ts rest → binds eof rest ≤ p →
      Q e (last :: rest)) →
    Sound eof (expr depth p) ts Q
  primary : ∀ {ts : List Token} {Q : Expr → List Token → Prop}, 6 * ts.length + 1 ≤ depth →
    (∀ n e last rest, 6 ≤ n → Derives False (.expr n e last) ts rest →
      (n < 7 → binds eof rest ≤ n) → Q e (last :: rest)) →
    Sound eof (primary depth) ts Q
  unary : ∀ {t : Token} {op : UnaryOp} {ts : List Token} {Q : Expr → List Token → Prop},
    Sign t.kind op → 6 * (ts.length + 1) ≤ depth →
    (∀ e last rest, Derives False (.expr 6 e last) (t :: ts) rest → binds eof rest ≤ 6 →
      Q e (last :: rest)) →
    Sound eof (unary depth t.pos op) (t :: ts) Q
  conditional : ∀ {t : Token} {ts : List Token} {Q : Expr → List Token → Prop}, t.kind = .ifKw →
    6 * (ts.length + 1) ≤ depth →
    (∀ e last rest, Derives False (.expr 8 e last) (t :: ts) rest → Q e (last :: rest)) →
    Sound eof (conditional depth t.pos) (t :: ts) Q
  /-- If the left operand is no unit, no operator that follows it binds more tightly than it. -/
  operators : ∀ {n p : Nat} {left : Expr} {last : Token} {ts us : List Token}
    {Q : Expr → List Token → Prop}, 1 ≤ p → p ≤ 6 → min (p + 1) 6 ≤ n →
    Derives False (.expr n left last) ts us → (n < 7 → binds eof us ≤ n) →
    6 * (us.length + 1) + 1 ≤ depth →
    (∀ e last rest, Derives False (.expr (min (p + 1) 6) e last) ts rest → binds eof rest ≤ p →
      Q e (last :: rest)) →
    Sound eof (operators depth p left) (last :: us) Q
  list : ∀ {close : Token.Kind} {t : Token} {ts : List Token} {Q : List Expr → List Token → Prop},
    close ≠ .eof → 6 * (ts.length + 1) ≤ depth →
    (∀ es r rest, Derives False (.items es) ts (r :: rest) → r.kind = close → Q es (r :: rest)) →
    Sound eof (list depth close) (t :: ts) Q
  moreItems : ∀ {close : Token.Kind} {acc : List Expr} {t : Token} {ts : List Token}
    {Q : List Expr → List Token → Prop}, close ≠ .eof → 6 * (ts.length + 1) + 1 ≤ depth →
    (∀ es r rest, Derives False (.moreItems es) ts (r :: rest) → r.kind = close →
      Q (acc.reverse ++ es) (r :: rest)) →
    Sound eof (moreItems depth close acc) (t :: ts) Q
  pairs : ∀ {acc : List (Expr × Expr)} {t : Token} {ts : List Token}
    {Q : List (Expr × Expr) → List Token → Prop}, 6 * (ts.length + 1) ≤ depth →
    (∀ ps r rest, Derives False (.pairs ps) ts (r :: rest) → r.kind = .rbrace →
      Q (acc.reverse ++ ps) (r :: rest)) →
    Sound eof (pairs depth acc) (t :: ts) Q
  block : ∀ {t : Token} {ts : List Token} {Q : Block → List Token → Prop}, t.kind = .lbrace →
    6 * (ts.length + 1) ≤ depth →
    (∀ b last rest, Derives False (.block b last) (t :: ts) rest → Q b (last :: rest)) →
    Sound eof (block depth) (t :: ts) Q
  statements : ∀ {inBlock : Bool} {acc : List Stmt} {ts : List Token}
    {Q : List Stmt → List Token → Prop}, 6 * ts.length + 4 ≤ depth →
    (∀ ss rest, Derives False (.body ss) ts rest →
      ((rest.headD eof).kind = .eof ∨ (inBlock = true ∧ (rest.headD eof).kind = .rbrace)) →
      Q (acc.reverse ++ ss) rest) →
    Sound eof (statements depth inBlock acc) ts Q
  statement : ∀ {ts : List Token} {Q : Stmt → List Token → Prop}, 6 * ts.length + 3 ≤ depth →
    (∀ s last rest, Derives False (.stmt s) ts rest → Q s (last :: rest)) →
    Sound eof (statement depth) ts Q

theorem forall_head?_of_headD {P : Token → Prop} {ts : List Token} (h : P (ts.headD eof)) :
    ∀ t ∈ ts.head?, P t := by
  cases ts with
  | nil => exact nofun
  | cons t ts =>
    rintro _ ⟨⟩
    exact h

/-- The semicolon after a statement is read with it. -/
theorem Sound.ending (heof : eof.kind = .eof) {last : Token} {us : List Token}
    {f : Unit → Parse Stmt} {Q : Stmt → List Token → Prop}
    (hf : ∀ last' rest stop, Ending False last us rest stop → last'.pos = stop →
      Sound eof (f ()) (last' :: rest) Q) :
    Sound eof (do
      let t ← Parse.peek
      if t.kind = .semicolon then do
        let r ← Parse.advance
        f r
      else f ()) (last :: us) Q := by
  refine .peek ?_
  split
  · next hsemicolon =>
    cases us with
    | nil => simp [heof] at hsemicolon
    | cons t rest => exact .advance (hf t rest t.pos (.taken hsemicolon) rfl)
  · next hsemicolon =>
    exact hf last us last.pos (.bare (forall_head?_of_headD hsemicolon) False.elim) rfl

namespace Sounds

variable {depth : Nat} (h : Sounds eof depth)

include h

theorem expr_succ {p : Nat} {ts : List Token} {Q : Expr → List Token → Prop} (hp : 1 ≤ p)
    (hp' : p ≤ 6) (hdepth : 6 * ts.length + 2 ≤ depth + 1)
    (hQ : ∀ e last rest, Derives False (.expr (min (p + 1) 6) e last) ts rest → binds eof rest ≤ p →
      Q e (last :: rest)) :
    Sound eof (Parse.expr (depth + 1) p) ts Q := by
  rw [Parse.expr]
  refine .bind (h.primary (by omega) fun n left last rest hn hleft hnext => ?_)
  have hlength := hleft.length_le
  simp only [Phrase.least] at hlength
  exact h.operators hp hp' (by omega) hleft hnext (by omega) hQ

theorem unary_succ {t : Token} {op : UnaryOp} {ts : List Token} {Q : Expr → List Token → Prop}
    (hop : Sign t.kind op) (hdepth : 6 * (ts.length + 1) ≤ depth + 1)
    (hQ : ∀ e last rest, Derives False (.expr 6 e last) (t :: ts) rest → binds eof rest ≤ 6 →
      Q e (last :: rest)) :
    Sound eof (Parse.unary (depth + 1) t.pos op) (t :: ts) Q := by
  rw [Parse.unary]
  refine .advance (.bind (h.expr (by decide) (by decide) ?_ fun right last rest hright hnext => ?_))
  · change 6 * ts.length + 2 ≤ depth
    omega
  · exact .pure (hQ _ _ _ (.unary hop hright) hnext)

theorem moreItems_succ (heof : eof.kind = .eof) {close : Token.Kind} {acc : List Expr} {t : Token}
    {ts : List Token} {Q : List Expr → List Token → Prop} (hclose : close ≠ .eof)
    (hdepth : 6 * (ts.length + 1) + 1 ≤ depth + 1)
    (hQ : ∀ es r rest, Derives False (.moreItems es) ts (r :: rest) → r.kind = close →
      Q (acc.reverse ++ es) (r :: rest)) :
    Sound eof (Parse.moreItems (depth + 1) close acc) (t :: ts) Q := by
  rw [Parse.moreItems]
  refine .peek ?_
  split
  · next hcomma =>
    cases ts with
    | nil => simp [heof] at hcomma
    | cons c ts =>
      simp only [List.length_cons] at hdepth
      refine .advance (.advance (.bind (h.expr (by decide) (by decide) ?_ ?_)))
      · change 6 * ts.length + 2 ≤ depth
        omega
      · intro e last us he _
        have hlength := he.length_le
        simp only [Phrase.least, List.tail_cons] at hlength
        refine h.moreItems hclose (by omega) fun es r rest hes hr => ?_
        rw [List.reverse_cons, List.append_assoc]
        exact hQ _ _ _ (.moreItems hcomma he hes) hr
  · refine .expect heof hclose ?_
    rintro r rest rfl hr
    have hnone := hQ [] r rest .noMoreItems hr
    rw [List.append_nil] at hnone
    exact .pure hnone

theorem list_succ (heof : eof.kind = .eof) {close : Token.Kind} {t : Token} {ts : List Token}
    {Q : List Expr → List Token → Prop} (hclose : close ≠ .eof)
    (hdepth : 6 * (ts.length + 1) ≤ depth + 1)
    (hQ : ∀ es r rest, Derives False (.items es) ts (r :: rest) → r.kind = close →
      Q es (r :: rest)) :
    Sound eof (Parse.list (depth + 1) close) (t :: ts) Q := by
  rw [Parse.list]
  refine .peek ?_
  split
  · next hnext =>
    cases ts with
    | nil => exact absurd (hnext.symm.trans heof) hclose
    | cons r rest => exact .advance (.pure (hQ [] r rest .noItems hnext))
  · refine .advance (.bind (h.expr (by decide) (by decide) ?_ ?_))
    · change 6 * ts.length + 2 ≤ depth
      omega
    · intro e last us he _
      have hlength := he.length_le
      simp only [Phrase.least, List.tail_cons] at hlength
      exact h.moreItems hclose (by omega) fun es r rest hes hr => hQ _ _ _ (.someItems he hes) hr

set_option synthInstance.maxSize 800 in
theorem pairs_succ (heof : eof.kind = .eof) {acc : List (Expr × Expr)} {t : Token} {ts : List Token}
    {Q : List (Expr × Expr) → List Token → Prop} (hdepth : 6 * (ts.length + 1) ≤ depth + 1)
    (hQ : ∀ ps r rest, Derives False (.pairs ps) ts (r :: rest) → r.kind = .rbrace →
      Q (acc.reverse ++ ps) (r :: rest)) :
    Sound eof (Parse.pairs (depth + 1) acc) (t :: ts) Q := by
  rw [Parse.pairs]
  dsimp only
  refine .peek ?_
  split
  · next hnext =>
    cases ts with
    | nil => simp [heof] at hnext
    | cons r rest =>
      have hnone := hQ [] r rest .noPairs hnext
      rw [List.append_nil] at hnone
      exact .advance (.pure hnone)
  · refine .advance (.bind (h.expr (by decide) (by decide) ?_ ?_))
    · change 6 * ts.length + 2 ≤ depth
      omega
    intro key last us hkey _
    have hlength := hkey.length_le
    refine .expect heof (by decide) ?_
    rintro c us rfl hc
    simp only [Phrase.least, List.tail_cons, List.length_cons] at hlength
    refine .advance (.bind (h.expr (by decide) (by decide) ?_ ?_))
    · change 6 * us.length + 2 ≤ depth
      omega
    intro value last' vs hvalue _
    have hlength' := hvalue.length_le
    simp only [Phrase.least, List.tail_cons] at hlength'
    refine .peek ?_
    split
    · refine .expect heof (by decide) ?_
      rintro m vs rfl hm
      simp only [List.length_cons] at hlength'
      refine h.pairs (by omega) fun ps r rest hps hr => ?_
      rw [List.reverse_cons, List.append_assoc]
      exact hQ _ _ _ (.morePairs hkey hc hvalue hm hps) hr
    · next hnext =>
      refine h.pairs (by omega) fun ps r rest hps hr => ?_
      cases vs with
      | nil => simp [heof] at hnext
      | cons b vs =>
        obtain ⟨rfl, hrest⟩ := hps.pairs_of_rbrace (not_not.1 hnext)
        rw [← hrest] at hvalue
        rw [List.append_nil, List.reverse_cons]
        exact hQ _ _ _ (.lastPair hkey hc hvalue) hr

theorem block_succ (heof : eof.kind = .eof) {t : Token} {ts : List Token}
    {Q : Block → List Token → Prop} (ht : t.kind = .lbrace)
    (hdepth : 6 * (ts.length + 1) ≤ depth + 1)
    (hQ : ∀ b last rest, Derives False (.block b last) (t :: ts) rest → Q b (last :: rest)) :
    Sound eof (Parse.block (depth + 1)) (t :: ts) Q := by
  rw [Parse.block]
  dsimp only
  refine .current (.advance (.bind (h.statements ?_ fun ss rest hss hstop => .current ?_)))
  · change 6 * ts.length + 4 ≤ depth
    omega
  split
  · exact .note
  · next hbrace =>
    cases rest with
    | nil => simp [heof] at hbrace
    | cons r rest => exact .pure (hQ _ _ _ (.block ht hss (not_not.1 hbrace)))

theorem statements_succ (heof : eof.kind = .eof) {inBlock : Bool} {acc : List Stmt}
    {ts : List Token} {Q : List Stmt → List Token → Prop} (hdepth : 6 * ts.length + 4 ≤ depth + 1)
    (hQ : ∀ ss rest, Derives False (.body ss) ts rest →
      ((rest.headD eof).kind = .eof ∨ (inBlock = true ∧ (rest.headD eof).kind = .rbrace)) →
      Q (acc.reverse ++ ss) rest) :
    Sound eof (Parse.statements (depth + 1) inBlock acc) ts Q := by
  rw [Parse.statements]
  refine .current ?_
  split
  · next hstop =>
    have hnone := hQ [] ts .done hstop
    rw [List.append_nil] at hnone
    exact .pure hnone
  · next hstop =>
    cases ts with
    | nil => exact absurd (.inl heof) hstop
    | cons t ts =>
      simp only [List.length_cons] at hdepth
      split
      · next hsemicolon =>
        refine .advance (h.statements ?_ fun ss rest hss => hQ _ _ (.semicolon hsemicolon hss))
        change 6 * ts.length + 4 ≤ depth
        omega
      · refine .bind (.attempt (h.statement ?_ fun s last us hs => .advance ?_))
        · rw [List.length_cons]
          omega
        have hlength := hs.length_le
        simp only [Phrase.least, List.length_cons] at hlength
        refine h.statements ?_ fun ss rest hss hend => ?_
        · rw [List.tail_cons]
          omega
        · have hmore := hQ _ _ (.statement hs hss) hend
          rwa [Option.toList_some, List.singleton_append, List.reverse_cons, List.append_assoc]

theorem statement_succ (heof : eof.kind = .eof) {ts : List Token}
    {Q : Stmt → List Token → Prop} (hdepth : 6 * ts.length + 3 ≤ depth + 1)
    (hQ : ∀ s last rest, Derives False (.stmt s) ts rest → Q s (last :: rest)) :
    Sound eof (Parse.statement (depth + 1)) ts Q := by
  rw [Parse.statement]
  dsimp only
  refine .current ?_
  cases ts with
  | nil =>
    rw [List.headD_nil, heof]
    refine .bind (h.expr (by decide) (by decide) (by omega) fun value last us hvalue _ => ?_)
    obtain ⟨t, ts, hts, -⟩ := hvalue.first
    cases hts
  | cons t ts =>
    simp only [List.length_cons] at hdepth
    rw [List.headD_cons]
    split
    · next hl =>
      refine .expect heof (by decide) ?_
      rintro x us rfl hx
      refine .ident (.expect heof (by decide) ?_)
      rintro a us rfl ha
      simp only [List.length_cons] at hdepth
      refine .advance (.bind (h.expr (by decide) (by decide) ?_ fun value last vs hvalue _ => ?_))
      · rw [List.tail_cons]
        omega
      refine .ending heof fun last' rest stop hend hstop => .current (.pure ?_)
      rw [List.headD_cons, hstop]
      exact hQ _ _ _ (.bind hl hx ha hvalue hend)
    · next hr =>
      refine .peek ?_
      split
      · next hsemicolon =>
        cases ts with
        | nil => simp [heof] at hsemicolon
        | cons p ts => exact .advance (.pure (hQ _ _ _ (.retNone hr (.taken hsemicolon))))
      · next hsemicolon =>
        split
        · exact .pure (hQ _ _ _ (.retNone hr (.bare (forall_head?_of_headD hsemicolon) False.elim)))
        · refine .advance (.bind
            (h.expr (by decide) (by decide) ?_ fun value last vs hvalue _ => ?_))
          · rw [List.tail_cons]
            omega
          refine .ending heof fun last' rest stop hend hstop => .current (.pure ?_)
          rw [List.headD_cons, hstop]
          exact hQ _ _ _ (.ret hr hvalue hend)
    · refine .bind (h.expr (by decide) (by decide) ?_ fun value last vs hvalue _ => ?_)
      · rw [List.length_cons]
        omega
      exact .ending heof fun last' rest stop hend _ => .pure (hQ _ _ _ (.expr hvalue hend))

set_option synthInstance.maxSize 800 in
theorem conditional_succ (heof : eof.kind = .eof) {t : Token} {ts : List Token}
    {Q : Expr → List Token → Prop} (ht : t.kind = .ifKw) (hdepth : 6 * (ts.length + 1) ≤ depth + 1)
    (hQ : ∀ e last rest, Derives False (.expr 8 e last) (t :: ts) rest → Q e (last :: rest)) :
    Sound eof (Parse.conditional (depth + 1) t.pos) (t :: ts) Q := by
  rw [Parse.conditional]
  refine .expect heof (by decide) ?_
  rintro l ts rfl hl
  simp only [List.length_cons] at hdepth
  refine .advance (.bind (h.expr (by decide) (by decide) ?_ fun test last us htest _ => ?_))
  · rw [List.tail_cons]
    omega
  have hlength := htest.length_le
  refine .expect heof (by decide) ?_
  rintro r us rfl hr
  refine .expect heof (by decide) ?_
  rintro b us rfl hb
  simp only [Phrase.least, List.tail_cons, List.length_cons] at hlength
  refine .bind (h.block hb (by omega) fun yes brace vs hyes => .peek ?_)
  have hlength' := hyes.length_le
  split
  · next hk =>
    cases vs with
    | nil => simp [heof] at hk
    | cons k vs =>
      refine .advance (.expect heof (by decide) ?_)
      rintro b' vs rfl hb'
      simp only [Phrase.least, List.length_cons] at hlength'
      refine .bind (h.block hb' (by omega) fun no stop rest hno => .current (.pure ?_))
      exact hQ _ _ _ (.condElse ht hl htest hr hyes hk hno)
  · exact .current (.pure (hQ _ _ _ (.cond ht hl htest hr hyes)))

theorem operators_succ (heof : eof.kind = .eof) {n p : Nat} {left : Expr} {last : Token}
    {ts us : List Token} {Q : Expr → List Token → Prop} (hp : 1 ≤ p) (hp' : p ≤ 6)
    (hn : min (p + 1) 6 ≤ n) (hleft : Derives False (.expr n left last) ts us)
    (hnext : n < 7 → binds eof us ≤ n) (hdepth : 6 * (us.length + 1) + 1 ≤ depth + 1)
    (hQ : ∀ e last rest, Derives False (.expr (min (p + 1) 6) e last) ts rest →
      binds eof rest ≤ p → Q e (last :: rest)) :
    Sound eof (Parse.operators (depth + 1) p left) (last :: us) Q := by
  rw [Parse.operators]
  dsimp only
  refine .peek ?_
  split
  · next hbinds =>
    obtain ⟨t, us, rfl⟩ := exists_of_binds heof (Nat.lt_of_le_of_lt hp hbinds)
    refine .advance ?_
    simp only [binds, List.tail_cons, List.headD_cons, List.length_cons] at hnext hbinds hdepth ⊢
    -- What binds more tightly than the left operand would have been read with it.
    have hlevel : min t.kind.precedence 7 ≤ n := by omega
    split
    · next ht =>
      have hunit : 7 ≤ n := by rwa [ht] at hlevel
      refine .bind (h.list (by decide) (by omega) fun args r rest hargs hr => .current ?_)
      have hlength := hargs.length_le
      simp only [Phrase.least, List.length_cons] at hlength
      exact h.operators hp hp' (by omega) (.call (hleft.lower_le hunit) ht hargs hr) (by omega)
        (by omega) hQ
    · next ht =>
      have hunit : 7 ≤ n := by rwa [ht] at hlevel
      refine .advance (.bind (h.expr (by decide) (by decide) ?_ fun i last' vs hi _ => ?_))
      · rw [List.tail_cons]
        omega
      have hlength := hi.length_le
      refine .expect heof (by decide) ?_
      rintro r rest rfl hr
      simp only [Phrase.least, List.tail_cons, List.length_cons] at hlength
      exact .current (h.operators hp hp' (by omega) (.index (hleft.lower_le hunit) ht hi hr)
        (by omega) (by omega) hQ)
    · next hparen hbracket =>
      obtain ⟨op, hop⟩ := exists_ofKind? (by omega) hparen hbracket
      rw [hop]
      have hop := operator_of_ofKind? hop
      obtain ⟨hlow, hhigh⟩ := hop.level
      refine .advance (.bind
        (h.expr (by omega) (by omega) ?_ fun right last' vs hright hafter => ?_))
      · rw [List.tail_cons]
        omega
      have hlength := hright.length_le
      simp only [Phrase.least, List.tail_cons] at hlength
      rw [Nat.min_eq_left (by omega)] at hright
      exact h.operators hp hp' (by omega) (.binary (hleft.lower_le (by omega)) hop hright)
        (fun _ => hafter) (by omega) hQ
  · next hbinds => exact .pure (hQ _ _ _ (hleft.lower_le hn) (Nat.not_lt.1 hbinds))

theorem primary_succ (heof : eof.kind = .eof) {ts : List Token} {Q : Expr → List Token → Prop}
    (hdepth : 6 * ts.length + 1 ≤ depth + 1)
    (hQ : ∀ n e last rest, 6 ≤ n → Derives False (.expr n e last) ts rest →
      (n < 7 → binds eof rest ≤ n) → Q e (last :: rest)) :
    Sound eof (Parse.primary (depth + 1)) ts Q := by
  rw [Parse.primary]
  refine .current ?_
  cases ts with
  | nil =>
    rw [List.headD_nil, heof]
    exact .note
  | cons t ts =>
    simp only [List.length_cons] at hdepth
    rw [List.headD_cons]
    have hunit (e : Expr) (last : Token) (rest : List Token)
        (he : Derives False (.expr 8 e last) (t :: ts) rest) : Q e (last :: rest) :=
      hQ 8 e last rest (by decide) he fun hlt => absurd hlt (by decide)
    have hsigned (e : Expr) (last : Token) (rest : List Token)
        (he : Derives False (.expr 6 e last) (t :: ts) rest) (hnext : binds eof rest ≤ 6) :
        Q e (last :: rest) :=
      hQ 6 e last rest (by decide) he fun _ => hnext
    split
    · next ht => exact .ident (.pure (hunit _ _ _ (.ident ht)))
    · next ht =>
      refine .current ?_
      dsimp only [List.headD_cons]
      split
      · next hn => exact .pure (hunit _ _ _ (.int ht (Nat.lt_succ_of_le hn)))
      · exact .note
    · next ht => exact .pure (hunit _ _ _ (.string ht))
    · next ht => exact .pure (hunit _ _ _ (.trueKw ht))
    · next ht => exact .pure (hunit _ _ _ (.falseKw ht))
    · next ht => exact h.unary (by rw [ht]; exact .not) (by omega) hsigned
    · next ht => exact h.unary (by rw [ht]; exact .neg) (by omega) hsigned
    · next ht =>
      refine .advance (.bind_of_keeps (fun e => .of_forward (.bind inferInstance fun _ => ?_))
        (.attempt ?_))
      · cases e <;> infer_instance
      refine h.expr (by decide) (by decide) ?_ fun e last us he _ => ?_
      · rw [List.tail_cons]
        omega
      refine .expect heof (by decide) ?_
      rintro r rest rfl hr
      exact .pure (hunit _ _ _ (.group ht he hr))
    · next ht => exact h.conditional ht (by omega) hunit
    · next ht =>
      refine .expect heof (by decide) ?_
      rintro l ts rfl hl
      simp only [List.length_cons] at hdepth
      refine .bind (sound_params heof (by omega) fun ps r us hps hr => ?_)
      refine .expect heof (by decide) ?_
      rintro b us rfl hb
      have hlength := hps.suffix.length_le
      simp only [List.length_cons] at hlength
      refine .bind (h.block hb (by omega) fun body stop rest hbody => .current (.pure ?_))
      exact hunit _ _ _ (.function ht hl hps hr hbody)
    · next ht =>
      refine .bind (h.list (by decide) (by omega) fun es r rest hes hr => .current (.pure ?_))
      exact hunit _ _ _ (.array ht hes hr)
    · next ht =>
      refine .bind (h.pairs (by omega) fun ps r rest hps hr => .current (.pure ?_))
      exact hunit _ _ _ (.hash ht hps hr)
    · exact .note

end Sounds

/-- What is read is derived, if the depth suffices. -/
theorem sounds (heof : eof.kind = .eof) (depth : Nat) : Sounds eof depth := by
  induction depth with
  | zero =>
    constructor <;> intros <;> omega
  | succ depth h =>
    exact {
      expr := h.expr_succ
      primary := h.primary_succ heof
      unary := h.unary_succ
      conditional := h.conditional_succ heof
      operators := h.operators_succ heof
      list := h.list_succ heof
      moreItems := h.moreItems_succ heof
      pairs := h.pairs_succ heof
      block := h.block_succ heof
      statements := h.statements_succ heof
      statement := h.statement_succ heof }

end Parse

end StackScript
