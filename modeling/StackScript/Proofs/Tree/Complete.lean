import StackScript.Proofs.Tree.Sound

/-!
# What is derived is read

Tokens from which a phrase is strictly derived are read without a fault, and what
is read is the tree that the phrase stands for.

An expression is read up to its last operator and then extended by the operators
after it. So reading an expression and what follows it is the same as extending
the expression: operators that group to the left are read one by one.

## Main definitions

* `Parse.Read`: the phrase is read from the tokens it is derived from.

## Main results

* `Parse.read_of_derives`: what is derived is read.
-/

namespace StackScript

namespace Parse

open Grammar

variable {α β : Type} {eof : Token} {ts rest : List Token}

/-! ### Steps of readers -/

theorem peek_bind (f : Token → Parse α) (ts : List Token) :
    (peek >>= f) (stream eof ts) = f (ts.tail.headD eof) (stream eof ts) :=
  rfl

theorem current_bind (f : Token → Parse α) (ts : List Token) :
    (current >>= f) (stream eof ts) = f (ts.headD eof) (stream eof ts) :=
  rfl

theorem advance_bind (f : Unit → Parse α) (ts : List Token) :
    (advance >>= f) (stream eof ts) = f () (stream eof ts.tail) :=
  rfl

theorem ident_bind (f : Ident → Parse α) (ts : List Token) :
    (ident >>= f) (stream eof ts) = f (Grammar.ident (ts.headD eof)) (stream eof ts) :=
  rfl

theorem expect_bind {c t : Token} {us : List Token} {kind : Token.Kind} (h : t.kind = kind)
    (f : Unit → Parse α) :
    (expect kind >>= f) (stream eof (c :: t :: us)) = f () (stream eof (t :: us)) :=
  bind_some (expect_eq h) f

/-- The next token goes on with no expression. -/
def Ends (eof : Token) (rest : List Token) : Prop :=
  (rest.headD eof).kind ≠ .elseKw ∧ binds eof rest ≤ 1

theorem ends_of_kind {kind : Token.Kind} (h : (rest.headD eof).kind = kind)
    (hkind : kind ≠ .elseKw ∧ kind.precedence ≤ 1) : Ends eof rest := by
  rw [Ends, binds, h]
  exact hkind

/-- The phrase is read from the tokens, if there is enough depth and what follows does not go on
with it. An expression may be extended by what follows. -/
def Read (eof : Token) : Phrase → List Token → List Token → Prop
  | .expr n e last, ts, rest => ∀ p depth, 1 ≤ p → p ≤ 6 → min p 5 < n →
    (rest.headD eof).kind ≠ .elseKw → (n < 7 → binds eof rest ≤ n) → 6 * ts.length + 2 ≤ depth →
    ∃ d, 6 * (rest.length + 1) + 1 ≤ d ∧
      expr depth p (stream eof ts) = operators d p e (stream eof (last :: rest))
  | .items es, ts, rest => ∀ t close depth, (rest.headD eof).kind = close →
    close = .rparen ∨ close = .rbracket → 6 * (ts.length + 1) ≤ depth →
    list depth close (stream eof (t :: ts)) = (some es, stream eof rest)
  | .moreItems es, ts, rest => ∀ t close acc depth, (rest.headD eof).kind = close →
    close = .rparen ∨ close = .rbracket → 6 * (ts.length + 1) + 1 ≤ depth →
    moreItems depth close acc (stream eof (t :: ts)) = (some (acc.reverse ++ es), stream eof rest)
  | .pairs ps, ts, rest => ∀ t acc depth, (rest.headD eof).kind = .rbrace →
    6 * (ts.length + 1) ≤ depth →
    pairs depth acc (stream eof (t :: ts)) = (some (acc.reverse ++ ps), stream eof rest)
  | .block b last, ts, rest => ∀ depth, 6 * ts.length ≤ depth →
    block depth (stream eof ts) = (some b, stream eof (last :: rest))
  | .stmt s, ts, rest => ∀ depth, 6 * ts.length + 3 ≤ depth →
    ∃ last us, statement depth (stream eof ts) = (some s, stream eof (last :: us)) ∧
      (us = rest ∨ ∃ t, t.kind = .semicolon ∧ rest = t :: us)
  | .body ss, ts, rest => ∀ inBlock acc depth,
    (rest.headD eof).kind = .eof ∨ (inBlock = true ∧ (rest.headD eof).kind = .rbrace) →
    6 * ts.length + 4 ≤ depth →
    statements depth inBlock acc (stream eof ts) = (some (acc.reverse ++ ss), stream eof rest)

section

variable {n : Nat} {e : Expr} {last : Token}

/-- An expression is not extended if what follows does not bind more tightly. -/
theorem operators_stop {d p : Nat} (hd : 1 ≤ d) (hnext : binds eof rest ≤ p) :
    operators d p e (stream eof (last :: rest)) = (some e, stream eof (last :: rest)) := by
  obtain ⟨d, rfl⟩ := Nat.exists_eq_add_of_le' hd
  rw [operators, peek_bind]
  exact congrFun (if_neg (c := p < binds eof rest) (Nat.not_lt.2 hnext)) _

theorem Read.stop (h : Read eof (.expr n e last) ts rest) {p d : Nat} (hp : 1 ≤ p)
    (hp' : p ≤ 6) (hn : min p 5 < n) (hle : p ≤ n) (helse : (rest.headD eof).kind ≠ .elseKw)
    (hnext : binds eof rest ≤ p) (hdepth : 6 * ts.length + 2 ≤ d) :
    expr d p (stream eof ts) = (some e, stream eof (last :: rest)) := by
  obtain ⟨d', hd, hread⟩ := h p d hp hp' hn helse (fun _ => Nat.le_trans hnext hle) hdepth
  rw [hread]
  exact operators_stop (by omega) hnext

/-- A whole expression. -/
theorem Read.whole (h : Read eof (.expr 2 e last) ts rest) {d : Nat} (hends : Ends eof rest)
    (hdepth : 6 * ts.length + 2 ≤ d) :
    expr d Precedence.lowest (stream eof ts) = (some e, stream eof (last :: rest)) :=
  h.stop (by decide) (by decide) (by decide) (by decide) hends.1 hends.2 hdepth

/-- What is read before any operator may be extended. -/
theorem read_of_primary (hlength : rest.length < ts.length)
    (h : ∀ d, (rest.headD eof).kind ≠ .elseKw → (n < 7 → binds eof rest ≤ n) →
      6 * ts.length + 1 ≤ d + 1 →
        primary (d + 1) (stream eof ts) = (some e, stream eof (last :: rest))) :
    Read eof (.expr n e last) ts rest := by
  intro p depth _ _ _ helse hnext hdepth
  obtain ⟨d, rfl⟩ := Nat.exists_eq_add_of_le' (Nat.le_trans (Nat.le_add_left 2 _) hdepth)
  refine ⟨d + 1, by omega, ?_⟩
  rw [expr, bind_some (h d helse hnext (by omega))]

end

/-! ### Units -/

section

variable {t l r last stop : Token} {e test : Expr} {us vs : List Token}

theorem read_ident (ht : t.kind = .ident) :
    Read eof (.expr 8 (.ident (Grammar.ident t)) t) (t :: rest) rest := by
  refine read_of_primary (by simp) fun d _ _ _ => ?_
  rw [primary, current_bind]
  simp only [List.headD_cons, ht]
  rfl

theorem read_int (ht : t.kind = .int) (hn : t.literal.decimal < 2 ^ 63) :
    Read eof (.expr 8 (.int (.token t.pos) t.literal (.ofNat t.literal.decimal)) t) (t :: rest)
      rest := by
  refine read_of_primary (by simp) fun d _ _ _ => ?_
  rw [primary, current_bind]
  simp only [List.headD_cons, ht]
  rw [integer, current_bind]
  exact congrFun (if_pos (c := t.literal.decimal ≤ maxLiteral) (Nat.le_of_lt_succ hn)) _

theorem read_string (ht : t.kind = .string) :
    Read eof (.expr 8 (.string (.token t.pos) t.literal) t) (t :: rest) rest := by
  refine read_of_primary (by simp) fun d _ _ _ => ?_
  rw [primary, current_bind]
  simp only [List.headD_cons, ht]
  rfl

theorem read_bool {b : Bool} (ht : t.kind = if b then .trueKw else .falseKw) :
    Read eof (.expr 8 (.bool (.token t.pos) b) t) (t :: rest) rest := by
  refine read_of_primary (by simp) fun d _ _ _ => ?_
  rw [primary, current_bind]
  cases b with
  | true =>
    rw [if_pos rfl] at ht
    simp only [List.headD_cons, ht]
    rfl
  | false =>
    rw [if_neg Bool.false_ne_true] at ht
    simp only [List.headD_cons, ht]
    rfl

theorem read_group (hl : l.kind = .lparen) (he : Read eof (.expr 2 e last) ts (r :: rest))
    (hr : r.kind = .rparen) (hlength : rest.length < ts.length) :
    Read eof (.expr 8 e r) (l :: ts) rest := by
  refine read_of_primary (by simp; omega) fun d _ _ hdepth => ?_
  simp only [List.length_cons] at hdepth
  have hread := he.whole (ends_of_kind hr (by decide)) (d := d) (by omega)
  rw [primary, current_bind]
  simp only [List.headD_cons, hl]
  rw [advance_bind, List.tail_cons, bind_some (attempt_eq hread), expect_bind hr]
  rfl

theorem read_array {es : List Expr} (hl : l.kind = .lbracket)
    (hes : Read eof (.items es) ts (r :: rest)) (hr : r.kind = .rbracket)
    (hlength : rest.length < ts.length) :
    Read eof (.expr 8 (.array (.run l.pos r.pos) es) r) (l :: ts) rest := by
  refine read_of_primary (by simp; omega) fun d _ _ hdepth => ?_
  simp only [List.length_cons] at hdepth
  rw [primary, current_bind]
  simp only [List.headD_cons, hl]
  rw [bind_some (hes l _ d hr (.inr rfl) (by omega)), current_bind]
  rfl

theorem read_hash {ps : List (Expr × Expr)} (hl : l.kind = .lbrace)
    (hps : Read eof (.pairs ps) ts (r :: rest)) (hr : r.kind = .rbrace)
    (hlength : rest.length < ts.length) :
    Read eof (.expr 8 (.hash (.run l.pos r.pos) ps) r) (l :: ts) rest := by
  refine read_of_primary (by simp; omega) fun d _ _ hdepth => ?_
  simp only [List.length_cons] at hdepth
  rw [primary, current_bind]
  simp only [List.headD_cons, hl]
  rw [bind_some (hps l [] d hr (by omega)), current_bind]
  rfl

theorem moreParams_of_derives {ids : List Ident} (h : MoreParams ids ts (r :: rest))
    (hr : r.kind = .rparen) (acc : List Ident) {depth : Nat} (hdepth : ts.length ≤ depth) :
    moreParams depth acc (stream eof (t :: ts)) =
      (some (acc.reverse ++ ids), stream eof (r :: rest)) := by
  generalize hend : r :: rest = end' at h
  induction h generalizing acc t depth with
  | nil =>
    subst hend
    obtain ⟨d, rfl⟩ := Nat.exists_eq_add_of_le' (Nat.le_trans (Nat.le_add_left 1 _) hdepth)
    rw [moreParams, peek_bind, List.append_nil, List.tail_cons, List.headD_cons,
      if_neg (show r.kind ≠ .comma by rw [hr]; decide), expect_bind hr]
    rfl
  | @cons c x ids ts rest' hc hx _ ih =>
    obtain ⟨d, rfl⟩ := Nat.exists_eq_add_of_le' (Nat.le_trans (Nat.le_add_left 1 _) hdepth)
    simp only [List.length_cons] at hdepth
    rw [moreParams, peek_bind, List.tail_cons, List.headD_cons, if_pos hc, advance_bind,
      List.tail_cons, expect_bind hx, ident_bind, List.headD_cons, ih _ (by omega) hend,
      List.reverse_cons, List.append_assoc]
    rfl

theorem params_of_derives {ids : List Ident} (h : Params ids ts (r :: rest)) (hr : r.kind = .rparen)
    {depth : Nat} (hdepth : ts.length ≤ depth) :
    params depth (stream eof (t :: ts)) = (some ids, stream eof (r :: rest)) := by
  rw [params, peek_bind]
  cases h with
  | nil =>
    rw [List.tail_cons, List.headD_cons, if_pos hr]
    rfl
  | @cons x ids ts _ hx hids =>
    simp only [List.length_cons] at hdepth
    rw [List.tail_cons, List.headD_cons, if_neg (show x.kind ≠ .rparen by rw [hx]; decide),
      expect_bind hx, ident_bind, List.headD_cons, moreParams_of_derives hids hr _ (by omega)]
    rfl

theorem read_function {f : Token} {ids : List Ident} {b : Block} (hf : f.kind = .function)
    (hl : l.kind = .lparen) (hids : Params ids ts (r :: us)) (hr : r.kind = .rparen)
    (hb : Read eof (.block b stop) us rest) (hfirst : ∃ t vs, us = t :: vs ∧ t.kind = .lbrace)
    (hlength : rest.length < us.length) :
    Read eof (.expr 8 (.function (.run f.pos stop.pos) [] ids b) stop) (f :: l :: ts) rest := by
  have hlength' := hids.suffix.length_le
  simp only [List.length_cons] at hlength'
  refine read_of_primary (by simp; omega) fun d _ _ hdepth => ?_
  simp only [List.length_cons] at hdepth
  obtain ⟨t, vs, rfl, ht⟩ := hfirst
  rw [primary, current_bind]
  simp only [List.headD_cons, hf]
  rw [expect_bind hl, bind_some (params_of_derives hids hr (by omega)), expect_bind ht,
    bind_some (hb d (by omega)), current_bind]
  rfl

theorem read_cond {i : Token} {yes : Block} (hi : i.kind = .ifKw) (hl : l.kind = .lparen)
    (htest : Read eof (.expr 2 test last) ts (r :: us)) (hr : r.kind = .rparen)
    (hyes : Read eof (.block yes stop) us rest) (hfirst : ∃ t vs, us = t :: vs ∧ t.kind = .lbrace)
    (hlength : us.length < ts.length) (hlength' : rest.length < us.length) :
    Read eof (.expr 8 (.cond (.run i.pos stop.pos) test yes none) stop) (i :: l :: ts) rest := by
  refine read_of_primary (by simp; omega) fun d helse _ hdepth => ?_
  simp only [List.length_cons] at hdepth
  obtain ⟨d, rfl⟩ := Nat.exists_eq_add_of_le' (show 1 ≤ d by omega)
  obtain ⟨t, vs, rfl, ht⟩ := hfirst
  rw [primary, current_bind]
  simp only [List.headD_cons, hi]
  rw [conditional, expect_bind hl, advance_bind, List.tail_cons,
    bind_some (htest.whole (ends_of_kind hr (by decide)) (by omega)), expect_bind hr,
    expect_bind ht, bind_some (hyes d (by omega)), peek_bind, List.tail_cons, if_neg helse,
    current_bind]
  rfl

theorem read_condElse {i k brace : Token} {yes no : Block} (hi : i.kind = .ifKw)
    (hl : l.kind = .lparen) (htest : Read eof (.expr 2 test last) ts (r :: us))
    (hr : r.kind = .rparen) (hyes : Read eof (.block yes brace) us (k :: vs))
    (hfirst : ∃ t ws, us = t :: ws ∧ t.kind = .lbrace) (hk : k.kind = .elseKw)
    (hno : Read eof (.block no stop) vs rest) (hfirst' : ∃ t ws, vs = t :: ws ∧ t.kind = .lbrace)
    (hlength : us.length < ts.length) (hlength' : vs.length < us.length)
    (hlength'' : rest.length < vs.length) :
    Read eof (.expr 8 (.cond (.run i.pos stop.pos) test yes (some no)) stop)
      (i :: l :: ts) rest := by
  refine read_of_primary (by simp; omega) fun d helse _ hdepth => ?_
  simp only [List.length_cons] at hdepth
  obtain ⟨d, rfl⟩ := Nat.exists_eq_add_of_le' (show 1 ≤ d by omega)
  obtain ⟨t, us', rfl, ht⟩ := hfirst
  obtain ⟨t', vs', rfl, ht'⟩ := hfirst'
  rw [primary, current_bind]
  simp only [List.headD_cons, hi]
  rw [conditional, expect_bind hl, advance_bind, List.tail_cons,
    bind_some (htest.whole (ends_of_kind hr (by decide)) (by omega)), expect_bind hr,
    expect_bind ht, bind_some (hyes d (by omega)), peek_bind, List.tail_cons, List.headD_cons,
    if_pos hk, advance_bind, List.tail_cons, expect_bind ht', bind_some (hno d (by omega)),
    current_bind]
  rfl

end

/-! ### Operators -/

section

variable {n : Nat} {t l r last last' : Token} {e left right : Expr} {us : List Token}

theorem read_unary {op : UnaryOp} (hop : Sign t.kind op)
    (hright : Read eof (.expr 6 right last) ts rest) (hlength : rest.length < ts.length) :
    Read eof (.expr 6 (.unary (.run t.pos right.loc.span.stop) op right) last) (t :: ts) rest := by
  refine read_of_primary (by simp; omega) fun d helse hnext hdepth => ?_
  simp only [List.length_cons] at hdepth
  obtain ⟨d, rfl⟩ := Nat.exists_eq_add_of_le' (show 1 ≤ d by omega)
  have hread := hright.stop (p := Precedence.operand) (d := d) (by decide) (by decide)
    (by decide) (by decide) helse (hnext (by decide)) (by omega)
  have hunary (op : UnaryOp) : unary (d + 1) t.pos op (stream eof (t :: ts)) =
      (some (.unary (.run t.pos right.loc.span.stop) op right), stream eof (last :: rest)) := by
    rw [unary, advance_bind, List.tail_cons, bind_some hread]
    rfl
  rw [primary, current_bind, List.headD_cons]
  generalize t.kind = kind at hop
  cases hop with
  | not => exact hunary .not
  | neg => exact hunary .neg

/-- The operator and its right operand extend the left one. -/
theorem read_binary {op : BinaryOp} (hleft : Read eof (.expr n left last) ts (t :: us))
    (hop : Operator n t.kind op) (hright : Read eof (.expr (n + 1) right last') us rest)
    (hlength : rest.length < us.length) :
    Read eof
      (.expr n (.binary ⟨t.pos, ⟨left.loc.span.start, right.loc.span.stop⟩⟩ op left right) last')
      ts rest := by
  intro p depth hp hp' hn helse hnext hdepth
  obtain ⟨hlow, hhigh⟩ := hop.level
  obtain ⟨hkind, hbinds, hparen, hbracket⟩ := ofKind?_of_operator hop
  obtain ⟨d, hd, hread⟩ := hleft p depth hp hp' hn
    (by rw [List.headD_cons]; rintro hkw; simp [hkw, BinaryOp.ofKind?] at hkind)
    (fun _ => Nat.le_of_eq hbinds) hdepth
  simp only [List.length_cons] at hd
  obtain ⟨d, rfl⟩ := Nat.exists_eq_add_of_le' (show 1 ≤ d by omega)
  have hreadRight := hright.stop (p := n) (d := d) (by omega) (by omega) (by omega) (by omega)
    helse (hnext (by omega)) (by omega)
  refine ⟨d, by omega, ?_⟩
  rw [hread, operators, peek_bind, List.tail_cons, List.headD_cons,
    if_pos (show p < t.kind.precedence by omega), advance_bind, List.tail_cons]
  simp only [hkind, hbinds]
  rw [advance_bind, List.tail_cons, bind_some hreadRight]

/-- Arguments extend the callee. -/
theorem read_call {args : List Expr} (hleft : Read eof (.expr 7 left last) ts (l :: us))
    (hl : l.kind = .lparen) (hargs : Read eof (.items args) us (r :: rest)) (hr : r.kind = .rparen)
    (hlength : rest.length < us.length) :
    Read eof (.expr 7 (.call ⟨l.pos, ⟨left.loc.span.start, r.pos⟩⟩ left args) r) ts rest := by
  intro p depth hp hp' hn _ _ hdepth
  obtain ⟨d, hd, hread⟩ := hleft p depth hp hp' hn (by simp [hl]) (by simp) hdepth
  simp only [List.length_cons] at hd
  obtain ⟨d, rfl⟩ := Nat.exists_eq_add_of_le' (show 1 ≤ d by omega)
  refine ⟨d, by omega, ?_⟩
  have hbinds : p < l.kind.precedence := by
    rw [hl]
    exact Nat.lt_succ_of_le hp'
  rw [hread, operators, peek_bind, List.tail_cons, List.headD_cons, if_pos hbinds, advance_bind,
    List.tail_cons]
  simp only [hl]
  rw [bind_some (hargs l _ d hr (.inl rfl) (by omega)), current_bind, List.headD_cons]

/-- An index extends what it is for. -/
theorem read_index {i : Expr} (hleft : Read eof (.expr 7 left last) ts (l :: us))
    (hl : l.kind = .lbracket) (hi : Read eof (.expr 2 i last') us (r :: rest))
    (hr : r.kind = .rbracket) (hlength : rest.length < us.length) :
    Read eof (.expr 7 (.index ⟨l.pos, ⟨left.loc.span.start, r.pos⟩⟩ left i) r) ts rest := by
  intro p depth hp hp' hn _ _ hdepth
  obtain ⟨d, hd, hread⟩ := hleft p depth hp hp' hn (by simp [hl]) (by simp) hdepth
  simp only [List.length_cons] at hd
  obtain ⟨d, rfl⟩ := Nat.exists_eq_add_of_le' (show 1 ≤ d by omega)
  refine ⟨d, by omega, ?_⟩
  have hbinds : p < l.kind.precedence := by
    rw [hl]
    exact Nat.lt_of_le_of_lt hp' (by decide)
  rw [hread, operators, peek_bind, List.tail_cons, List.headD_cons, if_pos hbinds, advance_bind,
    List.tail_cons]
  simp only [hl]
  rw [advance_bind, List.tail_cons, bind_some (hi.whole (ends_of_kind hr (by decide)) (by omega)),
    expect_bind hr, current_bind, List.headD_cons]

theorem read_lower (he : Read eof (.expr (n + 1) e last) ts rest) :
    Read eof (.expr n e last) ts rest := by
  intro p depth hp hp' hn helse hnext hdepth
  exact he p depth hp hp' (by omega) helse (by omega) hdepth

end

/-! ### Lists -/

section

variable {t c m last last' : Token} {e key value : Expr} {us vs : List Token}

theorem ends_of_close {close : Token.Kind} (h : (rest.headD eof).kind = close)
    (hclose : close = .rparen ∨ close = .rbracket) : Ends eof rest := by
  obtain rfl | rfl := hclose
  · exact ends_of_kind h (by decide)
  · exact ends_of_kind h (by decide)

/-- At the end of a list there is a token. -/
theorem exists_close (heof : eof.kind = .eof) {kind : Token.Kind} (h : (rest.headD eof).kind = kind)
    (hkind : kind ≠ .eof) : ∃ t us, rest = t :: us ∧ t.kind = kind := by
  cases rest with
  | nil => exact absurd (h.symm.trans heof) hkind
  | cons t us => exact ⟨t, us, rfl, h⟩

theorem read_noMoreItems (heof : eof.kind = .eof) : Read eof (.moreItems []) rest rest := by
  intro t close acc depth hnext hclose hdepth
  obtain ⟨d, rfl⟩ := Nat.exists_eq_add_of_le' (show 1 ≤ depth by omega)
  obtain ⟨r, rest, rfl, hr⟩ := exists_close heof hnext (by obtain rfl | rfl := hclose <;> decide)
  have hcomma : r.kind ≠ .comma := by
    rw [hr]
    obtain rfl | rfl := hclose <;> decide
  rw [moreItems, peek_bind, List.tail_cons, List.headD_cons, if_neg hcomma, expect_bind hr,
    List.append_nil]
  rfl

theorem ends_of_moreItems {strict : Prop} {es : List Expr} {close : Token.Kind}
    (h : Derives strict (.moreItems es) ts rest) (hnext : (rest.headD eof).kind = close)
    (hclose : close = .rparen ∨ close = .rbracket) : Ends eof ts := by
  cases h with
  | noMoreItems => exact ends_of_close hnext hclose
  | moreItems hc => exact ends_of_kind hc (by decide)

theorem read_moreItems {es : List Expr} (hc : c.kind = .comma)
    (he : Read eof (.expr 2 e last) ts us) (hes : Read eof (.moreItems es) us rest)
    (hderives : Derives True (.moreItems es) us rest) (hlength : us.length < ts.length) :
    Read eof (.moreItems (e :: es)) (c :: ts) rest := by
  intro t close acc depth hnext hclose hdepth
  obtain ⟨d, rfl⟩ := Nat.exists_eq_add_of_le' (show 1 ≤ depth by omega)
  simp only [List.length_cons] at hdepth
  rw [moreItems, peek_bind, List.tail_cons, List.headD_cons, if_pos hc, advance_bind,
    List.tail_cons, advance_bind, List.tail_cons,
    bind_some (he.whole (ends_of_moreItems hderives hnext hclose) (by omega)),
    hes last close (e :: acc) d hnext hclose (by omega), List.reverse_cons, List.append_assoc]
  rfl

theorem read_noItems (heof : eof.kind = .eof) : Read eof (.items []) rest rest := by
  intro t close depth hnext hclose hdepth
  obtain ⟨d, rfl⟩ := Nat.exists_eq_add_of_le' (show 1 ≤ depth by omega)
  obtain ⟨r, rest, rfl, hr⟩ := exists_close heof hnext (by obtain rfl | rfl := hclose <;> decide)
  rw [list, peek_bind, List.tail_cons, List.headD_cons, if_pos hr]
  rfl

theorem read_someItems {es : List Expr} (he : Read eof (.expr 2 e last) ts us)
    (hes : Read eof (.moreItems es) us rest) (hderives : Derives True (.moreItems es) us rest)
    (hfirst : ∃ t vs, ts = t :: vs ∧ t.kind.starts = true) (hlength : us.length < ts.length) :
    Read eof (.items (e :: es)) ts rest := by
  intro t close depth hnext hclose hdepth
  obtain ⟨d, rfl⟩ := Nat.exists_eq_add_of_le' (show 1 ≤ depth by omega)
  obtain ⟨x, vs, rfl, hx⟩ := hfirst
  have hopen : x.kind ≠ close := by
    obtain rfl | rfl := hclose <;> exact Token.Kind.ne_of_starts hx rfl
  rw [list, peek_bind, List.tail_cons, List.headD_cons, if_neg hopen, advance_bind, List.tail_cons,
    bind_some (he.whole (ends_of_moreItems hderives hnext hclose) (by omega)),
    hes last close [e] d hnext hclose (by omega)]
  rfl

theorem read_noPairs (heof : eof.kind = .eof) : Read eof (.pairs []) rest rest := by
  intro t acc depth hnext hdepth
  obtain ⟨d, rfl⟩ := Nat.exists_eq_add_of_le' (show 1 ≤ depth by omega)
  obtain ⟨r, rest, rfl, hr⟩ := exists_close heof hnext (by decide)
  rw [pairs, peek_bind, List.tail_cons, List.headD_cons, if_pos hr, List.append_nil]
  rfl

/-- A pair is read up to what follows it. -/
theorem pairs_step {acc : List (Expr × Expr)} {d : Nat}
    (hkey : Read eof (.expr 2 key last) ts (c :: us)) (hc : c.kind = .colon)
    (hvalue : Read eof (.expr 2 value last') us rest) (hends : Ends eof rest)
    (hfirst : ∃ t vs, ts = t :: vs ∧ t.kind.starts = true)
    (hlength : us.length < ts.length) (hdepth : 6 * (ts.length + 1) ≤ d + 1) :
    pairs (d + 1) acc (stream eof (t :: ts)) =
      (if (rest.headD eof).kind ≠ .rbrace then
          expect .comma >>= fun _ => pairs d ((key, value) :: acc)
        else pairs d ((key, value) :: acc)) (stream eof (last' :: rest)) := by
  obtain ⟨x, vs, rfl, hx⟩ := hfirst
  have hopen : x.kind ≠ .rbrace := Token.Kind.ne_of_starts hx rfl
  rw [pairs, peek_bind, List.tail_cons, List.headD_cons, if_neg hopen, advance_bind, List.tail_cons,
    bind_some (hkey.whole (ends_of_kind hc (by decide)) (by omega)), expect_bind hc, advance_bind,
    List.tail_cons, bind_some (hvalue.whole hends (by omega))]
  rfl

theorem read_lastPair (heof : eof.kind = .eof) (hkey : Read eof (.expr 2 key last) ts (c :: us))
    (hc : c.kind = .colon) (hvalue : Read eof (.expr 2 value last') us rest)
    (hfirst : ∃ t vs, ts = t :: vs ∧ t.kind.starts = true) (hlength : us.length < ts.length)
    (hlength' : rest.length < us.length) : Read eof (.pairs [(key, value)]) ts rest := by
  intro t acc depth hnext hdepth
  obtain ⟨d, rfl⟩ := Nat.exists_eq_add_of_le' (show 1 ≤ depth by omega)
  rw [pairs_step hkey hc hvalue (ends_of_kind hnext (by decide)) hfirst hlength hdepth,
    if_neg (not_not.2 hnext), read_noPairs heof last' ((key, value) :: acc) d hnext (by omega),
    List.append_nil, List.reverse_cons]

theorem read_morePairs {ps : List (Expr × Expr)} (hkey : Read eof (.expr 2 key last) ts (c :: us))
    (hc : c.kind = .colon) (hvalue : Read eof (.expr 2 value last') us (m :: vs))
    (hm : m.kind = .comma) (hps : Read eof (.pairs ps) vs rest)
    (hfirst : ∃ t vs, ts = t :: vs ∧ t.kind.starts = true) (hlength : us.length < ts.length)
    (hlength' : vs.length < us.length) : Read eof (.pairs ((key, value) :: ps)) ts rest := by
  intro t acc depth hnext hdepth
  obtain ⟨d, rfl⟩ := Nat.exists_eq_add_of_le' (show 1 ≤ depth by omega)
  have hmore : ((m :: vs).headD eof).kind ≠ .rbrace := by
    rw [List.headD_cons, hm]
    decide
  rw [pairs_step hkey hc hvalue (ends_of_kind hm (by decide)) hfirst hlength hdepth, if_pos hmore,
    expect_bind hm, hps m ((key, value) :: acc) d hnext (by omega), List.reverse_cons,
    List.append_assoc]
  rfl

end

/-! ### Statements -/

section

variable {t l a last : Token} {value : Expr} {stop : Pos} {us : List Token}

theorem read_block {r : Token} {ss : List Stmt} (hss : Read eof (.body ss) ts (r :: rest))
    (hr : r.kind = .rbrace) : Read eof (.block (.mk (.run l.pos r.pos) ss) r) (l :: ts) rest := by
  intro depth hdepth
  simp only [List.length_cons] at hdepth
  obtain ⟨d, rfl⟩ := Nat.exists_eq_add_of_le' (show 1 ≤ depth by omega)
  rw [block, current_bind, List.headD_cons, advance_bind, List.tail_cons,
    bind_some (hss true [] d (.inr ⟨rfl, hr⟩) (by omega)), current_bind, List.headD_cons]
  exact congrFun (if_neg (not_not.2 hr)) _

/-- A statement ends where its value does. -/
theorem ends_of_ending (heof : eof.kind = .eof) (h : Ending True last us rest stop) :
    Ends eof us := by
  cases h with
  | taken ht | left ht => exact ends_of_kind ht (by decide)
  | bare _ hstrict =>
    cases rest with
    | nil => exact ends_of_kind heof (by decide)
    | cons t rest => exact ends_of_kind (hstrict trivial t rfl) (by decide)

/-- The semicolon after a statement is read with it. -/
theorem read_ending (heof : eof.kind = .eof) (h : Ending True last us rest stop)
    (f : Unit → Parse α) :
    ∃ last' us', last'.pos = stop ∧ (us' = rest ∨ ∃ t, t.kind = .semicolon ∧ rest = t :: us') ∧
      (peek >>= fun t => if t.kind = .semicolon then advance >>= f else f ())
        (stream eof (last :: us)) = f () (stream eof (last' :: us')) := by
  cases h with
  | @taken t rest ht =>
    refine ⟨t, rest, rfl, .inl rfl, ?_⟩
    rw [peek_bind, List.tail_cons, List.headD_cons, if_pos ht, advance_bind, List.tail_cons]
  | @left t rest ht =>
    refine ⟨t, rest, rfl, .inr ⟨t, ht, rfl⟩, ?_⟩
    rw [peek_bind, List.tail_cons, List.headD_cons, if_pos ht, advance_bind, List.tail_cons]
  | bare hnext _ =>
    refine ⟨last, rest, rfl, .inl rfl, ?_⟩
    have hnone : (rest.headD eof).kind ≠ .semicolon := by
      cases rest with
      | nil =>
        rw [List.headD_nil, heof]
        decide
      | cons t rest => exact hnext t rfl
    rw [peek_bind, List.tail_cons, if_neg hnone]

theorem read_bind (heof : eof.kind = .eof) (hl : l.kind = .letKw) (ht : t.kind = .ident)
    (ha : a.kind = .assign) (hvalue : Read eof (.expr 2 value last) ts us)
    (hend : Ending True last us rest stop) :
    Read eof (.stmt (.bind (.run l.pos stop) (Grammar.ident t) (value.named t.literal)))
      (l :: t :: a :: ts) rest := by
  intro depth hdepth
  simp only [List.length_cons] at hdepth
  obtain ⟨d, rfl⟩ := Nat.exists_eq_add_of_le' (show 1 ≤ depth by omega)
  obtain ⟨last', us', rfl, hrest, hread⟩ := read_ending heof hend fun _ => current >>= fun stop =>
    Pure.pure (Stmt.bind (.run l.pos stop.pos) (Grammar.ident t) (value.named t.literal))
  refine ⟨last', us', ?_, hrest⟩
  rw [statement, current_bind]
  simp only [List.headD_cons, hl]
  rw [expect_bind ht, ident_bind, List.headD_cons, expect_bind ha, advance_bind, List.tail_cons,
    bind_some (hvalue.whole (ends_of_ending heof hend) (by omega))]
  exact hread

theorem read_retNone (heof : eof.kind = .eof) {r : Token} (hr : r.kind = .returnKw)
    (hend : Ending True r ts rest stop) :
    Read eof (.stmt (.ret (.run r.pos stop) none)) (r :: ts) rest := by
  intro depth hdepth
  obtain ⟨d, rfl⟩ := Nat.exists_eq_add_of_le' (show 1 ≤ depth by omega)
  rw [statement, current_bind]
  simp only [List.headD_cons, hr]
  rw [peek_bind, List.tail_cons]
  cases hend with
  | @taken t rest ht =>
    refine ⟨t, rest, ?_, .inl rfl⟩
    rw [List.headD_cons, if_pos ht]
    rfl
  | @left t rest ht =>
    refine ⟨t, rest, ?_, .inr ⟨t, ht, rfl⟩⟩
    rw [List.headD_cons, if_pos ht]
    rfl
  | bare hnext hstrict =>
    refine ⟨r, ts, ?_, .inl rfl⟩
    cases ts with
    | nil =>
      rw [List.headD_nil, if_neg (by rw [heof]; decide), if_pos (.inr heof)]
      rfl
    | cons t ts =>
      rw [List.headD_cons, if_neg (hnext t rfl), if_pos (.inl (hstrict trivial t rfl))]
      rfl

theorem read_ret (heof : eof.kind = .eof) {r : Token} (hr : r.kind = .returnKw)
    (hvalue : Read eof (.expr 2 value last) ts us) (hend : Ending True last us rest stop)
    (hfirst : ∃ t vs, ts = t :: vs ∧ t.kind.starts = true) :
    Read eof (.stmt (.ret (.run r.pos stop) (some value))) (r :: ts) rest := by
  intro depth hdepth
  simp only [List.length_cons] at hdepth
  obtain ⟨d, rfl⟩ := Nat.exists_eq_add_of_le' (show 1 ≤ depth by omega)
  obtain ⟨last', us', rfl, hrest, hread⟩ := read_ending heof hend fun _ => current >>= fun stop =>
    Pure.pure (Stmt.ret (.run r.pos stop.pos) (some value))
  refine ⟨last', us', ?_, hrest⟩
  obtain ⟨t, vs, rfl, ht⟩ := hfirst
  have hsemicolon : t.kind ≠ .semicolon := Token.Kind.ne_of_starts ht rfl
  have hclose : ¬(t.kind = .rbrace ∨ t.kind = .eof) :=
    not_or.2 ⟨Token.Kind.ne_of_starts ht rfl, Token.Kind.ne_of_starts ht rfl⟩
  rw [statement, current_bind]
  simp only [List.headD_cons, hr]
  rw [peek_bind, List.tail_cons, List.headD_cons, if_neg hsemicolon, if_neg hclose,
    advance_bind, List.tail_cons, bind_some (hvalue.whole (ends_of_ending heof hend) (by omega))]
  exact hread

theorem read_expr (heof : eof.kind = .eof) (hvalue : Read eof (.expr 2 value last) (t :: ts) us)
    (hend : Ending True last us rest stop) (ht : t.kind.starts = true) :
    Read eof (.stmt (.expr (.run t.pos value.loc.span.stop) value)) (t :: ts) rest := by
  intro depth hdepth
  obtain ⟨d, rfl⟩ := Nat.exists_eq_add_of_le' (show 1 ≤ depth by omega)
  obtain ⟨last', us', -, hrest, hread⟩ := read_ending heof hend fun _ =>
    Pure.pure (Stmt.expr (.run t.pos value.loc.span.stop) value)
  refine ⟨last', us', ?_, hrest⟩
  have hlet : t.kind ≠ .letKw := Token.Kind.ne_of_starts ht rfl
  have hreturn : t.kind ≠ .returnKw := Token.Kind.ne_of_starts ht rfl
  rw [statement, current_bind]
  simp only [List.headD_cons]
  rw [bind_some (hvalue.whole (ends_of_ending heof hend) (by omega))]
  exact hread

theorem read_done : Read eof (.body []) rest rest := by
  intro inBlock acc depth hstop hdepth
  obtain ⟨d, rfl⟩ := Nat.exists_eq_add_of_le' (show 1 ≤ depth by omega)
  rw [statements, current_bind, if_pos hstop, List.append_nil]
  rfl

/-- A semicolon on its own is passed over. -/
theorem statements_semicolon (ht : t.kind = .semicolon) (inBlock : Bool) (acc : List Stmt)
    (d : Nat) :
    statements (d + 1) inBlock acc (stream eof (t :: ts)) =
      statements d inBlock acc (stream eof ts) := by
  have hgo : ¬(t.kind = .eof ∨ (inBlock = true ∧ t.kind = .rbrace)) := by
    rw [ht]
    simp
  rw [statements, current_bind, List.headD_cons, if_neg hgo, if_pos ht, advance_bind,
    List.tail_cons]

theorem read_semicolon {ss : List Stmt} (ht : t.kind = .semicolon)
    (hss : Read eof (.body ss) ts rest) : Read eof (.body ss) (t :: ts) rest := by
  intro inBlock acc depth hstop hdepth
  obtain ⟨d, rfl⟩ := Nat.exists_eq_add_of_le' (show 1 ≤ depth by omega)
  simp only [List.length_cons] at hdepth
  rw [statements_semicolon ht, hss inBlock acc d hstop (by omega)]

theorem read_statement {s : Stmt} {ss : List Stmt} (hs : Read eof (.stmt s) ts us)
    (hss : Read eof (.body ss) us rest)
    (hfirst : ∃ t vs, ts = t :: vs ∧ t.kind ≠ .semicolon ∧ t.kind ≠ .rbrace ∧ t.kind ≠ .eof)
    (hlength : us.length < ts.length) : Read eof (.body (s :: ss)) ts rest := by
  intro inBlock acc depth hstop hdepth
  obtain ⟨d, rfl⟩ := Nat.exists_eq_add_of_le' (show 1 ≤ depth by omega)
  obtain ⟨last, us', hread, hus⟩ := hs d (by omega)
  obtain ⟨t, vs, rfl, hsemicolon, hbrace, hend⟩ := hfirst
  have hgo : ¬(t.kind = .eof ∨ (inBlock = true ∧ t.kind = .rbrace)) := by simp [hbrace, hend]
  have hmore : statements d inBlock (s :: acc) (stream eof us') =
      (some ((s :: acc).reverse ++ ss), stream eof rest) := by
    obtain rfl | ⟨t', ht', rfl⟩ := hus
    · exact hss inBlock _ d hstop (by omega)
    · rw [← statements_semicolon ht']
      exact hss inBlock _ (d + 1) hstop (by omega)
  rw [statements, current_bind, List.headD_cons, if_neg hgo, if_neg hsemicolon,
    bind_some (attempt_eq hread), advance_bind, List.tail_cons, Option.toList_some,
    List.singleton_append, hmore, List.reverse_cons, List.append_assoc]
  rfl

end

/-- How a block starts. -/
theorem first_block {strict : Prop} {b : Block} {last : Token}
    (h : Derives strict (.block b last) ts rest) : ∃ t us, ts = t :: us ∧ t.kind = .lbrace := by
  cases h with
  | block hl => exact ⟨_, _, rfl, hl⟩

/-- What is derived is read. -/
theorem read_of_derives (heof : eof.kind = .eof) {p : Phrase} (h : Derives True p ts rest) :
    Read eof p ts rest := by
  induction h with
  | ident ht => exact read_ident ht
  | int ht hn => exact read_int ht hn
  | string ht => exact read_string ht
  | trueKw ht => exact read_bool (b := true) ht
  | falseKw ht => exact read_bool (b := false) ht
  | group hl he hr ih => exact read_group hl ih hr he.length_lt_of_cons
  | cond hi hl htest hr hyes ihtest ihyes =>
    exact read_cond hi hl ihtest hr ihyes (first_block hyes) htest.length_lt_of_cons
      (hyes.length_lt rfl)
  | condElse hi hl htest hr hyes hk hno ihtest ihyes ihno =>
    exact read_condElse hi hl ihtest hr ihyes (first_block hyes) hk ihno (first_block hno)
      htest.length_lt_of_cons hyes.length_lt_of_cons (hno.length_lt rfl)
  | function hf hl hids hr hb ih =>
    exact read_function hf hl hids hr ih (first_block hb) (hb.length_lt rfl)
  | array hl hes hr ih => exact read_array hl ih hr hes.length_lt_of_cons
  | hash hl hps hr ih => exact read_hash hl ih hr hps.length_lt_of_cons
  | call _ hl hargs hr ihleft ihargs =>
    exact read_call ihleft hl ihargs hr hargs.length_lt_of_cons
  | index _ hl hi hr ihleft ihi => exact read_index ihleft hl ihi hr hi.length_lt_of_cons
  | unary hop hright ih => exact read_unary hop ih (hright.length_lt rfl)
  | binary _ hop hright ihleft ihright =>
    exact read_binary ihleft hop ihright (hright.length_lt rfl)
  | lower _ ih => exact read_lower ih
  | noItems => exact read_noItems heof
  | someItems he hes ihe ihes =>
    exact read_someItems ihe ihes hes he.first (he.length_lt rfl)
  | noMoreItems => exact read_noMoreItems heof
  | moreItems hc he hes ihe ihes =>
    exact read_moreItems hc ihe ihes hes (he.length_lt rfl)
  | noPairs => exact read_noPairs heof
  | lastPair hkey hc hvalue ihkey ihvalue =>
    exact read_lastPair heof ihkey hc ihvalue hkey.first hkey.length_lt_of_cons
      (hvalue.length_lt rfl)
  | morePairs hkey hc hvalue hm _ ihkey ihvalue ihps =>
    exact read_morePairs ihkey hc ihvalue hm ihps hkey.first hkey.length_lt_of_cons
      hvalue.length_lt_of_cons
  | block _ _ hr ih => exact read_block ih hr
  | bind hl ht ha _ hend ih => exact read_bind heof hl ht ha ih hend
  | retNone hr hend => exact read_retNone heof hr hend
  | ret hr hvalue hend ih => exact read_ret heof hr ih hend hvalue.first
  | expr hvalue hend ih =>
    obtain ⟨t, us, hts, ht⟩ := hvalue.first
    obtain ⟨rfl, rfl⟩ := List.cons.inj hts
    exact read_expr heof ih hend ht
  | done => exact read_done
  | semicolon ht _ ih => exact read_semicolon ht ih
  | statement hs _ ihs ihss =>
    exact read_statement ihs ihss hs.first_stmt (hs.length_lt rfl)

end Parse

end StackScript
