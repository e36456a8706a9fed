import StackScript.Proofs.Tree.Induction
import StackScript.Proofs.Tree.Recovery
import StackScript.Proofs.Tree.Shape

/-!
# Reading what was rendered

The text of a flat program is a source of its own, and what is read from it has
the shape of the program. Every operator stands in parentheses with its operands
there, so no precedence is at work. A name or a number is never followed by a
letter or a digit, and a slash always by a blank, so the text falls into the
tokens it was put together from.

## Main definitions

* `Grammar.Rereads`: the tokens form an expression of the same shape.
* `Expr.Spelled`: the text of an expression is scanned to such tokens.

## Main results

* `Expr.spelled_of_flat`: flat expressions are spelled by their texts.
* `Program.parse_render`: the text of a flat program that was read is read as the same program.
-/

namespace StackScript

/-! ### Words and operators -/

namespace Token

variable {b : UInt8} {s t rest : Bytes} {D D' : List Token → Prop}

/-- The tokens are those of one text and then those of another. -/
def InTurn (D D' : List Token → Prop) (ts : List Token) : Prop :=
  ∃ us vs, ts = us ++ vs ∧ D us ∧ D' vs

theorem Spells.inTurn (h : Spells s (t ++ rest) D) (h' : Spells t rest D') :
    Spells (s ++ t) rest (InTurn D D') :=
  h.append h' fun us vs hus hvs => ⟨us, vs, rfl, hus, hvs⟩

/-- A blank before a text changes nothing. -/
theorem Spells.blank (h : Spells s rest D) : Spells ([32] ++ s) rest D := by
  refine spells_blank.append h ?_
  rintro _ us rfl hus
  exact hus

theorem stops_nil : Stops [] := by
  intro b hb
  cases hb

theorem stops_cons (hb : (isLetter b || isDigit b) = false) : Stops (b :: rest) := by
  rintro _ ⟨⟩
  exact hb

/-- What a letter is not. -/
theorem isLetter_excludes (hb : isLetter b = true) : Opens b ∧ b ≠ 61 ∧ b ≠ 33 ∧ b ≠ 34 := by
  simp only [isLetter, Bool.or_eq_true, Bool.and_eq_true, decide_eq_true_eq, beq_iff_eq] at hb
  simp only [Opens, isBlank]
  refine ⟨⟨?_, ?_, ?_⟩, ?_, ?_, ?_⟩ <;> grind

/-- A word is one token. -/
theorem spells_word (hb : isLetter b = true) (hs : ∀ x ∈ s, (isLetter x || isDigit x) = true)
    (hrest : Stops rest) : Spells (b :: s) rest (IsOne (.ofWord (b :: s)) (b :: s)) := by
  obtain ⟨hopens, hassign, hbang, hquote⟩ := isLetter_excludes hb
  refine spells_run Kind.ofWord hopens ?_ hs hrest
  intro pos after
  simp [next, hassign, hbang, hquote, hb]

theorem IsName.spells (h : IsName s) (hrest : Stops rest) : Spells s rest (IsOne .ident s) := by
  obtain ⟨⟨b, s', rfl, hb, hs⟩, hfree⟩ := h
  rw [← hfree]
  exact spells_word hb hs hrest

/-- What the bytes that are tokens by themselves are not. -/
theorem Kind.ofByte?_excludes (h : (Kind.ofByte? b).isSome = true) :
    isBlank b = false ∧ b ≠ 0 ∧ b ≠ 61 ∧ b ≠ 33 ∧ b ≠ 34 ∧ isLetter b = false ∧
      isDigit b = false := by
  have hall : ∀ n < 256, (Kind.ofByte? (.ofNat n)).isSome = true →
      isBlank (.ofNat n) = false ∧ UInt8.ofNat n ≠ 0 ∧ UInt8.ofNat n ≠ 61 ∧ UInt8.ofNat n ≠ 33 ∧
        UInt8.ofNat n ≠ 34 ∧ isLetter (.ofNat n) = false ∧ isDigit (.ofNat n) = false := by
    decide +kernel
  have hbyte := hall b.toNat b.toNat_lt
  rw [UInt8.ofNat_toNat] at hbyte
  exact hbyte h

/-- Such a byte is a token whatever follows it, unless it is a slash. -/
theorem spells_mark (b : UInt8) {kind : Kind} (hkind : Kind.ofByte? b = some kind)
    (hslash : b ≠ 47) : Spells [b] rest (IsOne kind [b]) := by
  obtain ⟨hblank, hzero, hassign, hbang, hquote, hletter, hdigit⟩ :=
    Kind.ofByte?_excludes (b := b) (by rw [hkind]; rfl)
  refine spells_symbol ⟨hblank, hslash, hzero⟩ fun pos => ?_
  simp [next, hassign, hbang, hquote, hletter, hdigit, hkind]

/-- Operators that are written with an equals sign after another byte. -/
theorem spells_paired {kind : Kind} (hb : Opens b)
    (hnext : ∀ pos, ∃ pos', next pos b (61 :: rest) = (⟨kind, [b, 61], pos⟩, ⟨pos', rest⟩)) :
    Spells [b, 61] rest (IsOne kind [b, 61]) := by
  intro pos
  obtain ⟨pos', hread⟩ := hnext pos
  have hscans := scans_next pos (61 :: rest) hb
  rw [hread] at hscans
  exact ⟨_, pos', hscans, _, rfl, rfl, rfl⟩

/-- A slash before a blank starts no comment. -/
theorem spells_slash : Spells [47] ([32] ++ rest) (IsOne .slash [47]) := by
  intro pos
  have hskip : skip false pos (47 :: 32 :: rest) = ⟨pos, 47 :: 32 :: rest⟩ := rfl
  exact ⟨_, _, scans_of_skip hskip (by decide), _, rfl, rfl, rfl⟩

/-- An exclamation mark is an operator of its own unless an equals sign follows. -/
theorem spells_bang (hrest : rest.head? ≠ some 61) : Spells [33] rest (IsOne .bang [33]) := by
  refine spells_symbol (by decide) fun pos => ?_
  rw [next]
  simp [hrest]

/-- The operators with one operand are spelled where no equals sign follows. -/
theorem exists_sign {op : UnaryOp} (h : op ∈ UnaryOp.known) :
    ∃ kind, Grammar.Sign kind op ∧
      ∀ rest : Bytes, rest.head? ≠ some 61 → Spells op.text rest (IsOne kind op.text) := by
  rw [UnaryOp.known, List.mem_cons, List.mem_singleton] at h
  rcases h with rfl | rfl
  · have htext : UnaryOp.not.text = [33] := by with_unfolding_all rfl
    rw [htext]
    exact ⟨.bang, .not, fun rest hrest => spells_bang hrest⟩
  · have htext : UnaryOp.neg.text = [45] := by with_unfolding_all rfl
    rw [htext]
    exact ⟨.minus, .neg, fun rest _ => spells_mark 45 rfl (by decide)⟩

/-- The operators with two operands are spelled where a blank follows. -/
theorem exists_operator {op : BinaryOp} (h : op ∈ BinaryOp.known) :
    ∃ n kind, Grammar.Operator n kind op ∧
      ∀ rest : Bytes, Spells op.text ([32] ++ rest) (IsOne kind op.text) := by
  have hsingle {op : BinaryOp} {kind : Kind} (b : UInt8) (htext : op.text = [b])
      (hkind : Kind.ofByte? b = some kind) (hslash : b ≠ 47) (rest : Bytes) :
      Spells op.text rest (IsOne kind op.text) := by
    rw [htext]
    exact spells_mark b hkind hslash
  cases op with
  | add =>
    exact ⟨4, .plus, .add, fun _ => hsingle 43 (by with_unfolding_all rfl) rfl (by decide) _⟩
  | sub =>
    exact ⟨4, .minus, .sub, fun _ => hsingle 45 (by with_unfolding_all rfl) rfl (by decide) _⟩
  | mul =>
    exact ⟨5, .star, .mul, fun _ => hsingle 42 (by with_unfolding_all rfl) rfl (by decide) _⟩
  | less =>
    exact ⟨3, .less, .less, fun _ => hsingle 60 (by with_unfolding_all rfl) rfl (by decide) _⟩
  | greater =>
    exact ⟨3, .greater, .greater, fun _ => hsingle 62 (by with_unfolding_all rfl) rfl (by decide) _⟩
  -- Only here the blank is needed: two slashes would start a comment.
  | div =>
    have htext : BinaryOp.div.text = [47] := by with_unfolding_all rfl
    rw [htext]
    exact ⟨5, .slash, .div, fun _ => spells_slash⟩
  | equal =>
    have htext : BinaryOp.equal.text = [61, 61] := by with_unfolding_all rfl
    rw [htext]
    exact ⟨2, .equal, .equal, fun _ => spells_paired (by decide) fun _ => ⟨_, rfl⟩⟩
  | notEqual =>
    have htext : BinaryOp.notEqual.text = [33, 61] := by with_unfolding_all rfl
    rw [htext]
    exact ⟨2, .notEqual, .notEqual, fun _ => spells_paired (by decide) fun _ => ⟨_, rfl⟩⟩
  | other text => simp [BinaryOp.known] at h

end Token

/-! ### Phrases of the same shape -/

namespace Grammar

open Token (InTurn IsOne)

variable {loc : Loc} {e : Expr} {es : List Expr} {ps : List (Expr × Expr)} {ts us : List Token}

/-- The tokens form an expression of the same shape. -/
def Rereads (e : Expr) (ts : List Token) : Prop :=
  ∃ e' last, e'.shape = e.shape ∧ ∀ rest, Derives True (.expr 7 e' last) (ts ++ rest) rest

/-- The tokens form a list of expressions, a phrase of the given form, of the same shapes. -/
def RereadsItems (form : List Expr → Phrase) (es : List Expr) (ts : List Token) : Prop :=
  ∃ es', shapeItems es' = shapeItems es ∧ ∀ rest, Derives True (form es') (ts ++ rest) rest

/-- The tokens form pairs between commas of the same shapes. -/
def RereadsPairs (ps : List (Expr × Expr)) (ts : List Token) : Prop :=
  ∃ ps', shapePairs ps' = shapePairs ps ∧ ∀ rest, Derives True (.pairs ps') (ts ++ rest) rest

/-- The tokens form a key and a value with a colon between them. -/
def RereadsPair (p : Expr × Expr) : List Token → Prop :=
  InTurn (Rereads p.1) (InTurn (IsOne .colon [58]) (Rereads p.2))

theorem rereads_ident {id : Ident} (h : IsOne .ident id.name ts) : Rereads (.ident id) ts := by
  obtain ⟨t, rfl, hkind, htext⟩ := h
  exact ⟨.ident (ident t), t, congrArg (fun name => Expr.ident ⟨.none, name⟩) htext,
    fun rest => (Derives.ident hkind).lower⟩

theorem rereads_int {literal : Bytes} {value : Int64} (h : IsOne .int literal ts)
    (hvalue : value.toInt = literal.decimal) (hrange : literal.decimal < 2 ^ 63) :
    Rereads (.int loc literal value) ts := by
  obtain ⟨t, rfl, hkind, rfl⟩ := h
  have hofNat : Int64.ofNat t.literal.decimal = value := by
    rw [← Int64.toInt_inj, hvalue]
    exact Int64.toInt_ofNat_of_lt hrange
  exact ⟨.int (.token t.pos) t.literal (.ofNat t.literal.decimal), t,
    congrArg (Expr.int .none t.literal) hofNat, fun rest => (Derives.int hkind hrange).lower⟩

theorem rereads_bool {value : Bool} {s : Bytes}
    (h : IsOne (if value then .trueKw else .falseKw) s ts) : Rereads (.bool loc value) ts := by
  obtain ⟨t, rfl, hkind, -⟩ := h
  cases value with
  | true => exact ⟨.bool (.token t.pos) true, t, rfl, fun rest => (Derives.trueKw hkind).lower⟩
  | false => exact ⟨.bool (.token t.pos) false, t, rfl, fun rest => (Derives.falseKw hkind).lower⟩

theorem rereads_unary {kind : Token.Kind} {op : UnaryOp} {right : Expr} (hop : Sign kind op)
    (h : InTurn (IsOne .lparen [40]) (InTurn (IsOne kind op.text)
      (InTurn (Rereads right) (IsOne .rparen [41]))) ts) : Rereads (.unary loc op right) ts := by
  obtain ⟨_, _, rfl, ⟨l, rfl, hl, -⟩, _, _, rfl, ⟨o, rfl, rfl, -⟩, us, _, rfl,
    ⟨e, last, hshape, hderives⟩, r, rfl, hr, -⟩ := h
  refine ⟨.unary (.run o.pos e.loc.span.stop) op e, r, ?_, fun rest => ?_⟩
  · exact congrArg (Expr.unary .none op) hshape
  · have hunary := Derives.unary hop (hderives (r :: rest)).lower
    have hgroup := Derives.group hl (hunary.lower_le (by decide)) hr
    simpa using hgroup.lower

theorem rereads_binary {n : Nat} {kind : Token.Kind} {op : BinaryOp} {left right : Expr}
    (hop : Operator n kind op)
    (h : InTurn (IsOne .lparen [40]) (InTurn (Rereads left) (InTurn (IsOne kind op.text)
      (InTurn (Rereads right) (IsOne .rparen [41])))) ts) :
    Rereads (.binary loc op left right) ts := by
  obtain ⟨_, _, rfl, ⟨l, rfl, hl, -⟩, us, _, rfl, ⟨e, last, hshape, hderives⟩, _, _, rfl,
    ⟨o, rfl, rfl, -⟩, vs, _, rfl, ⟨e', last', hshape', hderives'⟩, r, rfl, hr, -⟩ := h
  obtain ⟨htwo, hfive⟩ := hop.level
  refine ⟨.binary ⟨o.pos, ⟨e.loc.span.start, e'.loc.span.stop⟩⟩ op e e', r, ?_, fun rest => ?_⟩
  · exact congrArg₂ (Expr.binary .none op) hshape hshape'
  · have hbinary := Derives.binary ((hderives (o :: (vs ++ r :: rest))).lower_le (by omega)) hop
      ((hderives' (r :: rest)).lower_le (by omega))
    have hgroup := Derives.group hl (hbinary.lower_le htwo) hr
    simpa using hgroup.lower

theorem rereads_index {left index : Expr}
    (h : InTurn (IsOne .lparen [40]) (InTurn (Rereads left) (InTurn (IsOne .lbracket [91])
      (InTurn (Rereads index) (InTurn (IsOne .rbracket [93]) (IsOne .rparen [41]))))) ts) :
    Rereads (.index loc left index) ts := by
  obtain ⟨_, _, rfl, ⟨l, rfl, hl, -⟩, us, _, rfl, ⟨e, last, hshape, hderives⟩, _, _, rfl,
    ⟨b, rfl, hb, -⟩, vs, _, rfl, ⟨e', last', hshape', hderives'⟩, _, _, rfl, ⟨c, rfl, hc, -⟩,
    r, rfl, hr, -⟩ := h
  refine ⟨.index ⟨b.pos, ⟨e.loc.span.start, c.pos⟩⟩ e e', r, ?_, fun rest => ?_⟩
  · exact congrArg₂ (Expr.index .none) hshape hshape'
  · have hindex := Derives.index (hderives (b :: (vs ++ c :: r :: rest))) hb
      ((hderives' (c :: r :: rest)).lower_le (by decide)) hc
    have hgroup := Derives.group hl (hindex.lower_le (by decide)) hr
    simpa using hgroup.lower

theorem rereads_call {callee : Expr} {args : List Expr}
    (h : InTurn (Rereads callee) (InTurn (IsOne .lparen [40])
      (InTurn (RereadsItems .items args) (IsOne .rparen [41]))) ts) :
    Rereads (.call loc callee args) ts := by
  obtain ⟨us, _, rfl, ⟨e, last, hshape, hderives⟩, _, _, rfl, ⟨l, rfl, hl, -⟩, vs, _, rfl,
    ⟨es, hshapes, hitems⟩, r, rfl, hr, -⟩ := h
  refine ⟨.call ⟨l.pos, ⟨e.loc.span.start, r.pos⟩⟩ e es, r, ?_, fun rest => ?_⟩
  · exact congrArg₂ (Expr.call .none) hshape hshapes
  · have hcall := Derives.call (hderives (l :: (vs ++ r :: rest))) hl (hitems (r :: rest)) hr
    simpa using hcall

theorem rereads_array (h : InTurn (IsOne .lbracket [91])
    (InTurn (RereadsItems .items es) (IsOne .rbracket [93])) ts) : Rereads (.array loc es) ts := by
  obtain ⟨_, _, rfl, ⟨l, rfl, hl, -⟩, us, _, rfl, ⟨es', hshapes, hitems⟩, r, rfl, hr, -⟩ := h
  refine ⟨.array (.run l.pos r.pos) es', r, ?_, fun rest => ?_⟩
  · exact congrArg (Expr.array .none) hshapes
  · simpa using (Derives.array hl (hitems (r :: rest)) hr).lower

theorem rereads_hash (h : InTurn (IsOne .lbrace [123])
    (InTurn (RereadsPairs ps) (IsOne .rbrace [125])) ts) : Rereads (.hash loc ps) ts := by
  obtain ⟨_, _, rfl, ⟨l, rfl, hl, -⟩, us, _, rfl, ⟨ps', hshapes, hpairs⟩, r, rfl, hr, -⟩ := h
  refine ⟨.hash (.run l.pos r.pos) ps', r, ?_, fun rest => ?_⟩
  · exact congrArg (Expr.hash .none) hshapes
  · simpa using (Derives.hash hl (hpairs (r :: rest)) hr).lower

/-- Expressions between commas. -/
theorem listing_items : Token.Listing Rereads (RereadsItems .items) (RereadsItems .moreItems) where
  nil := ⟨[], rfl, fun _ => .noItems⟩
  cons := by
    rintro e es ts us ⟨e', last, hshape, hderives⟩ ⟨es', hshapes, hmore⟩
    refine ⟨e' :: es', congrArg₂ List.cons hshape hshapes, fun rest => ?_⟩
    rw [List.append_assoc]
    exact .someItems ((hderives _).lower_le (by decide)) (hmore rest)
  noMore := ⟨[], rfl, fun _ => .noMoreItems⟩
  more := by
    rintro e es cs ts us ⟨c, rfl, hc, -⟩ ⟨e', last, hshape, hderives⟩ ⟨es', hshapes, hmore⟩
    refine ⟨e' :: es', congrArg₂ List.cons hshape hshapes, fun rest => ?_⟩
    rw [List.append_assoc, List.append_assoc]
    exact .moreItems hc ((hderives _).lower_le (by decide)) (hmore rest)

theorem rereadsPairs_singleton {p : Expr × Expr} (h : RereadsPair p ts) : RereadsPairs [p] ts := by
  obtain ⟨ks, _, rfl, ⟨key, last, hkey, hks⟩, _, vs, rfl, ⟨c, rfl, hc, -⟩, value, last', hvalue,
    hvs⟩ := h
  refine ⟨[(key, value)], by rw [shapePairs_cons, shapePairs_cons, hkey, hvalue], fun rest => ?_⟩
  have hpair := Derives.lastPair ((hks (c :: (vs ++ rest))).lower_le (by decide)) hc
    ((hvs rest).lower_le (by decide))
  simpa using hpair

theorem rereadsPairs_cons {p : Expr × Expr} {ms : List Token} (h : RereadsPair p ts)
    (hm : IsOne .comma [44] ms) (h' : RereadsPairs ps us) :
    RereadsPairs (p :: ps) (ts ++ ms ++ us) := by
  obtain ⟨m, rfl, hm, -⟩ := hm
  obtain ⟨ks, _, rfl, ⟨key, last, hkey, hks⟩, _, vs, rfl, ⟨c, rfl, hc, -⟩, value, last', hvalue,
    hvs⟩ := h
  obtain ⟨ps', hshapes, hpairs⟩ := h'
  refine ⟨(key, value) :: ps', ?_, fun rest => ?_⟩
  · rw [shapePairs_cons, shapePairs_cons, hkey, hvalue, hshapes]
  have hpair := Derives.morePairs ((hks (c :: (vs ++ m :: (us ++ rest)))).lower_le (by decide)) hc
    ((hvs (m :: (us ++ rest))).lower_le (by decide)) hm (hpairs rest)
  simpa using hpair

end Grammar

/-! ### The texts of expressions -/

theorem Bytes.ofString_lparen : Bytes.ofString "(" = [40] := by with_unfolding_all rfl

theorem Bytes.ofString_rparen : Bytes.ofString ")" = [41] := by with_unfolding_all rfl

theorem Bytes.ofString_semicolon : Bytes.ofString ";" = [59] := by with_unfolding_all rfl

theorem renderItems_eq (items : List Expr) : renderItems items = items.map Expr.render := by
  induction items with
  | nil => rfl
  | cons e rest ih => exact congrArg (e.render :: ·) ih

/-- The text of a pair of a hash literal. -/
def pairText (p : Expr × Expr) : Bytes := p.1.render ++ ([58] ++ p.2.render)

theorem renderPairs_eq (pairs : List (Expr × Expr)) : renderPairs pairs = pairs.map pairText := by
  have hcolon : Bytes.ofString ":" = [58] := by with_unfolding_all rfl
  induction pairs with
  | nil => rfl
  | cons p rest ih =>
    have hpair : p.1.render ++ Bytes.ofString ":" ++ p.2.render = pairText p := by
      rw [hcolon, pairText, List.append_assoc]
    exact congrArg₂ List.cons hpair ih

namespace Expr

open Token Grammar

variable {e : Expr} {own rest : Bytes}

/-- The expression is spelled by its text wherever no word goes on after it, and the text does not
start with an equals sign. -/
structure Spelled (e : Expr) : Prop where
  spells : ∀ rest, Stops rest → Spells e.render rest (Rereads e)
  head : ∀ rest, (e.render ++ rest).head? ≠ some 61

theorem render_unary (loc : Loc) (op : UnaryOp) (right : Expr) :
    (Expr.unary loc op right).render = [40] ++ (op.text ++ (right.render ++ [41])) := by
  change Bytes.ofString "(" ++ op.text ++ right.render ++ Bytes.ofString ")" = _
  rw [Bytes.ofString_lparen, Bytes.ofString_rparen]
  simp only [List.append_assoc]

theorem render_binary (loc : Loc) (op : BinaryOp) (left right : Expr) :
    (Expr.binary loc op left right).render =
      [40] ++ (left.render ++ ([32] ++ (op.text ++ ([32] ++ (right.render ++ [41]))))) := by
  have hblank : Bytes.ofString " " = [32] := by with_unfolding_all rfl
  change Bytes.ofString "(" ++ left.render ++ Bytes.ofString " " ++ op.text ++ Bytes.ofString " " ++
    right.render ++ Bytes.ofString ")" = _
  rw [Bytes.ofString_lparen, hblank, Bytes.ofString_rparen]
  simp only [List.append_assoc]

theorem render_index (loc : Loc) (left index : Expr) :
    (Expr.index loc left index).render =
      [40] ++ (left.render ++ ([91] ++ (index.render ++ ([93] ++ [41])))) := by
  have hclose : Bytes.ofString "])" = [93] ++ [41] := by with_unfolding_all rfl
  change Bytes.ofString "(" ++ left.render ++ Bytes.ofString "[" ++ index.render ++
    Bytes.ofString "])" = _
  rw [Bytes.ofString_lparen, Bytes.ofString_lbracket, hclose]
  simp only [List.append_assoc]

theorem render_call (loc : Loc) (callee : Expr) (args : List Expr) :
    (Expr.call loc callee args).render =
      callee.render ++ ([40] ++ (Bytes.join [44, 32] (args.map render) ++ [41])) := by
  change callee.render ++ Bytes.ofString "(" ++
    Bytes.join (Bytes.ofString ", ") (renderItems args) ++ Bytes.ofString ")" = _
  rw [renderItems_eq, Bytes.ofString_lparen, Bytes.ofString_comma, Bytes.ofString_rparen]
  simp only [List.append_assoc]

theorem render_array (loc : Loc) (items : List Expr) :
    (Expr.array loc items).render = [91] ++ (Bytes.join [44, 32] (items.map render) ++ [93]) := by
  change Bytes.ofString "[" ++ Bytes.join (Bytes.ofString ", ") (renderItems items) ++
    Bytes.ofString "]" = _
  rw [renderItems_eq, Bytes.ofString_lbracket, Bytes.ofString_comma, Bytes.ofString_rbracket,
    List.append_assoc]

theorem render_hash (loc : Loc) (pairs : List (Expr × Expr)) :
    (Expr.hash loc pairs).render =
      [123] ++ (Bytes.join [44, 32] (pairs.map pairText) ++ [125]) := by
  change Bytes.ofString "\x7b" ++ Bytes.join (Bytes.ofString ", ") (renderPairs pairs) ++
    Bytes.ofString "\x7d" = _
  rw [renderPairs_eq, Bytes.ofString_lbrace, Bytes.ofString_comma, Bytes.ofString_rbrace,
    List.append_assoc]

/-- A text that starts with this byte does not start with an equals sign. -/
theorem head_ne {b : UInt8} {s : Bytes} (hb : b ≠ 61) (rest : Bytes) :
    (b :: s ++ rest).head? ≠ some 61 := by
  simpa using hb

theorem spells_items {es : List Expr} (h : ∀ e ∈ es, e.Spelled) (rest : Bytes)
    (hrest : Stops rest) :
    Spells (Bytes.join [44, 32] (es.map render)) rest (RereadsItems .items es) :=
  listing_items.spells (fun e he => (h e he).spells) hrest

theorem spells_pair {p : Expr × Expr} (hkey : p.1.Spelled) (hvalue : p.2.Spelled)
    (hrest : Stops rest) : Spells (pairText p) rest (RereadsPair p) :=
  (hkey.spells _ (stops_cons rfl)).inTurn
    ((spells_mark 58 rfl (by decide)).inTurn (hvalue.spells rest hrest))

theorem spells_pairs {ps : List (Expr × Expr)} (hkeys : ∀ p ∈ ps, p.1.Spelled)
    (hvalues : ∀ p ∈ ps, p.2.Spelled) (rest : Bytes) (hrest : Stops rest) :
    Spells (Bytes.join [44, 32] (ps.map pairText)) rest (RereadsPairs ps) := by
  refine (Listing.of_tail ⟨[], rfl, fun _ => .noPairs⟩ rereadsPairs_singleton
    rereadsPairs_cons).spells ?_ hrest
  exact fun p hp rest hrest => spells_pair (hkeys p hp) (hvalues p hp) hrest

namespace Spelled

/-- A name is spelled by itself. -/
theorem ident {id : Ident} (h : IsName id.name) : (Expr.ident id).Spelled where
  spells := fun rest hrest => (h.spells hrest).mono fun _ => rereads_ident
  head := by
    obtain ⟨b, s, hword, hb, -⟩ := h.letters
    change ∀ rest, (id.name ++ rest).head? ≠ some 61
    rw [hword]
    exact head_ne (isLetter_excludes hb).2.1

/-- A number is spelled by its digits. -/
theorem int {literal : Bytes} {value : Int64} (loc : Loc) (h : IsNumber literal)
    (hvalue : value.toInt = literal.decimal) (hrange : literal.decimal < 2 ^ 63) :
    (Expr.int loc literal value).Spelled where
  spells := fun rest hrest =>
    (spells_digits h.1 h.2 hrest).mono fun _ hone => rereads_int hone hvalue hrange
  head := by
    obtain ⟨b, s, rfl⟩ := List.exists_cons_of_ne_nil h.1
    exact head_ne (isDigit_excludes (List.forall_mem_cons.1 h.2).1).2.2.1

theorem bool (loc : Loc) (value : Bool) : (Expr.bool loc value).Spelled where
  spells := fun rest hrest => (spells_ofBool value hrest).mono fun _ => rereads_bool
  head := by
    have htrue : Bytes.ofBool true = [116, 114, 117, 101] := by with_unfolding_all rfl
    have hfalse : Bytes.ofBool false = [102, 97, 108, 115, 101] := by with_unfolding_all rfl
    change ∀ rest, (Bytes.ofBool value ++ rest).head? ≠ some 61
    cases value with
    | true => rw [htrue]; exact head_ne (by decide)
    | false => rw [hfalse]; exact head_ne (by decide)

theorem unary (loc : Loc) {op : UnaryOp} {right : Expr} (hop : op ∈ UnaryOp.known)
    (hright : right.Spelled) : (Expr.unary loc op right).Spelled := by
  obtain ⟨kind, hsign, hspells⟩ := exists_sign hop
  refine ⟨fun rest hrest => ?_, ?_⟩
  · rw [render_unary]
    have hoperand := (hright.spells ([41] ++ rest) (stops_cons rfl)).inTurn
      (spells_mark 41 rfl (by decide))
    have hoperator := hspells (right.render ++ [41] ++ rest)
      (by rw [List.append_assoc]; exact hright.head _)
    exact ((spells_mark 40 rfl (by decide)).inTurn (hoperator.inTurn hoperand)).mono
      fun _ => rereads_unary hsign
  · rw [render_unary]
    exact head_ne (by decide)

theorem binary (loc : Loc) {op : BinaryOp} {left right : Expr} (hop : op ∈ BinaryOp.known)
    (hleft : left.Spelled) (hright : right.Spelled) :
    (Expr.binary loc op left right).Spelled := by
  obtain ⟨n, kind, hoperator, hspells⟩ := exists_operator hop
  refine ⟨fun rest hrest => ?_, ?_⟩
  · rw [render_binary]
    have hsecond := (hright.spells ([41] ++ rest) (stops_cons rfl)).inTurn
      (spells_mark 41 rfl (by decide))
    have hsymbol : Spells op.text ([32] ++ (right.render ++ [41]) ++ rest) (IsOne kind op.text) :=
      hspells (right.render ++ [41] ++ rest)
    have hmiddle := hsymbol.inTurn hsecond.blank
    have hfirst := (hleft.spells _ (stops_cons rfl)).inTurn hmiddle.blank
    exact ((spells_mark 40 rfl (by decide)).inTurn hfirst).mono
      fun _ => rereads_binary hoperator
  · rw [render_binary]
    exact head_ne (by decide)

theorem index (loc : Loc) {left index : Expr} (hleft : left.Spelled) (hindex : index.Spelled) :
    (Expr.index loc left index).Spelled := by
  refine ⟨fun rest hrest => ?_, ?_⟩
  · rw [render_index]
    have hclose : Spells ([93] ++ [41]) rest (InTurn (IsOne .rbracket [93]) (IsOne .rparen [41])) :=
      (spells_mark 93 rfl (by decide)).inTurn (spells_mark 41 rfl (by decide))
    have hinner := (hindex.spells _ (stops_cons rfl)).inTurn hclose
    have hbracket := (spells_mark 91 rfl (by decide)).inTurn hinner
    have hfirst := (hleft.spells _ (stops_cons rfl)).inTurn hbracket
    exact ((spells_mark 40 rfl (by decide)).inTurn hfirst).mono fun _ => rereads_index
  · rw [render_index]
    exact head_ne (by decide)

theorem call (loc : Loc) {callee : Expr} {args : List Expr} (hcallee : callee.Spelled)
    (hargs : ∀ e ∈ args, e.Spelled) : (Expr.call loc callee args).Spelled := by
  refine ⟨fun rest hrest => ?_, fun rest => ?_⟩
  · rw [render_call]
    have hlist := (spells_items hargs ([41] ++ rest) (stops_cons rfl)).inTurn
      (spells_mark 41 rfl (by decide))
    have hopen := (spells_mark 40 rfl (by decide)).inTurn hlist
    exact ((hcallee.spells _ (stops_cons rfl)).inTurn hopen).mono fun _ => rereads_call
  · rw [render_call, List.append_assoc]
    exact hcallee.head _

theorem array (loc : Loc) {items : List Expr} (hitems : ∀ e ∈ items, e.Spelled) :
    (Expr.array loc items).Spelled := by
  refine ⟨fun rest hrest => ?_, ?_⟩
  · rw [render_array]
    have hlist := (spells_items hitems ([93] ++ rest) (stops_cons rfl)).inTurn
      (spells_mark 93 rfl (by decide))
    exact ((spells_mark 91 rfl (by decide)).inTurn hlist).mono fun _ => rereads_array
  · rw [render_array]
    exact head_ne (by decide)

theorem hash (loc : Loc) {pairs : List (Expr × Expr)} (hkeys : ∀ p ∈ pairs, p.1.Spelled)
    (hvalues : ∀ p ∈ pairs, p.2.Spelled) : (Expr.hash loc pairs).Spelled := by
  refine ⟨fun rest hrest => ?_, ?_⟩
  · rw [render_hash]
    have hlist := (spells_pairs hkeys hvalues ([125] ++ rest) (stops_cons rfl)).inTurn
      (spells_mark 125 rfl (by decide))
    exact ((spells_mark 123 rfl (by decide)).inTurn hlist).mono fun _ => rereads_hash
  · rw [render_hash]
    exact head_ne (by decide)

end Spelled

/-- Flat expressions are spelled by their texts, by induction on trees. -/
theorem spelled_steps :
    TreeSteps (fun e => e.flat = true → ∀ own, e.Formed own → e.Spelled) fun _ => True where
  ident := by
    rintro id - own (hname | _)
    exact .ident hname
  int := by
    rintro loc literal value - own (_ | ⟨hnumber, hvalue, hrange⟩)
    exact .int loc hnumber hvalue hrange
  bool := fun loc value _ _ _ => .bool loc value
  unary := by
    intro loc op right ih hflat own hformed
    cases hformed with
    | unary hop hright => exact .unary loc hop (ih hflat _ hright)
  binary := by
    intro loc op left right ih ih' hflat own hformed
    obtain ⟨hflat, hflat'⟩ := Bool.and_eq_true_iff.1 hflat
    cases hformed with
    | binary hop hleft hright => exact .binary loc hop (ih hflat _ hleft) (ih' hflat' _ hright)
  call := by
    intro loc callee args ih ih' hflat own hformed
    obtain ⟨hflat, hitems⟩ := Bool.and_eq_true_iff.1 hflat
    cases hformed with
    | call hcallee hargs =>
      exact .call loc (ih hflat _ hcallee) fun e he =>
        ih' e he (flatItems_iff.1 hitems e he) _ (hargs e he)
  array := by
    intro loc items ih hflat own hformed
    cases hformed with
    | array hitems =>
      exact .array loc fun e he => ih e he (flatItems_iff.1 hflat e he) _ (hitems e he)
  hash := by
    intro loc pairs ih hflat own hformed
    cases hformed with
    | hash hkeys hvalues =>
      have hflat := flatPairs_iff.1 hflat
      exact .hash loc (fun p hp => (ih p hp).1 (hflat p hp).1 _ (hkeys p hp)) fun p hp =>
        (ih p hp).2 (hflat p hp).2 _ (hvalues p hp)
  index := by
    intro loc left index ih ih' hflat own hformed
    obtain ⟨hflat, hflat'⟩ := Bool.and_eq_true_iff.1 hflat
    cases hformed with
    | index hleft hindex => exact .index loc (ih hflat _ hleft) (ih' hflat' _ hindex)
  string := fun _ _ hflat => absurd hflat Bool.false_ne_true
  cond := fun _ _ _ _ _ _ _ hflat => absurd hflat Bool.false_ne_true
  function := fun _ _ _ _ _ hflat => absurd hflat Bool.false_ne_true
  missing := fun hflat => absurd hflat Bool.false_ne_true
  bind := fun _ _ _ _ => trivial
  retNone := fun _ => trivial
  ret := fun _ _ _ => trivial
  expr := fun _ _ _ => trivial
  block := fun _ _ => trivial
  missingStmt := trivial

/-- Flat expressions are spelled by their texts. -/
theorem spelled_of_flat (h : e.flat = true) (hformed : e.Formed own) : e.Spelled :=
  spelled_steps.expr_all e h own hformed

end Expr

/-! ### The texts of statements -/

namespace Grammar

open Token (InTurn IsOne)

variable {body : List Stmt} {ts : List Token}

/-- The tokens form a program of statements of the same shapes. -/
def RereadsBody (body : List Stmt) (ts : List Token) : Prop :=
  ∃ body', shapeBody body' = shapeBody body ∧ Derives True (.body body') ts []

theorem rereadsBody_expr {loc : Loc} {value : Expr} (h : Rereads value ts) :
    RereadsBody [.expr loc value] ts := by
  obtain ⟨e, last, hshape, hderives⟩ := h
  have hexpr := hderives []
  rw [List.append_nil] at hexpr
  obtain ⟨t, us, rfl, -⟩ := hexpr.first
  refine ⟨[.expr (.run t.pos e.loc.span.stop) e], ?_, ?_⟩
  · exact congrArg (fun value => [Stmt.expr .none value]) hshape
  · exact .statement (.expr (hexpr.lower_le (by decide)) (.bare (by simp) (by simp))) .done

theorem rereadsBody_bind {loc : Loc} {id : Ident} {value : Expr} (hflat : value.flat = true)
    (h : InTurn (IsOne .letKw [108, 101, 116]) (InTurn (IsOne .ident id.name)
      (InTurn (IsOne .assign [61]) (InTurn (Rereads value) (InTurn (IsOne .semicolon [59])
        (RereadsBody body))))) ts) : RereadsBody (.bind loc id value :: body) ts := by
  obtain ⟨_, _, rfl, ⟨l, rfl, hl, -⟩, _, _, rfl, ⟨n, rfl, hn, hname⟩, _, _, rfl, ⟨a, rfl, ha, -⟩,
    us, _, rfl, ⟨e, last, hshape, hderives⟩, _, vs, rfl, ⟨c, rfl, hc, -⟩, body', hbody, hrest⟩ := h
  have hbind := Derives.bind hl hn ha ((hderives (c :: vs)).lower_le (by decide)) (.taken hc)
  rw [Expr.named_eq_of_flat hflat hshape] at hbind
  have hstmt := congrArg₂ (Stmt.bind .none) (congrArg (Ident.mk .none) hname) hshape
  refine ⟨_, ?_, .statement hbind hrest⟩
  exact congrArg₂ List.cons hstmt hbody

theorem rereadsBody_return {loc : Loc}
    (h : InTurn (IsOne .returnKw [114, 101, 116, 117, 114, 110]) (InTurn (IsOne .semicolon [59])
      (RereadsBody body)) ts) : RereadsBody (.ret loc none :: body) ts := by
  obtain ⟨_, _, rfl, ⟨r, rfl, hr, -⟩, _, vs, rfl, ⟨c, rfl, hc, -⟩, body', hbody, hrest⟩ := h
  refine ⟨_, ?_, .statement (.retNone hr (.taken hc)) hrest⟩
  exact congrArg (Stmt.ret .none none :: ·) hbody

theorem rereadsBody_ret {loc : Loc} {value : Expr}
    (h : InTurn (IsOne .returnKw [114, 101, 116, 117, 114, 110]) (InTurn (Rereads value)
      (InTurn (IsOne .semicolon [59]) (RereadsBody body))) ts) :
    RereadsBody (.ret loc (some value) :: body) ts := by
  obtain ⟨_, _, rfl, ⟨r, rfl, hr, -⟩, us, _, rfl, ⟨e, last, hshape, hderives⟩, _, vs, rfl,
    ⟨c, rfl, hc, -⟩, body', hbody, hrest⟩ := h
  have hret := Derives.ret hr ((hderives (c :: vs)).lower_le (by decide)) (.taken hc)
  have hstmt := congrArg (fun value => Stmt.ret .none (some value)) hshape
  refine ⟨_, ?_, .statement hret hrest⟩
  exact congrArg₂ List.cons hstmt hbody

end Grammar

section Statements

open Token Grammar

variable {body : List Stmt} {rest : Bytes}

/-- A reserved word with a byte after it that is no part of a word. -/
theorem spells_keyword {s : Bytes} {kind : Kind} (hs : s ≠ [])
    (hletters : ∀ x ∈ s, isLetter x = true) (hkind : Kind.ofWord s = kind) (hrest : Stops rest) :
    Spells s rest (IsOne kind s) := by
  obtain ⟨b, s, rfl⟩ := List.exists_cons_of_ne_nil hs
  obtain ⟨hb, hletters⟩ := List.forall_mem_cons.1 hletters
  rw [← hkind]
  exact spells_word hb (fun x hx => by rw [hletters x hx]; rfl) hrest

theorem spells_let (hrest : Stops rest) :
    Spells [108, 101, 116] rest (IsOne .letKw [108, 101, 116]) :=
  spells_keyword (List.cons_ne_nil _ _) (List.all_eq_true.1 rfl) (by with_unfolding_all rfl) hrest

theorem spells_return (hrest : Stops rest) :
    Spells [114, 101, 116, 117, 114, 110] rest (IsOne .returnKw [114, 101, 116, 117, 114, 110]) :=
  spells_keyword (List.cons_ne_nil _ _) (List.all_eq_true.1 rfl) (by with_unfolding_all rfl) hrest

theorem spells_semicolon : Spells [59] rest (IsOne .semicolon [59]) :=
  spells_mark 59 rfl (by decide)

/-- An equals sign before a blank is no part of a comparison. -/
theorem spells_assign {s : Bytes} : Spells [61] ([32] ++ s ++ rest) (IsOne .assign [61]) :=
  spells_symbol (by decide) fun _ => rfl

theorem renderBody_bind (loc : Loc) (id : Ident) (value : Expr) (body : List Stmt) :
    renderBody (.bind loc id value :: body) =
      [108, 101, 116] ++ ([32] ++ (id.name ++ ([32] ++ ([61] ++ ([32] ++
        (value.render ++ ([59] ++ renderBody body))))))) := by
  have hlet : Bytes.ofString "let " = [108, 101, 116] ++ [32] := by with_unfolding_all rfl
  have hassign : Bytes.ofString " = " = [32] ++ ([61] ++ [32]) := by with_unfolding_all rfl
  change Bytes.ofString "let " ++ id.name ++ Bytes.ofString " = " ++ value.render ++
    Bytes.ofString ";" ++ renderBody body = _
  rw [hlet, hassign, Bytes.ofString_semicolon]
  simp only [List.append_assoc]

theorem renderBody_return (loc : Loc) (body : List Stmt) :
    renderBody (.ret loc none :: body) =
      [114, 101, 116, 117, 114, 110] ++ ([59] ++ renderBody body) := by
  have hreturn : Bytes.ofString "return;" = [114, 101, 116, 117, 114, 110] ++ [59] := by
    with_unfolding_all rfl
  change Bytes.ofString "return;" ++ renderBody body = _
  rw [hreturn, List.append_assoc]

theorem renderBody_ret (loc : Loc) (value : Expr) (body : List Stmt) :
    renderBody (.ret loc (some value) :: body) =
      [114, 101, 116, 117, 114, 110] ++ ([32] ++ (value.render ++ ([59] ++ renderBody body))) := by
  have hreturn : Bytes.ofString "return " = [114, 101, 116, 117, 114, 110] ++ [32] := by
    with_unfolding_all rfl
  change Bytes.ofString "return " ++ value.render ++ Bytes.ofString ";" ++ renderBody body = _
  rw [hreturn, Bytes.ofString_semicolon]
  simp only [List.append_assoc]

/-- The text of a flat program is scanned to tokens that form a program of the same shape. -/
theorem spells_renderBody (body : List Stmt) (h : flatBody body = true)
    (hformed : ∀ s ∈ body, s.Formed) : Spells (renderBody body) [] (RereadsBody body) := by
  fun_induction flatBody body with
  | case1 => exact spells_nil ⟨[], rfl, .done⟩
  | case2 loc value =>
    cases List.forall_mem_singleton.1 hformed with
    | expr hvalue =>
      rw [show renderBody [.expr loc value] = value.render from List.append_nil _]
      exact ((Expr.spelled_of_flat h hvalue).spells [] stops_nil).mono fun _ => rereadsBody_expr
  | case3 loc id value rest ih =>
    obtain ⟨hflat, hrest⟩ := Bool.and_eq_true_iff.1 h
    obtain ⟨hstmt, hformed⟩ := List.forall_mem_cons.1 hformed
    cases hstmt with
    | bind hname hvalue =>
      rw [renderBody_bind]
      have hend := spells_semicolon.inTurn (ih hrest hformed)
      have hspelled := Expr.spelled_of_flat hflat hvalue
      have hright := (hspelled.spells _ (stops_cons rfl)).inTurn hend
      -- From the end to the start: each piece is scanned before the text that follows it.
      have hassign := spells_assign.inTurn hright.blank
      have hleft := (hname.spells (stops_cons rfl)).inTurn hassign.blank
      exact ((spells_let (stops_cons rfl)).inTurn hleft.blank).mono fun _ => rereadsBody_bind hflat
  | case4 loc rest ih =>
    have hformed := (List.forall_mem_cons.1 hformed).2
    rw [renderBody_return]
    have hend := spells_semicolon.inTurn (ih h hformed)
    exact ((spells_return (stops_cons rfl)).inTurn hend).mono fun _ => rereadsBody_return
  | case5 loc value rest ih =>
    obtain ⟨hflat, hrest⟩ := Bool.and_eq_true_iff.1 h
    obtain ⟨hstmt, hformed⟩ := List.forall_mem_cons.1 hformed
    cases hstmt with
    | ret hvalue =>
      rw [renderBody_ret]
      have hend := spells_semicolon.inTurn (ih hrest hformed)
      have hspelled := Expr.spelled_of_flat hflat (hvalue value rfl)
      have hright := (hspelled.spells _ (stops_cons rfl)).inTurn hend
      exact ((spells_return (stops_cons rfl)).inTurn hright.blank).mono fun _ => rereadsBody_ret
  | case6 => cases h

end Statements

/-- The text of a flat program that was read is read without a fault as the same program, up to
positions. It does not matter if the source had faults. -/
theorem Program.parse_render {source : Bytes}
    (h : flatBody (Program.parse source).program.body = true) :
    (Program.parse (Program.parse source).program.render).errors = [] ∧
      (Program.parse (Program.parse source).program.render).program.shape =
        (Program.parse source).program.shape := by
  obtain ⟨-, -, -, -, -, hformed⟩ := Program.exists_body source
  generalize Program.parse source = p at h hformed
  obtain ⟨ts, pos, hscans, body, hshape, hderives⟩ :=
    spells_renderBody p.program.body h hformed (.start p.program.render)
  rw [List.append_nil] at hscans
  have hparse : Program.parse p.program.render = ⟨.ofBody body, []⟩ := by
    rw [Program.parse_eq, Token.scan_of_scans hscans]
    exact Parse.tokens_of_derives rfl hderives
  rw [hparse]
  refine ⟨rfl, ?_⟩
  rw [Program.shape, Program.shape, ← hshape]
  rfl

/-- Operators of one and of two operands, calls, a pair and a number with a zero in front. -/
theorem Program.parse_render_let :
    let source : Bytes := "let a = {x: !y}[1 - 2 / 03]; return; f(a)(true, -1 == [])"
    let text : Bytes := "let a = ({x:(!y)}[(1 - (2 / 03))]);return;f(a)(true, ((-1) == []))"
    (Program.parse source).errors = [] ∧ (Program.parse source).program.render = text ∧
      flatBody (Program.parse source).program.body = true ∧ (Program.parse text).errors = [] ∧
      (Program.parse text).program.shape = (Program.parse source).program.shape := by
  intro source text
  have htext : (Program.parse source).program.render = text := by decide +kernel
  have hflat : flatBody (Program.parse source).program.body = true := by decide +kernel
  refine ⟨by decide +kernel, htext, hflat, ?_⟩
  rw [← htext]
  exact Program.parse_render hflat

end StackScript
