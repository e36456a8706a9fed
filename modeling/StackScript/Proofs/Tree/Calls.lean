import StackScript.Proofs.Tree.Parsed

/-!
# Readers that call each other

The readers of trees form one recursion. A call of one of them is a value here,
and what a reader does is stated with a parameter that answers the calls inside
it. The depth is then the number of times that this is unfolded.

Whatever every step of reading does to a stream, reading does to it: go forward,
keep the faults, leave the depth alone. Such a relation has to be checked for
the steps only.

## Main definitions

* `Parse.Call`: a call of a reader.
* `Parse.Call.body`: what a reader does, given answers to the calls inside it.
* `Parse.answers`: the answers that a depth allows for.
* `Parse.Moves`: a reader moves streams along a relation.
* `Parse.Stream.Forward`: what all readers do.

## Main results

* `Parse.answers_succ`: one more step of depth unfolds one call.
* `Parse.moves_body`: what the steps of reading do, reading does.
-/

namespace StackScript

namespace Parse

variable {α β : Type}

/-- A call of a reader, with its arguments. -/
inductive Call : Type → Type
  | moreParams (acc : List Ident) : Call (List Ident)
  | expr (precedence : Nat) : Call Expr
  | primary : Call Expr
  | unary (pos : Pos) (op : UnaryOp) : Call Expr
  | conditional (pos : Pos) : Call Expr
  | operators (precedence : Nat) (left : Expr) : Call Expr
  | list (close : Token.Kind) : Call (List Expr)
  | moreItems (close : Token.Kind) (acc : List Expr) : Call (List Expr)
  | pairs (acc : List (Expr × Expr)) : Call (List (Expr × Expr))
  | block : Call Block
  | statements (inBlock : Bool) (acc : List Stmt) : Call (List Stmt)
  | statement : Call Stmt

/-- Something that answers calls. -/
abbrev Answers := (α : Type) → Call α → Parse α

/-- The answers that a depth allows for. -/
def answers (depth : Nat) : Answers
  | _, .moreParams acc => moreParams depth acc
  | _, .expr precedence => expr depth precedence
  | _, .primary => primary depth
  | _, .unary pos op => unary depth pos op
  | _, .conditional pos => conditional depth pos
  | _, .operators precedence left => operators depth precedence left
  | _, .list close => list depth close
  | _, .moreItems close acc => moreItems depth close acc
  | _, .pairs acc => pairs depth acc
  | _, .block => block depth
  | _, .statements inBlock acc => statements depth inBlock acc
  | _, .statement => statement depth

/-- The parameters of a function, with `again` to answer the call for those after the first one. -/
def paramsBy (again : Answers) : Parse (List Ident) := do
  if (← peek).kind = .rparen then
    advance
    return []
  else
    expect .ident
    let id ← ident
    again _ (.moreParams [id])

/-- What a reader does, with `again` to answer the calls inside it. -/
def Call.body (again : Answers) : Call α → Parse α
  | .moreParams acc => do
    if (← peek).kind = .comma then
      advance
      expect .ident
      let id ← ident
      again _ (.moreParams (id :: acc))
    else
      expect .rparen
      return acc.reverse
  | .expr precedence => do
    let left ← again _ .primary
    again _ (.operators precedence left)
  | .primary => do
    let t ← current
    match t.kind with
    | .ident => return .ident (← ident)
    | .int => integer
    | .string => return .string (.token t.pos) t.literal
    | .trueKw => return .bool (.token t.pos) true
    | .falseKw => return .bool (.token t.pos) false
    | .bang => again _ (.unary t.pos .not)
    | .minus => again _ (.unary t.pos .neg)
    | .lparen => do
      advance
      let e ← attempt (again _ (.expr Precedence.lowest))
      expect .rparen
      match e with
      | some e => return e
      | none => fail
    | .ifKw => again _ (.conditional t.pos)
    | .function => do
      expect .lparen
      let ps ← paramsBy again
      expect .lbrace
      let body ← again _ .block
      let stop ← current
      return .function (.run t.pos stop.pos) [] ps body
    | .lbracket => do
      let items ← again _ (.list .rbracket)
      let stop ← current
      return .array (.run t.pos stop.pos) items
    | .lbrace => do
      let ps ← again _ (.pairs [])
      let stop ← current
      return .hash (.run t.pos stop.pos) ps
    | kind => do
      note (.noExpression t.pos kind)
      fail
  | .unary pos op => do
    advance
    let right ← again _ (.expr Precedence.operand)
    return .unary (.run pos right.loc.span.stop) op right
  | .conditional pos => do
    expect .lparen
    advance
    let test ← again _ (.expr Precedence.lowest)
    expect .rparen
    expect .lbrace
    let yes ← again _ .block
    if (← peek).kind = .elseKw then
      advance
      expect .lbrace
      let no ← again _ .block
      let stop ← current
      return .cond (.run pos stop.pos) test yes (some no)
    else
      let stop ← current
      return .cond (.run pos stop.pos) test yes none
  | .operators precedence left => do
    let t ← peek
    if precedence < t.kind.precedence then
      advance
      let start := left.loc.span.start
      match t.kind with
      | .lparen => do
        let args ← again _ (.list .rparen)
        let stop ← current
        again _ (.operators precedence (.call ⟨t.pos, ⟨start, stop.pos⟩⟩ left args))
      | .lbracket => do
        advance
        let index ← again _ (.expr Precedence.lowest)
        expect .rbracket
        let stop ← current
        again _ (.operators precedence (.index ⟨t.pos, ⟨start, stop.pos⟩⟩ left index))
      | kind =>
        match BinaryOp.ofKind? kind with
        | some op => do
          advance
          let right ← again _ (.expr kind.precedence)
          again _ (.operators precedence
            (.binary ⟨t.pos, ⟨start, right.loc.span.stop⟩⟩ op left right))
        | none => return left
    else return left
  | .list close => do
    if (← peek).kind = close then
      advance
      return []
    else
      advance
      let e ← again _ (.expr Precedence.lowest)
      again _ (.moreItems close [e])
  | .moreItems close acc => do
    if (← peek).kind = .comma then
      advance
      advance
      let e ← again _ (.expr Precedence.lowest)
      again _ (.moreItems close (e :: acc))
    else
      expect close
      return acc.reverse
  | .pairs acc => do
    if (← peek).kind = .rbrace then
      advance
      return acc.reverse
    else
      advance
      let key ← again _ (.expr Precedence.lowest)
      expect .colon
      advance
      let value ← again _ (.expr Precedence.lowest)
      if (← peek).kind ≠ .rbrace then expect .comma
      again _ (.pairs ((key, value) :: acc))
  | .block => do
    let start ← current
    advance
    let body ← again _ (.statements true [])
    let stop ← current
    if stop.kind ≠ .rbrace then note (.openBlock stop.pos)
    return .mk (.run start.pos stop.pos) body
  | .statements inBlock acc => do
    let t ← current
    if t.kind = .eof ∨ (inBlock ∧ t.kind = .rbrace) then return acc.reverse
    else if t.kind = .semicolon then
      advance
      again _ (.statements inBlock acc)
    else
      let s ← attempt (again _ .statement)
      advance
      again _ (.statements inBlock (s.toList ++ acc))
  | .statement => do
    let t ← current
    match t.kind with
    | .letKw => do
      expect .ident
      let id ← ident
      expect .assign
      advance
      let value ← again _ (.expr Precedence.lowest)
      if (← peek).kind = .semicolon then advance
      let stop ← current
      return .bind (.run t.pos stop.pos) id (value.named id.name)
    | .returnKw => do
      let p ← peek
      if p.kind = .semicolon then
        advance
        return .ret (.run t.pos p.pos) none
      else if p.kind = .rbrace ∨ p.kind = .eof then return .ret (.run t.pos t.pos) none
      else
        advance
        let value ← again _ (.expr Precedence.lowest)
        if (← peek).kind = .semicolon then advance
        let stop ← current
        return .ret (.run t.pos stop.pos) (some value)
    | _ => do
      let value ← again _ (.expr Precedence.lowest)
      if (← peek).kind = .semicolon then advance
      return .expr (.run t.pos value.loc.span.stop) value

/-- Without depth, no call is answered. -/
theorem answers_zero (c : Call α) : answers 0 α c = exhausted := by
  cases c <;> rfl

/-- One more step of depth unfolds one call. -/
theorem answers_succ (depth : Nat) (c : Call α) :
    answers (depth + 1) α c = c.body (answers depth) := by
  cases c <;> rfl

theorem answers_step (depth : Nat) : answers (depth + 1) = fun _ c => c.body (answers depth) := by
  funext α c
  exact answers_succ depth c

/-! ### Single steps -/

theorem expect_of_kind {s : Stream} {kind : Token.Kind}
    (h : (s.tokens.tail.headD s.eof).kind = kind) :
    expect kind s = (some (), { s with tokens := s.tokens.tail }) :=
  congrFun (if_pos (c := (s.tokens.tail.headD s.eof).kind = kind) h) s

theorem expect_of_ne {s : Stream} {kind : Token.Kind}
    (h : (s.tokens.tail.headD s.eof).kind ≠ kind) :
    expect kind s = (none, { s with
      errors := .expected (s.tokens.tail.headD s.eof).pos kind (s.tokens.tail.headD s.eof).kind ::
        s.errors }) :=
  congrFun (if_neg (c := (s.tokens.tail.headD s.eof).kind = kind) h) s

section

variable {again : Answers} {inBlock : Bool} {acc : List Stmt} {s : Stream}

/-- The token is where the statements end. -/
def EndsBody (inBlock : Bool) (t : Token) : Prop := t.kind = .eof ∨ (inBlock ∧ t.kind = .rbrace)

theorem statements_of_end (hend : EndsBody inBlock (s.tokens.headD s.eof)) :
    (Call.statements inBlock acc).body again s = (some acc.reverse, s) :=
  congrFun (if_pos hend) s

theorem statements_of_semicolon (hend : ¬EndsBody inBlock (s.tokens.headD s.eof))
    (hsemicolon : (s.tokens.headD s.eof).kind = .semicolon) :
    (Call.statements inBlock acc).body again s =
      again _ (.statements inBlock acc) { s with tokens := s.tokens.tail } :=
  (congrFun (if_neg hend) s).trans (congrFun (if_pos hsemicolon) s)

/-- A statement is read, and the token after it is skipped whether or not that failed. -/
theorem statements_of_statement (hend : ¬EndsBody inBlock (s.tokens.headD s.eof))
    (hsemicolon : (s.tokens.headD s.eof).kind ≠ .semicolon) :
    (Call.statements inBlock acc).body again s =
      again _ (.statements inBlock ((again _ .statement s).1.toList ++ acc))
        { (again _ .statement s).2 with tokens := (again _ .statement s).2.tokens.tail } :=
  (congrFun (if_neg hend) s).trans (congrFun (if_neg hsemicolon) s)

end

/-! ### What reading does to a stream -/

/-- A relation along which every step of reading moves a stream. -/
class Motion (R : Stream → Stream → Prop) : Prop where
  refl : ∀ s, R s s
  trans : ∀ {s₁ s₂ s₃}, R s₁ s₂ → R s₂ s₃ → R s₁ s₃
  advance : ∀ s, R s { s with tokens := s.tokens.tail }
  note : ∀ s e, R s { s with errors := e :: s.errors }

/-- The reader moves streams along the relation, whether or not it fails. -/
class Moves (R : Stream → Stream → Prop) (x : Parse α) : Prop where
  moves : ∀ s, R s (x s).2

section

variable {R : Stream → Stream → Prop} [hR : Motion R]

instance (a : α) : Moves R (Pure.pure a : Parse α) := ⟨hR.refl⟩

theorem Moves.bind {x : Parse α} {f : α → Parse β} (hx : Moves R x) (hf : ∀ a, Moves R (f a)) :
    Moves R (x >>= f) := by
  refine ⟨fun s => ?_⟩
  have hxs := hx.moves s
  cases hresult : x s with
  | mk r s' =>
    rw [hresult] at hxs
    cases r with
    | some a =>
      rw [bind_some hresult]
      exact hR.trans hxs ((hf a).moves s')
    | none =>
      rw [bind_none hresult]
      exact hxs

instance {x : Parse α} {f : α → Parse β} [hx : Moves R x] [hf : ∀ a, Moves R (f a)] :
    Moves R (x >>= f) := hx.bind hf

instance {x : Parse α} [hx : Moves R x] : Moves R (attempt x) := ⟨hx.moves⟩

instance : Moves R (fail : Parse α) := ⟨hR.refl⟩

instance (e : ParseError) : Moves R (note e) := ⟨fun s => hR.note s e⟩

instance : Moves R current := ⟨hR.refl⟩

instance : Moves R peek := ⟨hR.refl⟩

instance : Moves R advance := ⟨hR.advance⟩

instance {p : Prop} [Decidable p] {x y : Parse α} [hx : Moves R x] [hy : Moves R y] :
    Moves R (if p then x else y) := by
  split
  · exact hx
  · exact hy

instance (kind : Token.Kind) : Moves R (expect kind) := by
  unfold expect
  infer_instance

instance : Moves R ident := by
  unfold ident
  infer_instance

instance : Moves R integer := by
  unfold integer
  infer_instance

variable {again : Answers} [hagain : ∀ β (c : Call β), Moves R (again β c)]

instance : Moves R (paramsBy again) := by
  unfold paramsBy
  infer_instance

set_option synthInstance.maxSize 800 in
/-- What the steps of reading do, and the answers to the calls inside it, a reader does. -/
theorem moves_body (c : Call α) : Moves R (c.body again) := by
  cases c with
  | moreParams | expr | unary | list | moreItems | statements =>
    exact inferInstanceAs (Moves R (_ >>= _))
  | conditional =>
    refine .bind inferInstance fun _ => .bind inferInstance fun _ => ?_
    infer_instance
  | primary =>
    refine .bind inferInstance fun t => ?_
    split
    case h_8 =>
      refine .bind inferInstance fun _ => .bind inferInstance fun e =>
        .bind inferInstance fun _ => ?_
      cases e <;> infer_instance
    all_goals infer_instance
  | operators =>
    refine .bind inferInstance fun t => ?_
    split
    · refine .bind inferInstance fun _ => ?_
      split
      · infer_instance
      · infer_instance
      · split <;> infer_instance
    · infer_instance
  | pairs | block =>
    refine .bind inferInstance fun t => ?_
    dsimp only
    infer_instance
  | statement =>
    refine .bind inferInstance fun t => ?_
    split <;> (dsimp only; infer_instance)

end

/-- Readers go forward and keep the faults. The depth does not come back. -/
structure Stream.Forward (o s : Stream) : Prop where
  tokens : s.tokens <:+ o.tokens
  eof : s.eof = o.eof
  errors : o.errors <:+ s.errors
  spent : o.spent = true → s.spent = true

instance : Motion Stream.Forward where
  refl _ := ⟨List.suffix_rfl, rfl, List.suffix_rfl, id⟩
  trans h h' := ⟨h'.tokens.trans h.tokens, h'.eof.trans h.eof, h.errors.trans h'.errors,
    h'.spent ∘ h.spent⟩
  advance _ := ⟨List.tail_suffix _, rfl, List.suffix_rfl, id⟩
  note _ _ := ⟨List.suffix_rfl, rfl, List.suffix_cons _ _, id⟩

/-- What is answered at some depth goes forward. -/
instance forward_answers (depth : Nat) (α : Type) (c : Call α) :
    Moves Stream.Forward (answers depth α c) := by
  induction depth generalizing α with
  | zero =>
    rw [answers_zero]
    exact ⟨fun _ => ⟨List.suffix_rfl, rfl, List.suffix_rfl, fun _ => rfl⟩⟩
  | succ depth ih =>
    rw [answers_succ]
    exact moves_body c

end Parse

end StackScript
