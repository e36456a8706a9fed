import StackScript.Proofs.Tree.Calls
import StackScript.Proofs.Tree.Shape

/-!
# Reading without positions

Positions are put into trees and faults and never looked at. So it makes no
difference whether they are forgotten before a source is read or after it: the
tokens without their positions are read to the tree without its positions.

## Main definitions

* `Token.shape`, `ParseError.shape`, `Parse.Stream.shape`: what is left without positions.
* `Parse.Forgets`: a reader does without positions what another one does with them.

## Main results

* `Parse.forgets_answers`: all readers do so.
-/

namespace StackScript

/-- The token without its place. -/
def Token.shape (t : Token) : Token := { t with pos := .none }

/-- The fault without its place. -/
def ParseError.shape : ParseError → ParseError
  | .expected _ want got => .expected .none want got
  | .noExpression _ got => .noExpression .none got
  | .integerRange _ literal => .integerRange .none literal
  | .openBlock _ => .openBlock .none

/-! ### Lists and parts of trees -/

theorem shapeItems_eq_map (items : List Expr) : shapeItems items = items.map Expr.shape := by
  induction items with
  | nil => rfl
  | cons e rest ih => rw [shapeItems, ih, List.map_cons]

theorem shapePairs_eq_map (pairs : List (Expr × Expr)) :
    shapePairs pairs = pairs.map fun p => (p.1.shape, p.2.shape) := by
  induction pairs with
  | nil => rfl
  | cons p rest ih => rw [shapePairs_cons, ih, List.map_cons]

theorem shapeBody_eq_map (body : List Stmt) : shapeBody body = body.map Stmt.shape := by
  induction body with
  | nil => rfl
  | cons s rest ih => rw [shapeBody, ih, List.map_cons]

/-- Nothing is left of where an expression stands. -/
theorem Expr.loc_shape (e : Expr) : e.shape.loc = .none := by
  cases e <;> rfl

theorem Expr.shape_named (e : Expr) (name : Bytes) :
    (e.named name).shape = e.shape.named name := by
  cases e <;> rfl

namespace Parse

variable {α β γ δ : Type}

/-- The stream without positions. -/
def Stream.shape (s : Stream) : Stream :=
  ⟨s.tokens.map Token.shape, s.eof.shape, s.errors.map ParseError.shape, s.spent⟩

/-- Without positions, `y` yields what `x` yields with them, as far as `g` keeps it. -/
def Forgets (x : Parse α) (y : Parse β) (g : α → β) : Prop :=
  ∀ s, y s.shape = ((x s).1.map g, (x s).2.shape)

namespace Forgets

variable {x : Parse α} {y : Parse β} {g : α → β}

theorem pure {a : α} {b : β} (h : g a = b) : Forgets (Pure.pure a) (Pure.pure b) g := by
  subst h
  intro s
  rfl

theorem fail : Forgets (Parse.fail : Parse α) (Parse.fail : Parse β) g := fun _ => rfl

theorem exhausted : Forgets (Parse.exhausted : Parse α) (Parse.exhausted : Parse β) g :=
  fun _ => rfl

theorem note (e : ParseError) : Forgets (note e) (note e.shape) id := fun _ => rfl

theorem advance : Forgets advance advance id := by
  intro s
  rw [Parse.advance, Stream.shape, ← List.map_tail]
  rfl

theorem current : Forgets current current Token.shape := by
  intro s
  cases hs : s.tokens <;> simp [Parse.current, Stream.shape, hs]

theorem peek : Forgets peek peek Token.shape := by
  intro s
  rcases hs : s.tokens with _ | ⟨t, _ | ⟨u, ts⟩⟩ <;> simp [Parse.peek, Stream.shape, hs]

theorem bind {f : α → Parse γ} {f' : β → Parse δ} {k : γ → δ} (hx : Forgets x y g)
    (hf : ∀ a, Forgets (f a) (f' (g a)) k) : Forgets (x >>= f) (y >>= f') k := by
  intro s
  have hxs := hx s
  rcases hresult : x s with ⟨_ | a, s'⟩
  · rw [hresult] at hxs
    rw [bind_none hresult, bind_none hxs]
    rfl
  · rw [hresult] at hxs
    rw [bind_some hresult, bind_some hxs]
    exact hf a s'

theorem attempt (hx : Forgets x y g) : Forgets (attempt x) (attempt y) (Option.map g) := by
  intro s
  rw [attempt_eq (hx s)]
  rfl

theorem ite {p : Prop} [Decidable p] {x' : Parse α} {y' : Parse β} (hx : Forgets x y g)
    (hx' : Forgets x' y' g) : Forgets (if p then x else x') (if p then y else y') g := by
  split
  · exact hx
  · exact hx'

theorem expect (kind : Token.Kind) : Forgets (expect kind) (expect kind) id := by
  apply bind peek
  intro t
  apply ite advance
  exact bind (note _) fun _ => fail

theorem ident : Forgets ident ident Ident.shape := bind current fun _ => pure rfl

theorem integer : Forgets integer integer Expr.shape := by
  apply bind current
  intro t
  apply ite
  · exact pure rfl
  · exact bind (note _) fun _ => fail

/-- A step may be left out. -/
theorem optional {p : Prop} [Decidable p] {x y : Parse Unit} {f : Unit → Parse α}
    {f' : Unit → Parse β} (hx : Forgets x y id) (hf : Forgets (f ()) (f' ()) g) :
    Forgets (if p then x >>= f else f ()) (if p then y >>= f' else f' ()) g :=
  ite (bind hx fun _ => hf) hf

end Forgets

/-- The call without the positions in its arguments. -/
def Call.shape : Call α → Call α
  | .moreParams acc => .moreParams (acc.map Ident.shape)
  | .expr precedence => .expr precedence
  | .primary => .primary
  | .unary _ op => .unary .none op
  | .conditional _ => .conditional .none
  | .operators precedence left => .operators precedence left.shape
  | .list close => .list close
  | .moreItems close acc => .moreItems close (shapeItems acc)
  | .pairs acc => .pairs (shapePairs acc)
  | .block => .block
  | .statements inBlock acc => .statements inBlock (shapeBody acc)
  | .statement => .statement

/-- What the call yields, without positions. -/
def Call.forget : Call α → α → α
  | .moreParams _ => List.map Ident.shape
  | .expr _ | .primary | .unary .. | .conditional _ | .operators .. => Expr.shape
  | .list _ | .moreItems .. => shapeItems
  | .pairs _ => shapePairs
  | .block => Block.shape
  | .statements .. => shapeBody
  | .statement => Stmt.shape

section

variable {again again' : Answers}
  (h : ∀ β (c : Call β), Forgets (again β c) (again' β c.shape) c.forget)

include h

theorem forgets_paramsBy : Forgets (paramsBy again) (paramsBy again') (List.map Ident.shape) := by
  apply Forgets.bind .peek
  intro t
  apply Forgets.ite
  · exact .bind .advance fun _ => .pure rfl
  · exact .bind (.expect _) fun _ => .bind .ident fun id => h _ (.moreParams [id])

theorem forgets_primary :
    Forgets (Call.primary.body again) (Call.primary.body again') Expr.shape := by
  apply Forgets.bind .current
  rintro ⟨kind, literal, pos⟩
  cases kind with
  | ident => exact .bind .ident fun id => .pure rfl
  | int => exact .integer
  | string | trueKw | falseKw => exact .pure rfl
  | bang => exact h _ (.unary pos .not)
  | minus => exact h _ (.unary pos .neg)
  | lparen =>
    refine .bind .advance fun _ => .bind (.attempt (h _ (.expr _))) fun e => ?_
    apply Forgets.bind (.expect _)
    intro _
    cases e with
    | some e => exact .pure rfl
    | none => exact .fail
  | ifKw => exact h _ (.conditional pos)
  | function =>
    refine .bind (.expect _) fun _ => .bind (forgets_paramsBy h) fun ps => ?_
    refine .bind (.expect _) fun _ => .bind (h _ .block) fun body => ?_
    exact .bind .current fun stop => .pure rfl
  | lbracket =>
    exact .bind (h _ (.list .rbracket)) fun items => .bind .current fun stop => .pure rfl
  | lbrace => exact .bind (h _ (.pairs [])) fun ps => .bind .current fun stop => .pure rfl
  | _ => exact .bind (.note _) fun _ => .fail

theorem forgets_conditional (pos : Pos) :
    Forgets ((Call.conditional pos).body again) ((Call.conditional .none).body again')
      Expr.shape := by
  apply Forgets.bind (.expect _)
  intro _
  refine .bind .advance fun _ => .bind (h _ (.expr _)) fun test => ?_
  refine .bind (.expect _) fun _ => .bind (.expect _) fun _ => .bind (h _ .block) fun yes => ?_
  apply Forgets.bind .peek
  intro t
  apply Forgets.ite
  · exact .bind .advance fun _ => .bind (.expect _) fun _ => .bind (h _ .block) fun no =>
      .bind .current fun stop => .pure rfl
  · exact .bind .current fun stop => .pure rfl

/-- The right operand of an operator at `pos`, and what follows it. -/
theorem forgets_operand (precedence : Nat) (left : Expr) (pos : Pos) (op : BinaryOp) (n : Nat) :
    Forgets
      (advance >>= fun _ => again _ (.expr n) >>= fun right => again _ (.operators precedence
        (.binary ⟨pos, ⟨left.loc.span.start, right.loc.span.stop⟩⟩ op left right)))
      (advance >>= fun _ => again' _ (.expr n) >>= fun right => again' _ (.operators precedence
        (.binary ⟨.none, ⟨left.shape.loc.span.start, right.loc.span.stop⟩⟩ op left.shape right)))
      Expr.shape := by
  refine .bind .advance fun _ => .bind (h _ (.expr n)) fun right => ?_
  change Forgets _ (again' _ (.operators precedence
    (.binary ⟨.none, ⟨left.shape.loc.span.start, right.shape.loc.span.stop⟩⟩ op _ right.shape))) _
  rw [Expr.loc_shape, Expr.loc_shape]
  exact h _ (.operators precedence (.binary _ op left right))

theorem forgets_operators (precedence : Nat) (left : Expr) :
    Forgets ((Call.operators precedence left).body again)
      ((Call.operators precedence left.shape).body again') Expr.shape := by
  apply Forgets.bind .peek
  rintro ⟨kind, literal, pos⟩
  apply Forgets.ite
  · apply Forgets.bind .advance
    intro _
    have hoperand := forgets_operand h precedence left pos
    cases kind with
    | lparen =>
      refine .bind (h _ (.list _)) fun args => .bind .current fun stop => ?_
      rw [Expr.loc_shape]
      exact h _ (.operators precedence (.call ⟨pos, ⟨left.loc.span.start, stop.pos⟩⟩ left args))
    | lbracket =>
      refine .bind .advance fun _ => .bind (h _ (.expr _)) fun index => ?_
      refine .bind (.expect _) fun _ => .bind .current fun stop => ?_
      rw [Expr.loc_shape]
      exact h _ (.operators precedence (.index ⟨pos, ⟨left.loc.span.start, stop.pos⟩⟩ left index))
    | plus => exact hoperand .add _
    | minus => exact hoperand .sub _
    | star => exact hoperand .mul _
    | slash => exact hoperand .div _
    | less => exact hoperand .less _
    | greater => exact hoperand .greater _
    | equal => exact hoperand .equal _
    | notEqual => exact hoperand .notEqual _
    | _ => exact .pure rfl
  · exact .pure rfl

theorem forgets_statement :
    Forgets (Call.statement.body again) (Call.statement.body again') Stmt.shape := by
  apply Forgets.bind .current
  rintro ⟨kind, literal, pos⟩
  cases kind with
  | letKw =>
    refine .bind (.expect _) fun _ => .bind .ident fun id => .bind (.expect _) fun _ => ?_
    refine .bind .advance fun _ => .bind (h _ (.expr _)) fun value => .bind .peek fun t => ?_
    refine .optional .advance (.bind .current fun stop => .pure ?_)
    rw [Stmt.shape, Expr.shape_named]
    rfl
  | returnKw =>
    apply Forgets.bind .peek
    intro p
    apply Forgets.ite
    · exact .bind .advance fun _ => .pure rfl
    apply Forgets.ite
    · exact .pure rfl
    refine .bind .advance fun _ => .bind (h _ (.expr _)) fun value => .bind .peek fun t => ?_
    exact .optional .advance (.bind .current fun stop => .pure rfl)
  | _ =>
    refine .bind (h _ (.expr _)) fun value => .bind .peek fun t => ?_
    refine .optional .advance (.pure ?_)
    simp only [Stmt.shape, Call.forget, Expr.loc_shape]
    rfl

/-- What a reader does without positions, if the calls inside it do so. -/
theorem forgets_body (c : Call α) : Forgets (c.body again) (c.shape.body again') c.forget := by
  cases c with
  | moreParams acc =>
    apply Forgets.bind .peek
    intro t
    apply Forgets.ite
    · exact .bind .advance fun _ => .bind (.expect _) fun _ => .bind .ident fun id =>
        h _ (.moreParams (id :: acc))
    · exact .bind (.expect _) fun _ => .pure (by simp [Call.forget])
  | expr precedence =>
    exact .bind (h _ .primary) fun left => h _ (.operators precedence left)
  | primary => exact forgets_primary h
  | unary pos op =>
    apply Forgets.bind .advance
    intro _
    apply Forgets.bind (h _ (.expr Precedence.operand))
    intro right
    exact .pure (by simp only [Call.forget, Expr.shape, Expr.loc_shape]; rfl)
  | conditional pos => exact forgets_conditional h pos
  | operators precedence left => exact forgets_operators h precedence left
  | list close =>
    apply Forgets.bind .peek
    intro t
    apply Forgets.ite
    · exact .bind .advance fun _ => .pure rfl
    · exact .bind .advance fun _ => .bind (h _ (.expr _)) fun e => h _ (.moreItems close [e])
  | moreItems close acc =>
    apply Forgets.bind .peek
    intro t
    apply Forgets.ite
    · exact .bind .advance fun _ => .bind .advance fun _ => .bind (h _ (.expr _)) fun e =>
        h _ (.moreItems close (e :: acc))
    · exact .bind (.expect _) fun _ => .pure (by simp [Call.forget, shapeItems_eq_map])
  | pairs acc =>
    apply Forgets.bind .peek
    intro t
    apply Forgets.ite
    · exact .bind .advance fun _ => .pure (by simp [Call.forget, shapePairs_eq_map])
    · exact .bind .advance fun _ => .bind (h _ (.expr _)) fun key => .bind (.expect _) fun _ =>
        .bind .advance fun _ => .bind (h _ (.expr _)) fun value => .bind .peek fun t =>
          .optional (.expect _) (h _ (.pairs ((key, value) :: acc)))
  | block =>
    apply Forgets.bind .current
    intro start
    apply Forgets.bind .advance
    intro _
    apply Forgets.bind (h _ (.statements true []))
    intro body
    exact .bind .current fun stop => .optional (.note _) (.pure rfl)
  | statements inBlock acc =>
    apply Forgets.bind .current
    intro t
    apply Forgets.ite
    · exact .pure (by simp [Call.forget, shapeBody_eq_map])
    apply Forgets.ite
    · exact .bind .advance fun _ => h _ (.statements inBlock acc)
    · apply Forgets.bind (.attempt (h _ .statement))
      intro st
      apply Forgets.bind .advance
      intro _
      cases st with
      | none => exact h _ (.statements inBlock acc)
      | some st => exact h _ (.statements inBlock (st :: acc))
  | statement => exact forgets_statement h

end

/-- Whatever the depth, positions make no difference to what is read. -/
theorem forgets_answers (depth : Nat) (c : Call α) :
    Forgets (answers depth α c) (answers depth α c.shape) c.forget := by
  induction depth generalizing α with
  | zero =>
    rw [answers_zero, answers_zero]
    exact .exhausted
  | succ depth ih =>
    rw [answers_succ, answers_succ]
    exact forgets_body (fun _ => ih) c

end Parse

end StackScript
