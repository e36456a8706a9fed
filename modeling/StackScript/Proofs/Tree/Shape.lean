import StackScript.Tree.Parse

/-!
# Trees without positions

The shape of a tree is what is left if every position in it is forgotten. Two
trees are the same up to positions if they have the same shape.

Flat trees have neither strings nor blocks in them. They are the trees whose
shape can be read off their text.

## Main definitions

* `Expr.shape`, `Stmt.shape`, `Block.shape`, `Program.shape`: the shape of a tree.
* `Expr.flat`: expressions without strings and blocks.
* `flatBody`: lets and returns of flat values, and perhaps a flat expression after them.
-/

namespace StackScript

/-- A name without its place. -/
def Ident.shape (id : Ident) : Ident := ⟨.none, id.name⟩

mutual

/-- The expression without its positions. -/
def Expr.shape : Expr → Expr
  | .ident id => .ident id.shape
  | .int _ literal value => .int .none literal value
  | .string _ value => .string .none value
  | .bool _ value => .bool .none value
  | .unary _ op right => .unary .none op right.shape
  | .binary _ op left right => .binary .none op left.shape right.shape
  | .cond _ test yes no => .cond .none test.shape yes.shape (shapeElse no)
  | .function _ name params body => .function .none name (params.map Ident.shape) body.shape
  | .call _ callee args => .call .none callee.shape (shapeItems args)
  | .array _ items => .array .none (shapeItems items)
  | .hash _ pairs => .hash .none (shapePairs pairs)
  | .index _ left index => .index .none left.shape index.shape
  | .missing => .missing

/-- The elements of a list without their positions. -/
def shapeItems : List Expr → List Expr
  | [] => []
  | e :: rest => e.shape :: shapeItems rest

/-- The pairs of a hash literal without their positions. -/
def shapePairs : List (Expr × Expr) → List (Expr × Expr)
  | [] => []
  | (key, value) :: rest => (key.shape, value.shape) :: shapePairs rest

/-- An alternative without its positions. -/
def shapeElse : Option Block → Option Block
  | none => none
  | some b => some b.shape

/-- The block without its positions. -/
def Block.shape : Block → Block
  | .mk _ body => .mk .none (shapeBody body)

/-- Statements without their positions. -/
def shapeBody : List Stmt → List Stmt
  | [] => []
  | s :: rest => s.shape :: shapeBody rest

/-- The statement without its positions. -/
def Stmt.shape : Stmt → Stmt
  | .bind _ id value => .bind .none id.shape value.shape
  | .ret _ none => .ret .none none
  | .ret _ (some value) => .ret .none (some value.shape)
  | .expr _ value => .expr .none value.shape
  | .block body => .block body.shape
  | .missing => .missing

end

theorem shapePairs_cons (p : Expr × Expr) (ps : List (Expr × Expr)) :
    shapePairs (p :: ps) = (p.1.shape, p.2.shape) :: shapePairs ps := rfl

/-- The program without its positions. -/
def Program.shape (p : Program) : Program := ⟨⟨.none, .none⟩, shapeBody p.body⟩

/-! ### Flat trees -/

mutual

/-- The expression is built from names, integers, booleans, operators, calls, indexes, arrays and
hashes. -/
def Expr.flat : Expr → Bool
  | .ident _ | .int .. | .bool .. => true
  | .unary _ _ right => right.flat
  | .binary _ _ left right => left.flat && right.flat
  | .call _ callee args => callee.flat && flatItems args
  | .array _ items => flatItems items
  | .hash _ pairs => flatPairs pairs
  | .index _ left index => left.flat && index.flat
  | .string .. | .cond .. | .function .. | .missing => false

/-- All elements are flat. -/
def flatItems : List Expr → Bool
  | [] => true
  | e :: rest => e.flat && flatItems rest

/-- All keys and values are flat. -/
def flatPairs : List (Expr × Expr) → Bool
  | [] => true
  | (key, value) :: rest => key.flat && value.flat && flatPairs rest

end

/-- The statements are lets and returns, and the last one may be an expression. All their
expressions are flat. -/
def flatBody : List Stmt → Bool
  | [] => true
  | [.expr _ value] => value.flat
  | .bind _ _ value :: rest => value.flat && flatBody rest
  | .ret _ none :: rest => flatBody rest
  | .ret _ (some value) :: rest => value.flat && flatBody rest
  | _ => false

theorem flatItems_iff {items : List Expr} :
    flatItems items = true ↔ ∀ e ∈ items, e.flat = true := by
  induction items with
  | nil => simp [flatItems]
  | cons e rest ih => simp [flatItems, ih]

theorem flatPairs_iff {pairs : List (Expr × Expr)} :
    flatPairs pairs = true ↔ ∀ p ∈ pairs, p.1.flat = true ∧ p.2.flat = true := by
  induction pairs with
  | nil => simp [flatPairs]
  | cons p rest ih => simp [flatPairs, ih, and_assoc]

/-- A tree with the shape of a flat one is no function, so it does not take a name. -/
theorem Expr.named_eq_of_flat {e e' : Expr} (h : e.flat = true) (hshape : e'.shape = e.shape)
    (name : Bytes) : e'.named name = e' := by
  cases e' with
  | function loc own params body =>
    rw [Expr.shape] at hshape
    cases e with
    | function => cases h
    | _ => rw [Expr.shape] at hshape; cases hshape
  | _ => rfl

end StackScript
