import StackScript.Tree

/-!
# Induction on trees

Expressions and statements are built from each other through lists of elements,
pairs, branches and bodies. To show a property of all expressions and another
one of all statements, it is enough to show each for a node whose parts have
theirs, where the parts are named by membership.

## Main definitions

* `Within`: the parts of a tree.
* `TreeSteps`: the steps of an induction on trees.
-/

namespace StackScript

/-- The statements of an alternative, if there is one. -/
def Block.elseBody : Option Block → List Stmt
  | none => []
  | some b => b.body

/-- The expression is the node or a part of it, at any depth and in functions too. -/
inductive Within (e : Expr) : Expr ⊕ Stmt → Prop
  | self : Within e (.inl e)
  | operand {loc : Loc} {op : UnaryOp} {right : Expr} :
    Within e (.inl right) → Within e (.inl (.unary loc op right))
  | left {loc : Loc} {op : BinaryOp} {left right : Expr} :
    Within e (.inl left) → Within e (.inl (.binary loc op left right))
  | right {loc : Loc} {op : BinaryOp} {left right : Expr} :
    Within e (.inl right) → Within e (.inl (.binary loc op left right))
  | test {loc : Loc} {test : Expr} {yes : Block} {no : Option Block} :
    Within e (.inl test) → Within e (.inl (.cond loc test yes no))
  | yes {loc : Loc} {test : Expr} {yes : Block} {no : Option Block} {s : Stmt} :
    s ∈ yes.body → Within e (.inr s) → Within e (.inl (.cond loc test yes no))
  | no {loc : Loc} {test : Expr} {yes : Block} {no : Option Block} {s : Stmt} :
    s ∈ Block.elseBody no → Within e (.inr s) → Within e (.inl (.cond loc test yes no))
  | function {loc : Loc} {name : Bytes} {params : List Ident} {body : Block} {s : Stmt} :
    s ∈ body.body → Within e (.inr s) → Within e (.inl (.function loc name params body))
  | callee {loc : Loc} {callee : Expr} {args : List Expr} :
    Within e (.inl callee) → Within e (.inl (.call loc callee args))
  | arg {loc : Loc} {callee a : Expr} {args : List Expr} :
    a ∈ args → Within e (.inl a) → Within e (.inl (.call loc callee args))
  | item {loc : Loc} {a : Expr} {items : List Expr} :
    a ∈ items → Within e (.inl a) → Within e (.inl (.array loc items))
  | key {loc : Loc} {p : Expr × Expr} {pairs : List (Expr × Expr)} :
    p ∈ pairs → Within e (.inl p.1) → Within e (.inl (.hash loc pairs))
  | value {loc : Loc} {p : Expr × Expr} {pairs : List (Expr × Expr)} :
    p ∈ pairs → Within e (.inl p.2) → Within e (.inl (.hash loc pairs))
  | indexed {loc : Loc} {left index : Expr} :
    Within e (.inl left) → Within e (.inl (.index loc left index))
  | index {loc : Loc} {left index : Expr} :
    Within e (.inl index) → Within e (.inl (.index loc left index))
  | bind {loc : Loc} {id : Ident} {value : Expr} :
    Within e (.inl value) → Within e (.inr (.bind loc id value))
  | ret {loc : Loc} {value : Expr} :
    Within e (.inl value) → Within e (.inr (.ret loc (some value)))
  | expr {loc : Loc} {value : Expr} :
    Within e (.inl value) → Within e (.inr (.expr loc value))
  | block {body : Block} {s : Stmt} :
    s ∈ body.body → Within e (.inr s) → Within e (.inr (.block body))

/-- The steps of an induction on trees. -/
structure TreeSteps (P : Expr → Prop) (Q : Stmt → Prop) : Prop where
  ident : ∀ id, P (.ident id)
  int : ∀ loc literal value, P (.int loc literal value)
  string : ∀ loc value, P (.string loc value)
  bool : ∀ loc value, P (.bool loc value)
  unary : ∀ loc op right, P right → P (.unary loc op right)
  binary : ∀ loc op left right, P left → P right → P (.binary loc op left right)
  cond : ∀ loc test yes no, P test → (∀ s ∈ yes.body, Q s) → (∀ s ∈ Block.elseBody no, Q s) →
    P (.cond loc test yes no)
  function : ∀ loc name params body, (∀ s ∈ body.body, Q s) → P (.function loc name params body)
  call : ∀ loc callee args, P callee → (∀ e ∈ args, P e) → P (.call loc callee args)
  array : ∀ loc items, (∀ e ∈ items, P e) → P (.array loc items)
  hash : ∀ loc pairs, (∀ p ∈ pairs, P p.1 ∧ P p.2) → P (.hash loc pairs)
  index : ∀ loc left index, P left → P index → P (.index loc left index)
  missing : P .missing
  bind : ∀ loc id value, P value → Q (.bind loc id value)
  retNone : ∀ loc, Q (.ret loc none)
  ret : ∀ loc value, P value → Q (.ret loc (some value))
  expr : ∀ loc value, P value → Q (.expr loc value)
  block : ∀ body, (∀ s ∈ body.body, Q s) → Q (.block body)
  missingStmt : Q .missing

namespace TreeSteps

variable {P : Expr → Prop} {Q : Stmt → Prop}

mutual

/-- Every expression has the property. -/
theorem expr_all (h : TreeSteps P Q) : (e : Expr) → P e
  | .ident id => h.ident id
  | .int loc literal value => h.int loc literal value
  | .string loc value => h.string loc value
  | .bool loc value => h.bool loc value
  | .unary loc op right => h.unary loc op right (h.expr_all right)
  | .binary loc op left right => h.binary loc op left right (h.expr_all left) (h.expr_all right)
  | .cond loc test yes no =>
    h.cond loc test yes no (h.expr_all test) (h.block_all yes) (h.else_all no)
  | .function loc name params body => h.function loc name params body (h.block_all body)
  | .call loc callee args => h.call loc callee args (h.expr_all callee) (h.items_all args)
  | .array loc items => h.array loc items (h.items_all items)
  | .hash loc pairs => h.hash loc pairs (h.pairs_all pairs)
  | .index loc left index => h.index loc left index (h.expr_all left) (h.expr_all index)
  | .missing => h.missing

/-- Every statement has the property. -/
theorem stmt_all (h : TreeSteps P Q) : (s : Stmt) → Q s
  | .bind loc id value => h.bind loc id value (h.expr_all value)
  | .ret loc none => h.retNone loc
  | .ret loc (some value) => h.ret loc value (h.expr_all value)
  | .expr loc value => h.expr loc value (h.expr_all value)
  | .block body => h.block body (h.block_all body)
  | .missing => h.missingStmt

theorem block_all (h : TreeSteps P Q) : (b : Block) → ∀ s ∈ b.body, Q s
  | .mk _ body => h.body_all body

theorem else_all (h : TreeSteps P Q) : (b : Option Block) → ∀ s ∈ Block.elseBody b, Q s
  | none => by simp [Block.elseBody]
  | some b => h.block_all b

theorem body_all (h : TreeSteps P Q) : (body : List Stmt) → ∀ s ∈ body, Q s
  | [] => by simp
  | s :: rest => List.forall_mem_cons.2 ⟨h.stmt_all s, h.body_all rest⟩

theorem items_all (h : TreeSteps P Q) : (items : List Expr) → ∀ e ∈ items, P e
  | [] => by simp
  | e :: rest => List.forall_mem_cons.2 ⟨h.expr_all e, h.items_all rest⟩

theorem pairs_all (h : TreeSteps P Q) : (pairs : List (Expr × Expr)) → ∀ p ∈ pairs, P p.1 ∧ P p.2
  | [] => by simp
  | (key, value) :: rest =>
    List.forall_mem_cons.2 ⟨⟨h.expr_all key, h.expr_all value⟩, h.pairs_all rest⟩

end

end TreeSteps

end StackScript
