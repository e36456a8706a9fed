import StackScript.Position

/-!
# Syntax trees

A program is a list of statements. Every node carries where it stands in its
source. A tree may have holes, `missing` nodes, where a required part is absent;
trees that are read from a source have none.

## Main definitions

* `Expr`, `Stmt`, `Block`: the three mutually dependent kinds of node.
* `Program`: the root.
-/

namespace StackScript

/-- A name at a place. -/
structure Ident where
  loc : Loc
  name : Bytes
  deriving DecidableEq, Repr, Inhabited

/-- The operators with one operand. `other` is an operator that the language does not have. -/
inductive UnaryOp
  | not
  | neg
  | other (text : Bytes)
  deriving DecidableEq, Repr

/-- The operators with two operands. `other` is an operator that the language does not have. -/
inductive BinaryOp
  | add | sub | mul | div | less | greater | equal | notEqual
  | other (text : Bytes)
  deriving DecidableEq, Repr

namespace UnaryOp

/-- How the operator is written. -/
def text : UnaryOp → Bytes
  | .not => "!"
  | .neg => "-"
  | .other text => text

/-- The operator that is written so. -/
def ofText (text : Bytes) : UnaryOp :=
  if text = "!" then .not else if text = "-" then .neg else .other text

end UnaryOp

namespace BinaryOp

/-- How the operator is written. -/
def text : BinaryOp → Bytes
  | .add => "+"
  | .sub => "-"
  | .mul => "*"
  | .div => "/"
  | .less => "<"
  | .greater => ">"
  | .equal => "=="
  | .notEqual => "!="
  | .other text => text

/-- The operators of the language. -/
def known : List BinaryOp := [.add, .sub, .mul, .div, .less, .greater, .equal, .notEqual]

/-- The operator that is written so. -/
def ofText (text : Bytes) : BinaryOp := (known.find? (·.text = text)).getD (.other text)

end BinaryOp

mutual

/-- An expression produces a value. -/
inductive Expr
  | ident (id : Ident)
  | int (loc : Loc) (literal : Bytes) (value : Int64)
  | string (loc : Loc) (value : Bytes)
  | bool (loc : Loc) (value : Bool)
  | unary (loc : Loc) (op : UnaryOp) (right : Expr)
  | binary (loc : Loc) (op : BinaryOp) (left right : Expr)
  | cond (loc : Loc) (test : Expr) (yes : Block) (no : Option Block)
  | function (loc : Loc) (name : Bytes) (params : List Ident) (body : Block)
  | call (loc : Loc) (callee : Expr) (args : List Expr)
  | array (loc : Loc) (items : List Expr)
  | hash (loc : Loc) (pairs : List (Expr × Expr))
  | index (loc : Loc) (left index : Expr)
  | missing

/-- A statement is executed for its effect. -/
inductive Stmt
  | bind (loc : Loc) (id : Ident) (value : Expr)
  | ret (loc : Loc) (value : Option Expr)
  | expr (loc : Loc) (value : Expr)
  | block (body : Block)
  | missing

/-- Statements between braces. -/
inductive Block
  | mk (loc : Loc) (body : List Stmt)

end

instance : Inhabited Expr := ⟨.missing⟩
instance : Inhabited Stmt := ⟨.missing⟩
instance : Inhabited Block := ⟨.mk .none []⟩

/-- The root of a tree, with the stretch from its first statement to its last. -/
structure Program where
  span : Span
  body : List Stmt

namespace Block

/-- Where the block stands. -/
def loc : Block → Loc
  | .mk loc _ => loc

/-- The statements of the block. -/
def body : Block → List Stmt
  | .mk _ body => body

end Block

namespace Expr

/-- Where the expression stands. -/
def loc : Expr → Loc
  | .ident id => id.loc
  | .int loc .. | .string loc .. | .bool loc .. | .unary loc .. | .binary loc .. | .cond loc ..
  | .function loc .. | .call loc .. | .array loc .. | .hash loc .. | .index loc .. => loc
  | .missing => .none

end Expr

namespace Stmt

/-- Where the statement stands. -/
def loc : Stmt → Loc
  | .bind loc .. | .ret loc .. | .expr loc .. => loc
  | .block body => body.loc
  | .missing => .none

end Stmt

namespace Program

/-- The program with the given statements. -/
def ofBody (body : List Stmt) : Program where
  body := body
  span :=
    match body.head?, body.getLast? with
    | some first, some last => ⟨first.loc.span.start, last.loc.span.stop⟩
    | _, _ => ⟨.none, .none⟩

/-- A program stands where its first statement does. -/
def pos (p : Program) : Pos :=
  match p.body with
  | [] => .none
  | s :: _ => s.loc.pos

end Program

end StackScript
