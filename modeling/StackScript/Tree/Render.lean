import StackScript.Tree

/-!
# Trees as text

A tree is rendered back to source-like text, with every operator application in
parentheses. The text identifies the keys of a hash literal, whose order of
evaluation it decides.

## Main definitions

* `Expr.render`, `Stmt.render`, `Program.render`: the text of a node.
* `Expr.renderable` and its companions: no hole stands where the text needs a
  part. The value of a binding and of an expression statement may be a hole.
-/

namespace StackScript

mutual

/-- The text of an expression. -/
def Expr.render : Expr → Bytes
  | .ident id => id.name
  | .int _ literal _ => literal
  | .string _ value => value
  | .bool _ value => .ofBool value
  | .unary _ op right => "(" ++ op.text ++ right.render ++ ")"
  | .binary _ op left right => "(" ++ left.render ++ " " ++ op.text ++ " " ++ right.render ++ ")"
  | .cond _ test yes no => "if" ++ test.render ++ " " ++ yes.render ++ renderElse no
  | .function _ name params body =>
    let label : Bytes := if name = [] then [] else "<" ++ name ++ ">"
    "fn" ++ label ++ "(" ++ Bytes.join ", " (params.map (·.name)) ++ ") " ++ body.render
  | .call _ callee args => callee.render ++ "(" ++ Bytes.join ", " (renderItems args) ++ ")"
  | .array _ items => "[" ++ Bytes.join ", " (renderItems items) ++ "]"
  | .hash _ pairs => "\x7b" ++ Bytes.join ", " (renderPairs pairs) ++ "\x7d"
  | .index _ left index => "(" ++ left.render ++ "[" ++ index.render ++ "])"
  | .missing => []

/-- The texts of the elements of a list. -/
def renderItems : List Expr → List Bytes
  | [] => []
  | e :: rest => e.render :: renderItems rest

/-- The texts of the pairs of a hash literal. -/
def renderPairs : List (Expr × Expr) → List Bytes
  | [] => []
  | (key, value) :: rest => (key.render ++ ":" ++ value.render) :: renderPairs rest

/-- The text of an alternative, if there is one. -/
def renderElse : Option Block → Bytes
  | none => []
  | some b => "else " ++ b.render

/-- The text of a block: its statements without the braces. -/
def Block.render : Block → Bytes
  | .mk _ body => renderBody body

/-- The texts of statements, one after another. -/
def renderBody : List Stmt → Bytes
  | [] => []
  | s :: rest => s.render ++ renderBody rest

/-- The text of a statement. -/
def Stmt.render : Stmt → Bytes
  | .bind _ id value => "let " ++ id.name ++ " = " ++ value.render ++ ";"
  | .ret _ none => "return;"
  | .ret _ (some value) => "return " ++ value.render ++ ";"
  | .expr _ value => value.render
  | .block body => body.render
  | .missing => []

end

mutual

/-- No hole stands where the text of the expression needs a part. -/
def Expr.renderable : Expr → Bool
  | .ident _ | .int .. | .string .. | .bool .. => true
  | .unary _ _ right => right.renderable
  | .binary _ _ left right => left.renderable && right.renderable
  | .cond _ test yes no => test.renderable && yes.renderable && renderableElse no
  | .function _ _ _ body => body.renderable
  | .call _ callee args => callee.renderable && renderableItems args
  | .array _ items => renderableItems items
  | .hash _ pairs => renderablePairs pairs
  | .index _ left index => left.renderable && index.renderable
  | .missing => false

/-- All elements are renderable. -/
def renderableItems : List Expr → Bool
  | [] => true
  | e :: rest => e.renderable && renderableItems rest

/-- All keys and values are renderable. -/
def renderablePairs : List (Expr × Expr) → Bool
  | [] => true
  | (key, value) :: rest => key.renderable && value.renderable && renderablePairs rest

/-- The alternative is renderable if there is one. -/
def renderableElse : Option Block → Bool
  | none => true
  | some b => b.renderable

/-- All statements of the block are renderable. -/
def Block.renderable : Block → Bool
  | .mk _ body => renderableBody body

/-- All statements are renderable. -/
def renderableBody : List Stmt → Bool
  | [] => true
  | s :: rest => s.renderable && renderableBody rest

/-- No hole stands where the text of the statement needs a part. -/
def Stmt.renderable : Stmt → Bool
  | .bind _ _ .missing | .expr _ .missing | .ret _ none => true
  | .bind _ _ value | .expr _ value | .ret _ (some value) => value.renderable
  | .block body => body.renderable
  | .missing => false

end

/-- The text of a program. -/
def Program.render (p : Program) : Bytes := renderBody p.body

/-- No hole stands where the text of the program needs a part. -/
def Program.renderable (p : Program) : Bool := renderableBody p.body

end StackScript
