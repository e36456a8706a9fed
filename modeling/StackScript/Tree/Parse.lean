import StackScript.Token.Scan
import StackScript.Tree

/-!
# From tokens to trees

Parsing is by operator precedence. It never stops at a fault: a statement that
cannot be read is left out, the fault is noted, and reading goes on at the token
where it was found. Reading a node leaves the stream on the last token of it.

Every call and every round of a loop either uses up a token or returns, so a
depth that is linear in the number of tokens suffices. The depth is an argument
of the readers; running out of it would be recorded in the stream.

## Main definitions

* `ParseError`: the faults, each with its place.
* `Program.parse`: the program that was read from a source, and its faults.
-/

namespace StackScript

/-- What is wrong with a source. -/
inductive ParseError
  /-- A token of another kind was required. -/
  | expected (pos : Pos) (want got : Token.Kind)
  /-- No expression starts with such a token. -/
  | noExpression (pos : Pos) (got : Token.Kind)
  /-- The number is too large. -/
  | integerRange (pos : Pos) (literal : Bytes)
  /-- The source ends inside a block. -/
  | openBlock (pos : Pos)
  deriving DecidableEq, Repr

namespace ParseError

/-- Where the fault was found. -/
def pos : ParseError → Pos
  | .expected pos .. | .noExpression pos .. | .integerRange pos .. | .openBlock pos => pos

/-- What is said about the fault. -/
def detail : ParseError → Bytes
  | .expected _ want got => "expected next token to be " ++ want.name ++ ", got " ++ got.name
  | .noExpression _ got => "no prefix parse function for " ++ got.name ++ " found"
  | .integerRange _ literal => "could not parse \"" ++ literal ++ "\" as integer"
  | .openBlock _ => "expected '\x7d' to close block"

/-- The message, led by its place. -/
def message (e : ParseError) : Bytes := e.pos.text ++ ": " ++ e.detail

end ParseError

namespace Parse

/-- The tokens still to be read, the current one first, with the faults so far, latest first. At
the end of the tokens the current one is `eof` for ever. -/
structure Stream where
  tokens : List Token
  eof : Token
  errors : List ParseError
  /-- The depth ran out. -/
  spent : Bool

end Parse

/-- A reader of trees: it fails or yields a result, and moves the stream in both cases. -/
def Parse (α : Type) : Type := Parse.Stream → Option α × Parse.Stream

namespace Parse

variable {α β : Type}

/-- Yield a result and stay. -/
@[inline] def pure (a : α) : Parse α := fun s => (some a, s)

/-- Read on after a success. -/
@[inline] def bind (x : Parse α) (f : α → Parse β) : Parse β := fun s =>
  match x s with
  | (some a, s) => f a s
  | (none, s) => (none, s)

instance : Monad Parse where
  pure := pure
  bind := bind

/-- Read and yield the failure as a result. -/
@[inline] def attempt (x : Parse α) : Parse (Option α) := fun s =>
  match x s with
  | (r, s) => (some r, s)

/-- Give up. -/
@[inline] def fail : Parse α := fun s => (none, s)

/-- Note a fault and go on. -/
@[inline] def note (e : ParseError) : Parse Unit := fun s =>
  (some (), { s with errors := e :: s.errors })

/-- Give up because the depth ran out. -/
def exhausted : Parse α := fun s => (none, { s with spent := true })

/-- The current token. -/
@[inline] def current : Parse Token := fun s => (some (s.tokens.headD s.eof), s)

/-- The token after the current one. -/
@[inline] def peek : Parse Token := fun s => (some (s.tokens.tail.headD s.eof), s)

/-- Go to the next token. -/
@[inline] def advance : Parse Unit := fun s => (some (), { s with tokens := s.tokens.tail })

/-- Go to the next token if it is of the given kind; otherwise it is a fault. -/
def expect (kind : Token.Kind) : Parse Unit := do
  let t ← peek
  if t.kind = kind then advance
  else
    note (.expected t.pos kind t.kind)
    fail

end Parse

/-- How tightly a token of this kind binds its operands; all but operators bind least. -/
def Token.Kind.precedence : Token.Kind → Nat
  | .equal | .notEqual => 2
  | .less | .greater => 3
  | .plus | .minus => 4
  | .star | .slash => 5
  | .lparen => 7
  | .lbracket => 8
  | _ => 1

namespace Precedence

/-- Binds least: a whole expression. -/
def lowest : Nat := 1

/-- The operand of an operator with one operand. -/
def operand : Nat := 6

end Precedence

/-- The operator with two operands that is written so. -/
def BinaryOp.ofKind? : Token.Kind → Option BinaryOp
  | .plus => some .add
  | .minus => some .sub
  | .star => some .mul
  | .slash => some .div
  | .less => some .less
  | .greater => some .greater
  | .equal => some .equal
  | .notEqual => some .notEqual
  | _ => none

/-- The largest integer that can be written down. -/
def maxLiteral : Nat := 9223372036854775807

/-- A function literal that is bound to a name takes that name. -/
def Expr.named (name : Bytes) : Expr → Expr
  | .function loc _ params body => .function loc name params body
  | e => e

namespace Parse

/-- The name in the current token. -/
def ident : Parse Ident := do
  let t ← current
  return ⟨.token t.pos, t.literal⟩

/-- The parameters after the first one, put after `acc` reversed, up to the closing parenthesis. -/
def moreParams : Nat → List Ident → Parse (List Ident)
  | 0, _ => exhausted
  | depth + 1, acc => do
    if (← peek).kind = .comma then
      advance
      expect .ident
      let id ← ident
      moreParams depth (id :: acc)
    else
      expect .rparen
      return acc.reverse

/-- The parameters of a function, from its opening to its closing parenthesis. -/
def params (depth : Nat) : Parse (List Ident) := do
  if (← peek).kind = .rparen then
    advance
    return []
  else
    expect .ident
    let id ← ident
    moreParams depth [id]

/-- The integer in the current token. -/
def integer : Parse Expr := do
  let t ← current
  let n := t.literal.decimal
  if n ≤ maxLiteral then return .int (.token t.pos) t.literal (.ofNat n)
  else
    note (.integerRange t.pos t.literal)
    fail

mutual

/-- An expression whose operators bind more tightly than `precedence`. -/
def expr : Nat → Nat → Parse Expr
  | 0, _ => exhausted
  | depth + 1, precedence => do
    let left ← primary depth
    operators depth precedence left

/-- An expression up to its first operator with a left operand. -/
def primary : Nat → Parse Expr
  | 0 => exhausted
  | depth + 1 => do
    let t ← current
    match t.kind with
    | .ident => return .ident (← ident)
    | .int => integer
    | .string => return .string (.token t.pos) t.literal
    | .trueKw => return .bool (.token t.pos) true
    | .falseKw => return .bool (.token t.pos) false
    | .bang => unary depth t.pos .not
    | .minus => unary depth t.pos .neg
    | .lparen => do
      advance
      let e ← attempt (expr depth Precedence.lowest)
      expect .rparen
      match e with
      | some e => return e
      | none => fail
    | .ifKw => conditional depth t.pos
    | .function => do
      expect .lparen
      let ps ← params depth
      expect .lbrace
      let body ← block depth
      let stop ← current
      return .function (.run t.pos stop.pos) [] ps body
    | .lbracket => do
      let items ← list depth .rbracket
      let stop ← current
      return .array (.run t.pos stop.pos) items
    | .lbrace => do
      let ps ← pairs depth []
      let stop ← current
      return .hash (.run t.pos stop.pos) ps
    | kind => do
      note (.noExpression t.pos kind)
      fail

/-- An operator with one operand, from the operator on. -/
def unary : Nat → Pos → UnaryOp → Parse Expr
  | 0, _, _ => exhausted
  | depth + 1, pos, op => do
    advance
    let right ← expr depth Precedence.operand
    return .unary (.run pos right.loc.span.stop) op right

/-- A conditional, from its keyword on. -/
def conditional : Nat → Pos → Parse Expr
  | 0, _ => exhausted
  | depth + 1, pos => do
    expect .lparen
    advance
    let test ← expr depth Precedence.lowest
    expect .rparen
    expect .lbrace
    let yes ← block depth
    if (← peek).kind = .elseKw then
      advance
      expect .lbrace
      let no ← block depth
      let stop ← current
      return .cond (.run pos stop.pos) test yes (some no)
    else
      let stop ← current
      return .cond (.run pos stop.pos) test yes none

/-- Extend `left` by the operators that follow and bind more tightly than `precedence`. -/
def operators : Nat → Nat → Expr → Parse Expr
  | 0, _, _ => exhausted
  | depth + 1, precedence, left => do
    let t ← peek
    if precedence < t.kind.precedence then
      advance
      let start := left.loc.span.start
      match t.kind with
      | .lparen => do
        let args ← list depth .rparen
        let stop ← current
        operators depth precedence (.call ⟨t.pos, ⟨start, stop.pos⟩⟩ left args)
      | .lbracket => do
        advance
        let index ← expr depth Precedence.lowest
        expect .rbracket
        let stop ← current
        operators depth precedence (.index ⟨t.pos, ⟨start, stop.pos⟩⟩ left index)
      | kind =>
        match BinaryOp.ofKind? kind with
        | some op => do
          advance
          let right ← expr depth kind.precedence
          operators depth precedence (.binary ⟨t.pos, ⟨start, right.loc.span.stop⟩⟩ op left right)
        | none => return left
    else return left

/-- Expressions between commas, from the opening delimiter to `close`. -/
def list : Nat → Token.Kind → Parse (List Expr)
  | 0, _ => exhausted
  | depth + 1, close => do
    if (← peek).kind = close then
      advance
      return []
    else
      advance
      let e ← expr depth Precedence.lowest
      moreItems depth close [e]

/-- The expressions after the first one, put after `acc` reversed. -/
def moreItems : Nat → Token.Kind → List Expr → Parse (List Expr)
  | 0, _, _ => exhausted
  | depth + 1, close, acc => do
    if (← peek).kind = .comma then
      advance
      advance
      let e ← expr depth Precedence.lowest
      moreItems depth close (e :: acc)
    else
      expect close
      return acc.reverse

/-- The pairs of a hash literal, put after `acc` reversed. A comma may stand after the last one. -/
def pairs : Nat → List (Expr × Expr) → Parse (List (Expr × Expr))
  | 0, _ => exhausted
  | depth + 1, acc => do
    if (← peek).kind = .rbrace then
      advance
      return acc.reverse
    else
      advance
      let key ← expr depth Precedence.lowest
      expect .colon
      advance
      let value ← expr depth Precedence.lowest
      if (← peek).kind ≠ .rbrace then expect .comma
      pairs depth ((key, value) :: acc)

/-- A block, from its opening to its closing brace. -/
def block : Nat → Parse Block
  | 0 => exhausted
  | depth + 1 => do
    let start ← current
    advance
    let body ← statements depth true []
    let stop ← current
    if stop.kind ≠ .rbrace then note (.openBlock stop.pos)
    return .mk (.run start.pos stop.pos) body

/-- Statements, put after `acc` reversed, up to the end of the block or of the source. -/
def statements : Nat → Bool → List Stmt → Parse (List Stmt)
  | 0, _, _ => exhausted
  | depth + 1, inBlock, acc => do
    let t ← current
    if t.kind = .eof ∨ (inBlock ∧ t.kind = .rbrace) then return acc.reverse
    else if t.kind = .semicolon then
      advance
      statements depth inBlock acc
    else
      let s ← attempt (statement depth)
      advance
      statements depth inBlock (s.toList ++ acc)

/-- A statement, with the semicolon after it. -/
def statement : Nat → Parse Stmt
  | 0 => exhausted
  | depth + 1 => do
    let t ← current
    match t.kind with
    | .letKw => do
      expect .ident
      let id ← ident
      expect .assign
      advance
      let value ← expr depth Precedence.lowest
      if (← peek).kind = .semicolon then advance
      let stop ← current
      return .bind (.run t.pos stop.pos) id (value.named id.name)
    | .returnKw => do
      let p ← peek
      if p.kind = .semicolon then
        advance
        return .ret (.run t.pos p.pos) none
      else if p.kind = .rbrace ∨ p.kind = .eof then return .ret (.run t.pos t.pos) none
      else
        advance
        let value ← expr depth Precedence.lowest
        if (← peek).kind = .semicolon then advance
        let stop ← current
        return .ret (.run t.pos stop.pos) (some value)
    | _ => do
      let value ← expr depth Precedence.lowest
      if (← peek).kind = .semicolon then advance
      return .expr (.run t.pos value.loc.span.stop) value

end

end Parse

/-- The program that was read from a source, and the faults in the order they were found. -/
structure Parsed where
  program : Program
  errors : List ParseError

/-- A depth of reading that suffices for this many tokens. -/
def Parse.depthFor (tokens : Nat) : Nat := 6 * tokens + 12

/-- Read a program. What could be read is there even if there are faults. -/
def Program.parse (source : Bytes) : Parsed :=
  let (tokens, eof) := Token.scan source
  let (body, s) := Parse.statements (Parse.depthFor tokens.length) false [] ⟨tokens, eof, [], false⟩
  ⟨.ofBody (body.getD []), s.errors.reverse⟩

end StackScript
