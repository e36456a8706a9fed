import Mathlib.Algebra.Group.Nat.Defs
import Mathlib.Data.List.Basic
import StackScript.Tree.Parse

/-!
# The grammar of programs

A phrase of the language is derived from the tokens it is written with. The
grammar says which tokens these are and what tree they stand for:

    body      = (statement | ";")*
    statement = "let" Ident "=" expr [";"] | "return" [expr] [";"] | expr [";"]
    block     = "{" body "}"
    unit      = Ident | Int | String | "true" | "false" | "(" expr ")"
              | "if" "(" expr ")" block ["else" block] | "fn" "(" params ")" block
              | "[" items "]" | "{" pairs "}"
    params    = [Ident ("," Ident)*]
    items     = [expr ("," expr)*]
    pairs     = (expr ":" expr ",")* [expr ":" expr]

Expressions have levels. Operators with two operands are on the levels from 2 to
5 and group to the left; operators with one operand are on level 6, calls and
indexing on level 7, and units on level 8. A whole expression is of level 2.

The grammar is ambiguous, since a semicolon may be left out between statements.
It is *strict* to have every statement followed by a semicolon, by the end of its
block or by the end of the source.

## Main definitions

* `Grammar.Phrase`: what can be derived, with the tree it stands for.
* `Grammar.Derives`: a phrase is derived from tokens and leaves the rest of them.
* `Token.Kind.starts`: the tokens that an expression may start with.

## Main results

* `Grammar.Derives.suffix`: a phrase is written with the tokens before the rest.
* `Grammar.Derives.first`: how expressions and statements start.
-/

namespace StackScript

namespace Grammar

/-- The operators with one operand. -/
inductive Sign : Token.Kind → UnaryOp → Prop
  | not : Sign .bang .not
  | neg : Sign .minus .neg

/-- The operators with two operands and their levels. -/
inductive Operator : Nat → Token.Kind → BinaryOp → Prop
  | equal : Operator 2 .equal .equal
  | notEqual : Operator 2 .notEqual .notEqual
  | less : Operator 3 .less .less
  | greater : Operator 3 .greater .greater
  | add : Operator 4 .plus .add
  | sub : Operator 4 .minus .sub
  | mul : Operator 5 .star .mul
  | div : Operator 5 .slash .div

/-- The name that a token is. -/
def ident (t : Token) : Ident := ⟨.token t.pos, t.literal⟩

/-- Names, each after a comma: `("," Ident)*`. -/
inductive MoreParams : List Ident → List Token → List Token → Prop
  | nil {rest : List Token} : MoreParams [] rest rest
  | cons {c t : Token} {ids : List Ident} {ts rest : List Token} (hc : c.kind = .comma)
    (ht : t.kind = .ident) (hids : MoreParams ids ts rest) :
    MoreParams (ident t :: ids) (c :: t :: ts) rest

/-- Names between commas: `[Ident ("," Ident)*]`. -/
inductive Params : List Ident → List Token → List Token → Prop
  | nil {rest : List Token} : Params [] rest rest
  | cons {t : Token} {ids : List Ident} {ts rest : List Token} (ht : t.kind = .ident)
    (hids : MoreParams ids ts rest) : Params (ident t :: ids) (t :: ts) rest

/-- The end of a statement after its last token, with the place where it is said to end. A
semicolon counts for that even if it is not taken to be a part of the statement. -/
inductive Ending (strict : Prop) (last : Token) : List Token → List Token → Pos → Prop
  | taken {t : Token} {rest : List Token} (ht : t.kind = .semicolon) :
    Ending strict last (t :: rest) rest t.pos
  | left {t : Token} {rest : List Token} (ht : t.kind = .semicolon) :
    Ending strict last (t :: rest) (t :: rest) t.pos
  | bare {rest : List Token} (hnext : ∀ t ∈ rest.head?, t.kind ≠ .semicolon)
    (hstrict : strict → ∀ t ∈ rest.head?, t.kind = .rbrace) : Ending strict last rest rest last.pos

/-- What is derived from tokens. Expressions and blocks come with the last of their tokens. -/
inductive Phrase
  | expr (level : Nat) (e : Expr) (last : Token)
  /-- Expressions between commas. -/
  | items (es : List Expr)
  /-- Expressions, each after a comma. -/
  | moreItems (es : List Expr)
  /-- Pairs between commas. A comma may stand after the last one. -/
  | pairs (ps : List (Expr × Expr))
  | block (b : Block) (last : Token)
  | stmt (s : Stmt)
  | body (ss : List Stmt)

/-- The phrase is derived from the tokens before the rest. -/
inductive Derives (strict : Prop) : Phrase → List Token → List Token → Prop
  | ident {t : Token} {rest : List Token} (ht : t.kind = .ident) :
    Derives strict (.expr 8 (.ident (ident t)) t) (t :: rest) rest
  | int {t : Token} {rest : List Token} (ht : t.kind = .int) (hn : t.literal.decimal < 2 ^ 63) :
    Derives strict (.expr 8 (.int (.token t.pos) t.literal (.ofNat t.literal.decimal)) t)
      (t :: rest) rest
  | string {t : Token} {rest : List Token} (ht : t.kind = .string) :
    Derives strict (.expr 8 (.string (.token t.pos) t.literal) t) (t :: rest) rest
  | trueKw {t : Token} {rest : List Token} (ht : t.kind = .trueKw) :
    Derives strict (.expr 8 (.bool (.token t.pos) true) t) (t :: rest) rest
  | falseKw {t : Token} {rest : List Token} (ht : t.kind = .falseKw) :
    Derives strict (.expr 8 (.bool (.token t.pos) false) t) (t :: rest) rest
  -- "(" expr ")"
  | group {l r last : Token} {e : Expr} {ts rest : List Token} (hl : l.kind = .lparen)
    (he : Derives strict (.expr 2 e last) ts (r :: rest)) (hr : r.kind = .rparen) :
    Derives strict (.expr 8 e r) (l :: ts) rest
  -- "if" "(" expr ")" block
  | cond {i l r last stop : Token} {test : Expr} {yes : Block} {ts us rest : List Token}
    (hi : i.kind = .ifKw) (hl : l.kind = .lparen)
    (htest : Derives strict (.expr 2 test last) ts (r :: us)) (hr : r.kind = .rparen)
    (hyes : Derives strict (.block yes stop) us rest) :
    Derives strict (.expr 8 (.cond (.run i.pos stop.pos) test yes none) stop) (i :: l :: ts) rest
  -- "if" "(" expr ")" block "else" block
  | condElse {i l r k last brace stop : Token} {test : Expr} {yes no : Block}
    {ts us vs rest : List Token} (hi : i.kind = .ifKw) (hl : l.kind = .lparen)
    (htest : Derives strict (.expr 2 test last) ts (r :: us)) (hr : r.kind = .rparen)
    (hyes : Derives strict (.block yes brace) us (k :: vs)) (hk : k.kind = .elseKw)
    (hno : Derives strict (.block no stop) vs rest) :
    Derives strict (.expr 8 (.cond (.run i.pos stop.pos) test yes (some no)) stop)
      (i :: l :: ts) rest
  -- "fn" "(" params ")" block
  | function {f l r stop : Token} {ps : List Ident} {b : Block} {ts us rest : List Token}
    (hf : f.kind = .function) (hl : l.kind = .lparen) (hps : Params ps ts (r :: us))
    (hr : r.kind = .rparen) (hb : Derives strict (.block b stop) us rest) :
    Derives strict (.expr 8 (.function (.run f.pos stop.pos) [] ps b) stop) (f :: l :: ts) rest
  -- "[" items "]"
  | array {l r : Token} {es : List Expr} {ts rest : List Token} (hl : l.kind = .lbracket)
    (hes : Derives strict (.items es) ts (r :: rest)) (hr : r.kind = .rbracket) :
    Derives strict (.expr 8 (.array (.run l.pos r.pos) es) r) (l :: ts) rest
  -- "{" pairs "}"
  | hash {l r : Token} {ps : List (Expr × Expr)} {ts rest : List Token} (hl : l.kind = .lbrace)
    (hps : Derives strict (.pairs ps) ts (r :: rest)) (hr : r.kind = .rbrace) :
    Derives strict (.expr 8 (.hash (.run l.pos r.pos) ps) r) (l :: ts) rest
  -- expr "(" items ")"
  | call {l r last : Token} {callee : Expr} {args : List Expr} {ts us rest : List Token}
    (hcallee : Derives strict (.expr 7 callee last) ts (l :: us)) (hl : l.kind = .lparen)
    (hargs : Derives strict (.items args) us (r :: rest)) (hr : r.kind = .rparen) :
    Derives strict (.expr 7 (.call ⟨l.pos, ⟨callee.loc.span.start, r.pos⟩⟩ callee args) r) ts rest
  -- expr "[" expr "]"
  | index {l r last last' : Token} {left i : Expr} {ts us rest : List Token}
    (hleft : Derives strict (.expr 7 left last) ts (l :: us)) (hl : l.kind = .lbracket)
    (hi : Derives strict (.expr 2 i last') us (r :: rest)) (hr : r.kind = .rbracket) :
    Derives strict (.expr 7 (.index ⟨l.pos, ⟨left.loc.span.start, r.pos⟩⟩ left i) r) ts rest
  | unary {t last : Token} {op : UnaryOp} {right : Expr} {ts rest : List Token}
    (hop : Sign t.kind op) (hright : Derives strict (.expr 6 right last) ts rest) :
    Derives strict (.expr 6 (.unary (.run t.pos right.loc.span.stop) op right) last) (t :: ts) rest
  /-- The left operand may have the same operator again, but not the right one. -/
  | binary {n : Nat} {t last last' : Token} {op : BinaryOp} {left right : Expr}
    {ts us rest : List Token} (hleft : Derives strict (.expr n left last) ts (t :: us))
    (hop : Operator n t.kind op) (hright : Derives strict (.expr (n + 1) right last') us rest) :
    Derives strict
      (.expr n (.binary ⟨t.pos, ⟨left.loc.span.start, right.loc.span.stop⟩⟩ op left right) last')
      ts rest
  | lower {n : Nat} {e : Expr} {last : Token} {ts rest : List Token}
    (he : Derives strict (.expr (n + 1) e last) ts rest) : Derives strict (.expr n e last) ts rest
  | noItems {rest : List Token} : Derives strict (.items []) rest rest
  | someItems {e : Expr} {es : List Expr} {last : Token} {ts us rest : List Token}
    (he : Derives strict (.expr 2 e last) ts us) (hes : Derives strict (.moreItems es) us rest) :
    Derives strict (.items (e :: es)) ts rest
  | noMoreItems {rest : List Token} : Derives strict (.moreItems []) rest rest
  | moreItems {c last : Token} {e : Expr} {es : List Expr} {ts us rest : List Token}
    (hc : c.kind = .comma) (he : Derives strict (.expr 2 e last) ts us)
    (hes : Derives strict (.moreItems es) us rest) :
    Derives strict (.moreItems (e :: es)) (c :: ts) rest
  | noPairs {rest : List Token} : Derives strict (.pairs []) rest rest
  | lastPair {c last last' : Token} {key value : Expr} {ts us rest : List Token}
    (hkey : Derives strict (.expr 2 key last) ts (c :: us)) (hc : c.kind = .colon)
    (hvalue : Derives strict (.expr 2 value last') us rest) :
    Derives strict (.pairs [(key, value)]) ts rest
  | morePairs {c m last last' : Token} {key value : Expr} {ps : List (Expr × Expr)}
    {ts us vs rest : List Token} (hkey : Derives strict (.expr 2 key last) ts (c :: us))
    (hc : c.kind = .colon) (hvalue : Derives strict (.expr 2 value last') us (m :: vs))
    (hm : m.kind = .comma) (hps : Derives strict (.pairs ps) vs rest) :
    Derives strict (.pairs ((key, value) :: ps)) ts rest
  -- "{" body "}"
  | block {l r : Token} {ss : List Stmt} {ts rest : List Token} (hl : l.kind = .lbrace)
    (hss : Derives strict (.body ss) ts (r :: rest)) (hr : r.kind = .rbrace) :
    Derives strict (.block (.mk (.run l.pos r.pos) ss) r) (l :: ts) rest
  -- "let" Ident "=" expr [";"]
  | bind {l t a last : Token} {value : Expr} {stop : Pos} {ts us rest : List Token}
    (hl : l.kind = .letKw) (ht : t.kind = .ident) (ha : a.kind = .assign)
    (hvalue : Derives strict (.expr 2 value last) ts us) (hend : Ending strict last us rest stop) :
    Derives strict (.stmt (.bind (.run l.pos stop) (Grammar.ident t) (value.named t.literal)))
      (l :: t :: a :: ts) rest
  -- "return" [";"]
  | retNone {r : Token} {stop : Pos} {ts rest : List Token} (hr : r.kind = .returnKw)
    (hend : Ending strict r ts rest stop) :
    Derives strict (.stmt (.ret (.run r.pos stop) none)) (r :: ts) rest
  -- "return" expr [";"]
  | ret {r last : Token} {value : Expr} {stop : Pos} {ts us rest : List Token}
    (hr : r.kind = .returnKw) (hvalue : Derives strict (.expr 2 value last) ts us)
    (hend : Ending strict last us rest stop) :
    Derives strict (.stmt (.ret (.run r.pos stop) (some value))) (r :: ts) rest
  -- expr [";"]
  | expr {t last : Token} {value : Expr} {stop : Pos} {ts us rest : List Token}
    (hvalue : Derives strict (.expr 2 value last) (t :: ts) us)
    (hend : Ending strict last us rest stop) :
    Derives strict (.stmt (.expr (.run t.pos value.loc.span.stop) value)) (t :: ts) rest
  | done {rest : List Token} : Derives strict (.body []) rest rest
  | semicolon {t : Token} {ss : List Stmt} {ts rest : List Token} (ht : t.kind = .semicolon)
    (hss : Derives strict (.body ss) ts rest) : Derives strict (.body ss) (t :: ts) rest
  | statement {s : Stmt} {ss : List Stmt} {ts us rest : List Token}
    (hs : Derives strict (.stmt s) ts us) (hss : Derives strict (.body ss) us rest) :
    Derives strict (.body (s :: ss)) ts rest

/-! ### The tokens of a phrase -/

variable {strict : Prop} {p : Phrase} {ts rest : List Token}

theorem suffix_of_cons {t : Token} (h : t :: rest <:+ ts) : rest <:+ ts :=
  (List.suffix_cons t rest).trans h

theorem suffix_cons_of {t : Token} (h : rest <:+ ts) : rest <:+ t :: ts :=
  h.trans (List.suffix_cons t ts)

theorem MoreParams.suffix {ids : List Ident} (h : MoreParams ids ts rest) : rest <:+ ts := by
  induction h with
  | nil => exact List.suffix_refl _
  | cons _ _ _ ih => exact suffix_cons_of (suffix_cons_of ih)

theorem Params.suffix {ids : List Ident} (h : Params ids ts rest) : rest <:+ ts := by
  cases h with
  | nil => exact List.suffix_refl _
  | cons _ hids => exact suffix_cons_of hids.suffix

theorem Ending.suffix {last : Token} {stop : Pos} (h : Ending strict last ts rest stop) :
    rest <:+ ts := by
  cases h with
  | taken => exact List.suffix_cons _ _
  | left => exact List.suffix_refl _
  | bare => exact List.suffix_refl _

/-- A phrase is written with the tokens before the rest. -/
theorem Derives.suffix (h : Derives strict p ts rest) : rest <:+ ts := by
  induction h with
  | ident | int | string | trueKw | falseKw => exact List.suffix_cons _ _
  | group _ _ _ ih | array _ _ _ ih | hash _ _ _ ih | block _ _ _ ih =>
    exact suffix_cons_of (suffix_of_cons ih)
  | cond _ _ _ _ _ ihtest ihyes =>
    exact suffix_cons_of (suffix_cons_of (ihyes.trans (suffix_of_cons ihtest)))
  | condElse _ _ _ _ _ _ _ ihtest ihyes ihno =>
    have hblocks := ihno.trans (suffix_of_cons ihyes)
    exact suffix_cons_of (suffix_cons_of (hblocks.trans (suffix_of_cons ihtest)))
  | function _ _ hps _ _ ih =>
    exact suffix_cons_of (suffix_cons_of (ih.trans (suffix_of_cons hps.suffix)))
  | call _ _ _ _ ih ih' | index _ _ _ _ ih ih' =>
    exact (suffix_of_cons ih').trans (suffix_of_cons ih)
  | binary _ _ _ ih ih' | lastPair _ _ _ ih ih' => exact ih'.trans (suffix_of_cons ih)
  | unary _ _ ih | semicolon _ _ ih => exact suffix_cons_of ih
  | lower _ ih => exact ih
  | noItems | noMoreItems | noPairs | done => exact List.suffix_refl _
  | someItems _ _ ih ih' | statement _ _ ih ih' => exact ih'.trans ih
  | moreItems _ _ _ ih ih' => exact suffix_cons_of (ih'.trans ih)
  | morePairs _ _ _ _ _ ihkey ihvalue ihps =>
    exact (ihps.trans (suffix_of_cons ihvalue)).trans (suffix_of_cons ihkey)
  | bind _ _ _ _ hend ih =>
    exact suffix_cons_of (suffix_cons_of (suffix_cons_of (hend.suffix.trans ih)))
  | retNone _ hend => exact suffix_cons_of hend.suffix
  | ret _ _ hend ih => exact suffix_cons_of (hend.suffix.trans ih)
  | expr _ hend ih => exact hend.suffix.trans ih

/-- The number of tokens that a phrase is written with at least. -/
def Phrase.least : Phrase → Nat
  | .expr .. | .block .. | .stmt _ => 1
  | .items _ | .moreItems _ | .pairs _ | .body _ => 0

theorem Derives.length_le (h : Derives strict p ts rest) : rest.length + p.least ≤ ts.length := by
  induction h with
  | function _ _ hps _ _ ih =>
    have hlength := hps.suffix.length_le
    simp only [Phrase.least, List.length_cons] at *
    omega
  | bind _ _ _ _ hend ih | ret _ _ hend ih | expr _ hend ih =>
    have hlength := hend.suffix.length_le
    simp only [Phrase.least, List.length_cons] at *
    omega
  | retNone _ hend =>
    have hlength := hend.suffix.length_le
    simp only [Phrase.least, List.length_cons]
    omega
  | _ =>
    simp only [Phrase.least, List.length_cons] at *
    omega

theorem Derives.length_lt (h : Derives strict p ts rest) (hp : p.least = 1) :
    rest.length < ts.length := by
  have hle := h.length_le
  rwa [hp] at hle

theorem Derives.length_lt_of_cons {t : Token} (h : Derives strict p ts (t :: rest)) :
    rest.length < ts.length :=
  Nat.lt_of_lt_of_le (Nat.lt_succ_self _) h.suffix.length_le

end Grammar

/-! ### How phrases start -/

/-- An expression may start with a token of this kind. -/
def Token.Kind.starts : Token.Kind → Bool
  | .ident | .int | .string | .trueKw | .falseKw | .bang | .minus | .lparen | .ifKw | .function
  | .lbracket | .lbrace => true
  | _ => false

theorem Token.Kind.ne_of_starts {kind kind' : Token.Kind} (h : kind.starts = true)
    (h' : kind'.starts = false) : kind ≠ kind' := by
  rintro rfl
  rw [h] at h'
  cases h'

namespace Grammar

variable {strict : Prop} {ts rest : List Token}

theorem Sign.starts {kind : Token.Kind} {op : UnaryOp} (h : Sign kind op) : kind.starts = true := by
  cases h <;> rfl

theorem Derives.first {n : Nat} {e : Expr} {last : Token}
    (h : Derives strict (.expr n e last) ts rest) :
    ∃ t us, ts = t :: us ∧ t.kind.starts = true := by
  generalize hp : Phrase.expr n e last = p at h
  induction h generalizing n e last with
  | ident ht | int ht | string ht | trueKw ht | falseKw ht | group ht | cond ht | condElse ht
  | function ht | array ht | hash ht => exact ⟨_, _, rfl, by rw [ht]; rfl⟩
  | unary hop => exact ⟨_, _, rfl, hop.starts⟩
  | call _ _ _ _ ih | index _ _ _ _ ih | binary _ _ _ ih | lower _ ih => exact ih rfl
  | _ => cases hp

/-- A statement starts with a token that ends no statement and no block. -/
theorem Derives.first_stmt {s : Stmt} (h : Derives strict (.stmt s) ts rest) :
    ∃ t us, ts = t :: us ∧ t.kind ≠ .semicolon ∧ t.kind ≠ .rbrace ∧ t.kind ≠ .eof := by
  cases h with
  | bind hl | retNone hl | ret hl => exact ⟨_, _, rfl, by simp [hl]⟩
  | expr hvalue =>
    obtain ⟨t, us, hts, ht⟩ := hvalue.first
    open Token.Kind in
    exact ⟨t, us, hts, ne_of_starts ht rfl, ne_of_starts ht rfl, ne_of_starts ht rfl⟩

end Grammar

end StackScript
