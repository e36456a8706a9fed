import StackScript.Compile
import StackScript.Proofs.Tree.Induction
import StackScript.Proofs.Tree.Parsed
import StackScript.Proofs.Tree.Recognition

/-!
# Trees without holes

The grammar has no rule for a missing part, and only the known operators are
written down in it. So the tree of a source without faults is whole: a compiler
finds an instruction for each of its operators and code for each of its parts.

## Main definitions

* `Whole`: a tree has no holes, and its operators are known.

## Main results

* `Whole.renderable`: a whole tree can be written down.
* `Grammar.Derives.whole`: what the grammar derives is whole.
* `Program.whole_parse`: a source without faults has a whole tree.
-/

namespace StackScript

/-- The tree has no holes, and its operators are known. -/
inductive Whole : Expr ⊕ Stmt → Prop
  | ident (id : Ident) : Whole (.inl (.ident id))
  | int (loc : Loc) (literal : Bytes) (value : Int64) : Whole (.inl (.int loc literal value))
  | string (loc : Loc) (value : Bytes) : Whole (.inl (.string loc value))
  | bool (loc : Loc) (value : Bool) : Whole (.inl (.bool loc value))
  | unary (loc : Loc) {op : UnaryOp} {right : Expr} (hop : op.opcode? ≠ none)
    (hright : Whole (.inl right)) : Whole (.inl (.unary loc op right))
  | binary (loc : Loc) {op : BinaryOp} {left right : Expr} (hop : op.opcode? ≠ none)
    (hleft : Whole (.inl left)) (hright : Whole (.inl right)) :
    Whole (.inl (.binary loc op left right))
  | cond (loc : Loc) {test : Expr} {yes : Block} {no : Option Block} (htest : Whole (.inl test))
    (hyes : ∀ s ∈ yes.body, Whole (.inr s)) (hno : ∀ s ∈ Block.elseBody no, Whole (.inr s)) :
    Whole (.inl (.cond loc test yes no))
  | function (loc : Loc) (name : Bytes) (params : List Ident) {body : Block}
    (hbody : ∀ s ∈ body.body, Whole (.inr s)) : Whole (.inl (.function loc name params body))
  | call (loc : Loc) {callee : Expr} {args : List Expr} (hcallee : Whole (.inl callee))
    (hargs : ∀ e ∈ args, Whole (.inl e)) : Whole (.inl (.call loc callee args))
  | array (loc : Loc) {items : List Expr} (hitems : ∀ e ∈ items, Whole (.inl e)) :
    Whole (.inl (.array loc items))
  | hash (loc : Loc) {pairs : List (Expr × Expr)} (hkeys : ∀ p ∈ pairs, Whole (.inl p.1))
    (hvalues : ∀ p ∈ pairs, Whole (.inl p.2)) : Whole (.inl (.hash loc pairs))
  | index (loc : Loc) {left index : Expr} (hleft : Whole (.inl left)) (hindex : Whole (.inl index)) :
    Whole (.inl (.index loc left index))
  | bind (loc : Loc) (id : Ident) {value : Expr} (hvalue : Whole (.inl value)) :
    Whole (.inr (.bind loc id value))
  | retNone (loc : Loc) : Whole (.inr (.ret loc none))
  | ret (loc : Loc) {value : Expr} (hvalue : Whole (.inl value)) :
    Whole (.inr (.ret loc (some value)))
  | expr (loc : Loc) {value : Expr} (hvalue : Whole (.inl value)) : Whole (.inr (.expr loc value))
  | block {body : Block} (hbody : ∀ s ∈ body.body, Whole (.inr s)) : Whole (.inr (.block body))

namespace Whole

/-- A whole expression is whole under any name. -/
theorem named {e : Expr} (h : Whole (.inl e)) (name : Bytes) : Whole (.inl (e.named name)) := by
  cases e with
  | function loc _ params body =>
    cases h with
    | function _ _ _ hbody => exact .function loc name params hbody
  | _ => exact h

/-- A whole tree can be written down. -/
theorem renderable {x : Expr ⊕ Stmt} (h : Whole x) :
    Sum.elim Expr.renderable Stmt.renderable x = true := by
  have hblock (b : Block) (hb : ∀ s ∈ b.body, s.renderable = true) : b.renderable = true := by
    cases b with
    | mk loc body => exact Parse.renderableBody_iff.2 hb
  induction h with
  | ident | int | string | bool | retNone => rfl
  | unary _ _ _ ih | ret _ _ ih => exact ih
  | binary _ _ _ _ ih ih' | index _ _ _ ih ih' => exact Bool.and_eq_true_iff.2 ⟨ih, ih'⟩
  | @cond _ _ yes no _ _ _ ihtest ihyes ihno =>
    refine Bool.and_eq_true_iff.2 ⟨Bool.and_eq_true_iff.2 ⟨ihtest, hblock yes ihyes⟩, ?_⟩
    cases no with
    | none => rfl
    | some b => exact hblock b ihno
  | @function _ _ _ body _ ih => exact hblock body ih
  | call _ _ _ ih ih' => exact Bool.and_eq_true_iff.2 ⟨ih, Parse.renderableItems_iff.2 ih'⟩
  | array _ _ ih => exact Parse.renderableItems_iff.2 ih
  | hash _ _ _ ih ih' => exact Parse.renderablePairs_iff.2 fun p hp => ⟨ih p hp, ih' p hp⟩
  | bind _ _ _ ih => exact Parse.renderable_bind ih
  | expr _ _ ih => exact Parse.renderable_expr ih
  | @block body _ ih => exact hblock body ih

end Whole

namespace Grammar

theorem Sign.opcode?_ne_none {kind : Token.Kind} {op : UnaryOp} (h : Sign kind op) :
    op.opcode? ≠ none := by
  cases h <;> nofun

theorem Operator.opcode?_ne_none {n : Nat} {kind : Token.Kind} {op : BinaryOp}
    (h : Operator n kind op) : op.opcode? ≠ none := by
  cases h <;> nofun

/-- The trees of the phrase are whole. -/
def Phrase.Whole : Phrase → Prop
  | .expr _ e _ => StackScript.Whole (.inl e)
  | .items es | .moreItems es => ∀ e ∈ es, StackScript.Whole (.inl e)
  | .pairs ps =>
    (∀ p ∈ ps, StackScript.Whole (.inl p.1)) ∧ ∀ p ∈ ps, StackScript.Whole (.inl p.2)
  | .block b _ => ∀ s ∈ b.body, StackScript.Whole (.inr s)
  | .stmt s => StackScript.Whole (.inr s)
  | .body ss => ∀ s ∈ ss, StackScript.Whole (.inr s)

/-- What the grammar derives is whole. -/
theorem Derives.whole {strict : Prop} {p : Phrase} {ts rest : List Token}
    (h : Derives strict p ts rest) : p.Whole := by
  induction h with
  | ident => exact .ident _
  | int => exact .int _ _ _
  | string => exact .string _ _
  | trueKw | falseKw => exact .bool _ _
  | group _ _ _ ih | lower _ ih | block _ _ _ ih | semicolon _ _ ih => exact ih
  | cond _ _ _ _ _ ihtest ihyes => exact .cond _ ihtest ihyes nofun
  | condElse _ _ _ _ _ _ _ ihtest ihyes ihno => exact .cond _ ihtest ihyes ihno
  | function _ _ _ _ _ ih => exact .function _ _ _ ih
  | array _ _ _ ih => exact .array _ ih
  | hash _ _ _ ih => exact .hash _ ih.1 ih.2
  | call _ _ _ _ ih ih' => exact .call _ ih ih'
  | index _ _ _ _ ih ih' => exact .index _ ih ih'
  | unary hop _ ih => exact .unary _ hop.opcode?_ne_none ih
  | binary _ hop _ ih ih' => exact .binary _ hop.opcode?_ne_none ih ih'
  | noItems | noMoreItems | done => exact nofun
  | someItems _ _ ih ih' | moreItems _ _ _ ih ih' | statement _ _ ih ih' =>
    exact List.forall_mem_cons.2 ⟨ih, ih'⟩
  | noPairs => exact ⟨nofun, nofun⟩
  | lastPair _ _ _ ih ih' =>
    exact ⟨List.forall_mem_singleton.2 ih, List.forall_mem_singleton.2 ih'⟩
  | morePairs _ _ _ _ _ ihkey ihvalue ihps =>
    exact ⟨List.forall_mem_cons.2 ⟨ihkey, ihps.1⟩, List.forall_mem_cons.2 ⟨ihvalue, ihps.2⟩⟩
  | bind _ _ _ _ _ ih => exact .bind _ _ (ih.named _)
  | retNone => exact .retNone _
  | ret _ _ _ ih => exact .ret _ ih
  | expr _ _ ih => exact .expr _ ih

end Grammar

/-- A source without faults has a whole tree. -/
theorem Program.whole_parse {source : Bytes} (h : (Program.parse source).errors = []) :
    ∀ s ∈ (Program.parse source).program.body, Whole (.inr s) := by
  obtain ⟨hkinds, heof⟩ := Token.scanFrom_eof [] ⟨.start source, source⟩ nofun
  rw [Program.parse_eq, Token.scan] at h ⊢
  obtain ⟨body, hderives, hread⟩ := Parse.derives_of_tokens heof hkinds h
  rw [hread]
  exact hderives.whole

end StackScript
