import StackScript.Proofs.Token.Faithful

/-!
# Well-formed trees

A tree is well formed if it has a part wherever its text needs one, uses the
operators of the language only, has names where it names something, and has
integers that are the numbers their literals denote. A function literal has a
name of its own only where a let binds it, and then it is the name that is bound.

Names and numbers come from tokens, and a token of such a kind is written with
such a word, so a reader of trees finds them well formed.

## Main definitions

* `Token.IsName`, `Token.IsNumber`: the words that name something, and the digits of a number.
* `Token.Proper`: a token is written as its kind says.
* `Expr.Formed`, `Stmt.Formed`, `Block.Formed`: well-formed trees.

## Main results

* `Token.scan_proper`: every token of a source is written as its kind says.
* `Expr.Formed.named`: a well-formed expression is well formed under the name it is bound to.
-/

namespace StackScript

namespace Token

/-- The word can be used as a name: a letter with letters and digits after it that is not reserved.
-/
structure IsName (word : Bytes) : Prop where
  letters : ∃ b rest, word = b :: rest ∧ isLetter b = true ∧
    ∀ x ∈ rest, (isLetter x || isDigit x) = true
  free : Kind.ofWord word = .ident

theorem IsName.ne_nil {word : Bytes} (h : IsName word) : word ≠ [] := by
  obtain ⟨b, rest, rfl, -, -⟩ := h.letters
  exact List.cons_ne_nil b rest

/-- The text is a number: one or more digits. -/
def IsNumber (text : Bytes) : Prop := text ≠ [] ∧ ∀ x ∈ text, isDigit x = true

/-- A token for a name holds a name, and a token for a number holds a number. -/
structure Proper (t : Token) : Prop where
  ident : t.kind = .ident → IsName t.literal
  int : t.kind = .int → IsNumber t.literal

/-- Other tokens may hold any text. -/
theorem Proper.of_kind {t : Token} (hident : t.kind ≠ .ident) (hint : t.kind ≠ .int) : t.Proper :=
  ⟨fun h => absurd h hident, fun h => absurd h hint⟩

theorem Kind.ofWord_ne_int (word : Bytes) : Kind.ofWord word ≠ .int := by
  have hkeywords : ∀ k ∈ keywords, k.2 ≠ .int := by decide
  unfold Kind.ofWord
  split
  · next k hk => exact hkeywords k (List.mem_of_find?_eq_some hk)
  · nofun

theorem Stands.proper {before text rest : Bytes} {t : Token} (h : Stands before text rest t) :
    t.Proper := by
  cases h with
  | word htext hb hs => exact ⟨fun hkind => ⟨⟨_, _, htext, hb, hs⟩, hkind⟩,
      fun hkind => absurd hkind (Kind.ofWord_ne_int text)⟩
  | number htext hb hs =>
    refine ⟨nofun, fun _ => ?_⟩
    rw [htext]
    exact ⟨List.cons_ne_nil _ _, List.forall_mem_cons.2 ⟨hb, hs⟩⟩
  | single _ hkind =>
    obtain ⟨hword, hint⟩ := Kind.isWord_of_ofByte? hkind
    refine .of_kind ?_ hint
    rintro rfl
    cases hword
  | string | unclosed | assign | bang | equal | notEqual | stray => exact .of_kind nofun nofun

/-- Every token of a source is written as its kind says. -/
theorem scan_proper (source : Bytes) : ∀ t ∈ (scan source).1, t.Proper := by
  obtain ⟨pieces, eof, hlaid, hscan, -⟩ := exists_laid [] source
  have hscan : scan source = (pieces.map (·.token), eof) := hscan []
  intro t ht
  rw [hscan] at ht
  obtain ⟨p, hp, rfl⟩ := List.mem_map.1 ht
  obtain ⟨earlier, later, hpieces⟩ := List.append_of_mem hp
  obtain ⟨rest, -, -, hstands⟩ := hlaid.exists_stands hpieces
  exact hstands.proper

end Token

/-- The operators with one operand that the language has. -/
def UnaryOp.known : List UnaryOp := [.not, .neg]

mutual

/-- The expression is well formed where a function literal has the name `own`. -/
inductive Expr.Formed : Bytes → Expr → Prop
  | ident {own : Bytes} {id : Ident} : Token.IsName id.name → Expr.Formed own (.ident id)
  | int {own : Bytes} {loc : Loc} {literal : Bytes} {value : Int64} : Token.IsNumber literal →
      value.toInt = literal.decimal → literal.decimal < 2 ^ 63 →
      Expr.Formed own (.int loc literal value)
  | string {own : Bytes} {loc : Loc} {value : Bytes} : Expr.Formed own (.string loc value)
  | bool {own : Bytes} {loc : Loc} {value : Bool} : Expr.Formed own (.bool loc value)
  | unary {own : Bytes} {loc : Loc} {op : UnaryOp} {right : Expr} : op ∈ UnaryOp.known →
      Expr.Formed [] right → Expr.Formed own (.unary loc op right)
  | binary {own : Bytes} {loc : Loc} {op : BinaryOp} {left right : Expr} : op ∈ BinaryOp.known →
      Expr.Formed [] left → Expr.Formed [] right → Expr.Formed own (.binary loc op left right)
  | cond {own : Bytes} {loc : Loc} {test : Expr} {yes : Block} {no : Option Block} :
      Expr.Formed [] test → Block.Formed yes → (∀ b ∈ no, Block.Formed b) →
      Expr.Formed own (.cond loc test yes no)
  | function {own : Bytes} {loc : Loc} {params : List Ident} {body : Block} :
      (∀ p ∈ params, Token.IsName p.name) → Block.Formed body →
      Expr.Formed own (.function loc own params body)
  | call {own : Bytes} {loc : Loc} {callee : Expr} {args : List Expr} : Expr.Formed [] callee →
      (∀ e ∈ args, Expr.Formed [] e) → Expr.Formed own (.call loc callee args)
  | array {own : Bytes} {loc : Loc} {items : List Expr} : (∀ e ∈ items, Expr.Formed [] e) →
      Expr.Formed own (.array loc items)
  | hash {own : Bytes} {loc : Loc} {pairs : List (Expr × Expr)} :
      (∀ p ∈ pairs, Expr.Formed [] p.1) → (∀ p ∈ pairs, Expr.Formed [] p.2) →
      Expr.Formed own (.hash loc pairs)
  | index {own : Bytes} {loc : Loc} {left index : Expr} : Expr.Formed [] left →
      Expr.Formed [] index → Expr.Formed own (.index loc left index)

/-- The statement is well formed. Only a return may do without a value, and only the value of a
let may be a function that has a name: the one that is bound. -/
inductive Stmt.Formed : Stmt → Prop
  | bind {loc : Loc} {id : Ident} {value : Expr} : Token.IsName id.name →
      Expr.Formed id.name value → Stmt.Formed (.bind loc id value)
  | ret {loc : Loc} {value : Option Expr} : (∀ e ∈ value, Expr.Formed [] e) →
      Stmt.Formed (.ret loc value)
  | expr {loc : Loc} {value : Expr} : Expr.Formed [] value → Stmt.Formed (.expr loc value)

/-- The block is well formed. -/
inductive Block.Formed : Block → Prop
  | mk {loc : Loc} {body : List Stmt} : (∀ s ∈ body, Stmt.Formed s) → Block.Formed (.mk loc body)

end

/-- A return may do without a value. -/
theorem Stmt.Formed.retNone {loc : Loc} : (Stmt.ret loc none).Formed :=
  .ret fun _ hnone => absurd hnone (Option.not_mem_none _)

/-- A well-formed expression is well formed under the name it is bound to. -/
theorem Expr.Formed.named {e : Expr} (h : e.Formed []) (name : Bytes) :
    (e.named name).Formed name := by
  cases h with
  | ident hid => exact .ident hid
  | int hdigits hvalue hrange => exact .int hdigits hvalue hrange
  | string => exact .string
  | bool => exact .bool
  | unary hop hright => exact .unary hop hright
  | binary hop hleft hright => exact .binary hop hleft hright
  | cond htest hyes hno => exact .cond htest hyes hno
  | function hparams hbody => exact .function hparams hbody
  | call hcallee hargs => exact .call hcallee hargs
  | array hitems => exact .array hitems
  | hash hkeys hvalues => exact .hash hkeys hvalues
  | index hleft hindex => exact .index hleft hindex

end StackScript
