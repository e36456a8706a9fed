import StackScript.Proofs.Compile.Paths

/-!
# Where expressions stand in compiled code

Every expression of a program is compiled to a stretch of the main code or of
the code of a function among the constants. The end of a branch or of a body
changes the last instruction at most, which belongs to a statement and not to an
expression, so the stretches of expressions stay whole.

## Main definitions

* `Code.Holds`: the code has the instructions of an expression in it.
* `Code.Splits`: where a statement of a body starts.

## Main results

* `Code.Laid.depth_splits`: nothing is on the stack at the start of a statement.
* `within_shows`: the parts of a tree have their stretches.
-/

namespace StackScript

open Instr

/-! ### The ends of branches and bodies -/

namespace Instr

variable {s t : List Instr}

/-- The end of a branch changes its last instruction only. -/
theorem keepValue_append (ht : t ≠ []) : keepValue (s ++ t) = s ++ keepValue t := by
  obtain rfl | ⟨t, i, rfl⟩ := List.eq_nil_or_concat t
  · exact absurd rfl ht
  · rw [List.concat_eq_append]
    simp only [keepValue, ← List.append_assoc, List.getLast?_append, List.getLast?_singleton,
      Option.some_or, List.dropLast_concat]
    split
    · rfl
    · split
      · exact List.append_assoc s t [i]
      · simp

/-- The end of a body changes its last instruction only. -/
theorem close_append (ht : t ≠ []) : close (s ++ t) = s ++ close t := by
  obtain rfl | ⟨t, i, rfl⟩ := List.eq_nil_or_concat t
  · exact absurd rfl ht
  · rw [List.concat_eq_append]
    simp only [close, ← List.append_assoc, List.getLast?_append, List.getLast?_singleton,
      Option.some_or, List.dropLast_concat]
    split
    · simp
    · split
      · exact List.append_assoc s t [i]
      · simp

/-- A body keeps its size at its end, unless a return is added. -/
theorem close_eq_or (s : List Instr) :
    close s = s ++ [⟨.ret, []⟩] ∨ bytes (close s) = bytes s := by
  obtain rfl | ⟨s, i, rfl⟩ := List.eq_nil_or_concat s
  · exact .inl rfl
  · rw [List.concat_eq_append]
    simp only [close, List.getLast?_append, List.getLast?_singleton, Option.some_or,
      List.dropLast_concat]
    split
    · next hpop =>
      right
      simp [hpop]
      rfl
    · split
      · exact .inr rfl
      · exact .inl rfl

end Instr

/-! ### Statements -/

namespace Code

/-- The code is that of the statements, as a program or as the body of a function, and those after
the first ones start at the offset. -/
def Splits (code : Code) (first rest : List Stmt) (offset : Nat) : Prop :=
  ∃ σ s τ t τ', Emission.all (first.map Stmt.Emits) 0 σ s τ ∧
    Emission.all (rest.map Stmt.Emits) (bytes s) τ t τ' ∧ offset = bytes s ∧
    (code.Encodes (s ++ t) ∨ code.Encodes (close (s ++ t)))

variable {code : Code} {is s t : List Instr} {o d : Nat}

/-- A path through the code of a function does not come to its end. -/
theorem Laid.not_reaches_end {i : Instr} (h : code.Laid (t ++ [i])) (hi : i.Returns) :
    ¬code.Reaches (bytes (t ++ [i])) d := by
  intro hreaches
  have hsize := i.op.size_pos
  obtain hzero | ⟨a, -, hgoes⟩ := Relation.ReflTransGen.cases_tail hreaches
  · have hbytes := (Prod.mk.inj hzero).1
    rw [bytes_append, bytes_cons] at hbytes
    omega
  generalize hb : (bytes (t ++ [i]), d) = b at hgoes
  cases hgoes with
  | @falls _ _ j hj hfalls _ =>
    obtain ⟨before, after, heq, rfl⟩ := h.mem_walk.1 hj
    have hend := (Prod.mk.inj hb).1
    rw [heq, bytes_append, bytes_cons] at hend
    obtain rfl : after = [] := by
      cases after with
      | nil => rfl
      | cons k after =>
        have hpos := k.op.size_pos
        rw [bytes_cons] at hend
        omega
    obtain rfl : i = j := by simpa using (List.append_inj' heq rfl).2
    obtain hret | hret := hi
    · exact hfalls.2.1 hret
    · exact hfalls.2.2 hret
  | jumps hj ht _ =>
    obtain ⟨before, after, heq, rfl⟩ := h.mem_walk.1 hj
    obtain ⟨depth, -, -, hflow⟩ := h.settled
    have hlt := ((hflow before _ after heq).jumps _ ht).2.1.lt
    rw [← (Prod.mk.inj hb).1] at hlt
    omega

/-- Whatever comes before a statement of a body leaves nothing on the stack. -/
theorem Laid.reaches_zero (h : code.Laid is) (his : is = s ++ t ∨ is = close (s ++ t))
    (hs : Settled 0 s 0 0) (hd : code.Reaches (bytes s) d) : d = 0 := by
  have hprefix {u : List Instr} (hu : is = s ++ u) : d = 0 := by
    have his : is = [] ++ (s ++ u) := hu
    have hpath : code.Path (bytes [], 0) (bytes [] + bytes s, d) := by
      rw [bytes_nil, Nat.zero_add]
      exact hd
    exact h.path_balanced (n := 0) his hs.balanced hpath
  obtain his | his := his
  · exact hprefix his
  by_cases ht : t = []
  · rw [ht, List.append_nil] at his
    obtain hclose | hbytes := close_eq_or s
    · exact hprefix (his.trans hclose)
    · obtain ⟨u, i, hends, hi⟩ := close_ends s
      rw [← hbytes, hends] at hd
      rw [his, hends] at h
      exact absurd hd (h.not_reaches_end hi)
  · exact hprefix (his.trans (close_append ht))

/-- Nothing is on the stack above the locals where a statement of a body starts. -/
theorem Laid.depth_splits {first rest : List Stmt} (h : code.Laid is)
    (hsplits : code.Splits first rest o) : code.depth o = 0 := by
  obtain ⟨σ, s, τ, t, τ', hs, -, rfl, hsplit⟩ := hsplits
  have hsettled : Settled 0 s 0 0 :=
    body_settles (fun e _ => tree_balanced.stmt_all e) _ _ _ _ hs 0
  by_cases hex : ∃ d, code.Reaches (bytes s) d
  · obtain ⟨d, hd⟩ := hex
    rw [h.depth_eq hd]
    refine h.reaches_zero (t := t) (hsplit.imp ?_ ?_) hsettled hd
    · exact h.toEncodes.unique
    · exact h.toEncodes.unique
  · rw [Code.depth, dif_neg hex]

/-! ### Expressions -/

/-- The instructions of the expression stand in the code from one offset to another. -/
def Holds (code : Code) (e : Expr) (start stop : Nat) : Prop :=
  ∃ before seg after σ τ, code.Encodes (before ++ (seg ++ after)) ∧
    e.Emits (bytes before) σ seg τ ∧ start = bytes before ∧ stop = bytes before + bytes seg

/-- A path from the start of an expression to its end leaves one value more. -/
theorem Laid.path_holds {e : Expr} {start stop d' : Nat} (h : code.Laid is)
    (hholds : code.Holds e start stop) (hpath : code.Path (start, d) (stop, d')) : d' = d + 1 := by
  obtain ⟨before, seg, after, σ, τ, hcode, hemits, rfl, rfl⟩ := hholds
  exact (h.of_encodes hcode).path_balanced rfl (tree_balanced.expr_all e _ _ _ _ hemits d) hpath

end Code

namespace Emission

/-- The expression has a stretch of the instructions, with at least `k` of them after it, or it
stands in a function among the constants. -/
def Shown (k : Nat) (e : Expr) (offset : Nat) (seg : List Instr) (τ : Context) : Prop :=
  (∃ before s after σ' τ', seg = before ++ (s ++ after) ∧ k ≤ after.length ∧
    e.Emits (offset + bytes before) σ' s τ') ∨
  ∃ f start stop, .function (some f) ∈ τ.constants ∧ f.code.Holds e start stop

/-- Whatever is emitted in good order shows the expression. -/
structure Shows (p : Emission) (k : Nat) (e : Expr) : Prop where
  lawful : p.Lawful
  shown : ∀ offset σ seg τ, p offset σ seg τ → σ.Ok → Shown k e offset seg τ

variable {p q r : Emission} {k offset : Nat} {e : Expr} {seg : List Instr} {τ τ' : Context}

/-- What is shown by a part is shown by the whole. -/
theorem Shown.extend (s t : List Instr) (h : Shown k e (offset + bytes s) seg τ)
    (hgrows : τ.Grows τ') : Shown k e offset (s ++ (seg ++ t)) τ' := by
  obtain ⟨before, u, after, σ, τ, rfl, hk, hemits⟩ | ⟨f, start, stop, hf, hholds⟩ := h
  · refine .inl ⟨s ++ before, u, after ++ t, σ, τ, by simp, ?_, ?_⟩
    · rw [List.length_append]
      omega
    · rwa [bytes_append, ← Nat.add_assoc]
  · rw [← Array.mem_toList_iff] at hf
    exact .inr ⟨f, start, stop, Array.mem_toList_iff.1 (hgrows.constants.subset hf), hholds⟩

namespace Shows

theorem left (hp : p.Shows k e) (hq : q.Lawful) : (p.seq q).Shows k e := by
  refine ⟨hp.lawful.seq hq, ?_⟩
  rintro offset σ _ τ ⟨s, τ', t, hs, ht, rfl⟩ hσ
  obtain ⟨hτ', -, -⟩ := hp.lawful _ _ _ _ hs hσ
  obtain ⟨-, hgrows, -⟩ := hq _ _ _ _ ht hτ'
  exact Shown.extend [] t (hp.shown _ _ _ _ hs hσ) hgrows

theorem right (hp : p.Lawful) (hq : q.Shows k e) : (p.seq q).Shows k e := by
  refine ⟨hp.seq hq.lawful, ?_⟩
  rintro offset σ _ τ ⟨s, τ', t, hs, ht, rfl⟩ hσ
  obtain ⟨hτ', -, -⟩ := hp _ _ _ _ hs hσ
  simpa using Shown.extend s [] (hq.shown _ _ _ _ ht hτ') (.refl τ)

/-- An instruction stands after what it takes. -/
theorem before (hp : p.Shows 0 e) {i : Instr} (hi : ∀ l, i.Legal l) : (p.seq (one i)).Shows 1 e := by
  refine ⟨hp.lawful.seq (lawful_one hi), ?_⟩
  rintro offset σ _ τ ⟨s, τ', t, hs, ⟨rfl, rfl⟩, rfl⟩ hσ
  obtain ⟨before, u, after, σ', τ', rfl, -, hemits⟩ | hconstant := hp.shown _ _ _ _ hs hσ
  · exact .inl ⟨before, u, after ++ [i], σ', τ', by simp, by simp, hemits⟩
  · exact .inr hconstant

theorem all {ps : List Emission} (hp : p.Shows k e) (hmem : p ∈ ps) (hps : ∀ p ∈ ps, p.Lawful) :
    (Emission.all ps).Shows k e := by
  induction ps with
  | nil => cases hmem
  | cons q ps ih =>
    rw [List.forall_mem_cons] at hps
    obtain rfl | hmem := List.mem_cons.1 hmem
    · exact hp.left (.all hps.2)
    · exact .right hps.1 (ih hmem hps.2)

theorem given {P : Prop} (hp : P → p.Shows k e) : (Emission.given P p).Shows k e :=
  ⟨.given fun h => (hp h).lawful, fun _ _ _ _ h => (hp h.1).shown _ _ _ _ h.2⟩

theorem branch (hp : p.Shows 1 e) : (Emission.branch p).Shows 0 e := by
  refine ⟨hp.lawful.branch, ?_⟩
  rintro offset σ _ τ ⟨s, hs, rfl⟩ hσ
  obtain ⟨before, u, after, σ', τ', rfl, hafter, hemits⟩ | hconstant := hp.shown _ _ _ _ hs hσ
  · refine .inl ⟨before, u, keepValue after, σ', τ', ?_, Nat.zero_le _, hemits⟩
    rw [← List.append_assoc, keepValue_append (List.length_pos_iff.1 hafter), List.append_assoc]
  · exact .inr hconstant

theorem test (hp : p.Shows k e) (hq : q.Lawful) (hr : r.Lawful) :
    (Emission.cond p q r).Shows k e := by
  refine ⟨hp.lawful.cond hq hr, ?_⟩
  rintro offset σ _ τ ⟨s, σ₁, t, σ₂, u, _, _, _, hs, ht, hu, -, -, -, -, rfl⟩ hσ
  obtain ⟨hσ₁, -, -⟩ := hp.lawful _ _ _ _ hs hσ
  obtain ⟨hσ₂, hgrows, -⟩ := hq _ _ _ _ ht hσ₁
  obtain ⟨-, hgrows', -⟩ := hr _ _ _ _ hu hσ₂
  exact Shown.extend [] _ (hp.shown _ _ _ _ hs hσ) (hgrows.trans hgrows')

theorem yes (hp : p.Lawful) (hq : q.Shows k e) (hr : r.Lawful) :
    (Emission.cond p q r).Shows k e := by
  refine ⟨hp.cond hq.lawful hr, ?_⟩
  rintro offset σ _ τ ⟨s, σ₁, t, σ₂, u, yesAt, elseAt, endAt, hs, ht, hu, hyes, -, -, -, rfl⟩ hσ
  obtain ⟨hσ₁, -, -⟩ := hp _ _ _ _ hs hσ
  obtain ⟨hσ₂, -, -⟩ := hq.lawful _ _ _ _ ht hσ₁
  obtain ⟨-, hgrows, -⟩ := hr _ _ _ _ hu hσ₂
  have hat : yesAt = offset + bytes (s ++ [⟨.jumpIfFalse, [elseAt]⟩]) := by
    simp [hyes, Nat.add_assoc]
  have hshown := hq.shown _ _ _ _ ht hσ₁
  rw [hat] at hshown
  simpa using Shown.extend _ (⟨.jump, [endAt]⟩ :: u) hshown hgrows

theorem no (hp : p.Lawful) (hq : q.Lawful) (hr : r.Shows k e) :
    (Emission.cond p q r).Shows k e := by
  refine ⟨hp.cond hq hr.lawful, ?_⟩
  rintro offset σ _ τ ⟨s, σ₁, t, σ₂, u, yesAt, elseAt, endAt, hs, ht, hu, hyes, helse, -, -, rfl⟩ hσ
  obtain ⟨hσ₁, -, -⟩ := hp _ _ _ _ hs hσ
  obtain ⟨hσ₂, -, -⟩ := hq _ _ _ _ ht hσ₁
  have hat : elseAt =
      offset + bytes (s ++ ⟨.jumpIfFalse, [elseAt]⟩ :: (t ++ [⟨.jump, [endAt]⟩])) := by
    simp only [bytes_append, bytes_cons, bytes_nil]
    omega
  have hshown := hr.shown _ _ _ _ hu hσ₂
  rw [hat] at hshown
  simpa using Shown.extend _ [] hshown (.refl τ)

theorem bind (hp : p.Shows 0 e) (name : Bytes) : (Emission.bind name p).Shows 1 e := by
  refine ⟨hp.lawful.bind name, ?_⟩
  rintro offset σ _ τ ⟨hstorable, s, hs, rfl⟩ hσ
  obtain ⟨before, u, after, σ', τ', rfl, -, hemits⟩ | hconstant :=
    hp.shown _ _ _ _ hs (hσ.define hstorable)
  · exact .inl ⟨before, u, after ++ [(σ.table.define name).1.store], σ', τ', by simp, by simp,
      hemits⟩
  · exact .inr hconstant

/-- What stands in the body of a function stands in its code. -/
theorem function {body : Block} (hp : body.Emits.Shows 1 e) (name : Bytes) (params : List Ident) :
    (Emission.function name params body.Emits).Shows 0 e := by
  refine ⟨lawful_function name params hp.lawful (block_settles body), ?_⟩
  rintro offset σ _ _ ⟨s, τ, table, outer, hs, houter, hlocals, hfree, -, -, rfl⟩ hσ
  obtain ⟨hτ, -, hlegal⟩ := hp.lawful _ _ _ _ hs (hσ.enter name params)
  have hinside : τ.table.enclosed = true := by
    have hchain := hτ.chain
    rw [Context.tables, houter] at hchain
    exact hchain.1.2.1
  have hclose := legal_close hτ hinside hlegal hlocals hfree
  obtain ⟨before, u, after, σ', τ', rfl, hafter, hemits⟩ | ⟨f, start, stop, hf, hholds⟩ :=
    hp.shown _ _ _ _ hs (hσ.enter name params)
  · have hends : close (before ++ (u ++ after)) = before ++ (u ++ close after) := by
      rw [← List.append_assoc, close_append (List.length_pos_iff.1 hafter), List.append_assoc]
    rw [Nat.zero_add] at hemits
    rw [hends] at hclose ⊢
    exact .inr ⟨_, _, _, Array.mem_push_self, before, u, close after, σ', τ',
      ⟨rfl, fun i hi => (hclose i hi).2⟩, hemits, rfl, rfl⟩
  · exact .inr ⟨f, start, stop, Array.mem_push.2 (.inl hf), hholds⟩

end Shows

end Emission

open Emission

theorem body_shows {body : List Stmt} {s : Stmt} {e : Expr} (hs : s ∈ body)
    (h : s.Emits.Shows 1 e) : (Emission.all (body.map Stmt.Emits)).Shows 1 e := by
  refine h.all (List.mem_map_of_mem hs) ?_
  simpa using fun s _ => tree_lawful.stmt_all s

theorem items_show {items : List Expr} {a e : Expr} (ha : a ∈ items) (h : a.Emits.Shows 0 e) :
    (Emission.all (items.map Expr.Emits)).Shows 0 e := by
  refine h.all (List.mem_map_of_mem ha) ?_
  simpa using fun a _ => tree_lawful.expr_all a

theorem pairs_show {loc : Loc} {pairs : List (Expr × Expr)} {p : Expr × Expr} {e : Expr}
    (hp : p ∈ pairs) (h : (p.1.Emits.seq p.2.Emits).Shows 0 e) :
    (Expr.hash loc pairs).Emits.Shows 0 e := by
  rw [Expr.Emits, emitsPairs_inOrder]
  refine .given fun hmax => .left (h.all (List.mem_map.2 ⟨p, Expr.mem_inOrder.2 hp, rfl⟩) ?_)
    (lawful_one fun l => .count (.inr rfl) hmax)
  intro q hq
  obtain ⟨p, -, rfl⟩ := List.mem_map.1 hq
  exact (tree_lawful.expr_all p.1).seq (tree_lawful.expr_all p.2)

/-- What a node is compiled to shows its parts. -/
theorem within_shows {e : Expr} {x : Expr ⊕ Stmt} (h : Within e x) :
    Sum.elim (fun p : Expr => p.Emits.Shows 0 e) (fun s : Stmt => s.Emits.Shows 1 e) x := by
  have hlawful (e : Expr) : e.Emits.Lawful := tree_lawful.expr_all e
  have hblock (b : Block) : b.Emits.Lawful := block_lawful fun s _ => tree_lawful.stmt_all s
  have helse (no : Option Block) : (emitsElse no).Lawful :=
    else_lawful fun s _ => tree_lawful.stmt_all s
  have hplain {op : Opcode} (hop : op.widths = []) (hself : op ≠ .currentClosure) (l : Limits) :
      (⟨op, []⟩ : Instr).Legal l := .plain hop hself
  -- The induction is on the way from the node to its part; what stands beside the part on each
  -- level only has to be lawful.
  induction h with
  | self =>
    refine ⟨hlawful e, ?_⟩
    intro offset σ seg τ hemits _
    exact .inl ⟨[], seg, [], σ, τ, by simp, Nat.le_refl 0, hemits⟩
  | @operand _ op _ _ ih => exact Shows.left ih (lawful_operator op.opcode?_plain)
  | @left _ op left right _ ih =>
    change (Expr.Emits _).Shows 0 e
    rw [Expr.Emits]
    split
    · exact .right (hlawful right) (.left ih (lawful_operator op.opcode?_plain))
    · exact .left ih ((hlawful right).seq (lawful_operator op.opcode?_plain))
  | @right _ op left right _ ih =>
    change (Expr.Emits _).Shows 0 e
    rw [Expr.Emits]
    split
    · exact .left ih ((hlawful left).seq (lawful_operator op.opcode?_plain))
    · exact .right (hlawful left) (.left ih (lawful_operator op.opcode?_plain))
  | @test _ _ yes no _ ih => exact Shows.test ih (hblock yes).branch (helse no)
  | @yes _ test yes no s hs _ ih =>
    change (Expr.Emits _).Shows 0 e
    rw [Expr.Emits, Block.emits_eq]
    exact .yes (hlawful test) (body_shows hs ih).branch (helse no)
  | @no _ test yes no s hs _ ih =>
    change (Expr.Emits _).Shows 0 e
    rw [Expr.Emits]
    refine .no (hlawful test) (hblock yes).branch ?_
    cases no with
    | none => cases hs
    | some b =>
      rw [emitsElse, Block.emits_eq b]
      exact (body_shows hs ih).branch
  | @function _ name params body s hs _ ih =>
    change (Expr.Emits _).Shows 0 e
    rw [Expr.Emits]
    refine .given fun _ => .function ?_ name params
    rw [Block.emits_eq]
    exact body_shows hs ih
  | callee _ ih =>
    exact Shows.given fun hmax => .left ih
      ((items_lawful fun a _ => hlawful a).seq (lawful_one fun l => .call hmax))
  | @arg _ callee a args ha _ ih =>
    change (Expr.Emits _).Shows 0 e
    rw [Expr.Emits, emitsItems_eq]
    exact .given fun hmax => .right (hlawful callee)
      (.left (items_show ha ih) (lawful_one fun l => .call hmax))
  | @item _ a items ha _ ih =>
    change (Expr.Emits _).Shows 0 e
    rw [Expr.Emits, emitsItems_eq]
    exact .given fun hmax => .left (items_show ha ih) (lawful_one fun l => .count (.inl rfl) hmax)
  | @key _ p _ hp _ ih => exact pairs_show hp (.left ih (hlawful p.2))
  | @value _ p _ hp _ ih => exact pairs_show hp (.right (hlawful p.1) ih)
  | @indexed _ _ index _ ih =>
    exact Shows.left ih ((hlawful index).seq (lawful_one (hplain rfl (by decide))))
  | @index _ left _ _ ih =>
    exact Shows.right (hlawful left) (.left ih (lawful_one (hplain rfl (by decide))))
  | @bind _ id _ _ ih => exact Shows.bind ih id.name
  | ret _ ih => exact Shows.before ih (hplain rfl (by decide))
  | expr _ ih => exact Shows.before ih (hplain rfl (by decide))
  | @block body s hs _ ih =>
    change (Stmt.Emits _).Shows 1 e
    rw [Stmt.Emits, Block.emits_eq]
    exact body_shows hs ih

end StackScript
