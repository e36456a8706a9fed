import StackScript.Proofs.Token.Lines
import StackScript.Proofs.Tree.Following
import StackScript.Proofs.Tree.Termination

/-!
# Sources that are joined

A source without faults can be put before any other source, with a new line and a
semicolon between them. The new line ends a comment, and the semicolon ends the
last statement where the end of the source has ended it before. What is read are
the statements of the one and then those of the other. The faults are those of
the second source, which may be malformed.

A source without faults has no tokens that stand for faults, since none can be
derived. That is why its tokens are not changed by what follows it.

## Main results

* `Grammar.Derives.legal`: programs are derived from legal tokens.
* `Parse.ending_followed`: statements without faults are read first, and then those that follow.
* `Parse.ending_shapeStream`: a source is read from its tokens without their positions.
* `Program.parse_join`: sources can be joined.
-/

namespace StackScript

/-! ### Legal tokens -/

/-- None of the tokens stands for a fault. -/
def Token.Legal (ts : List Token) : Prop := ∀ t ∈ ts, t.kind ≠ .illegal

theorem Token.Legal.cons {t : Token} {ts : List Token} {kind : Kind} (ht : t.kind = kind)
    (h : Legal ts) (hkind : kind ≠ .illegal := by decide) : Legal (t :: ts) :=
  List.forall_mem_cons.2 ⟨ht ▸ hkind, h⟩

namespace Grammar

open Token (Legal)

variable {strict : Prop} {ts rest : List Token}

theorem MoreParams.legal {ids : List Ident} (h : MoreParams ids ts rest) (hrest : Legal rest) :
    Legal ts := by
  induction h with
  | nil => exact hrest
  | cons hc ht _ ih => exact .cons hc (.cons ht (ih hrest))

theorem Params.legal {ids : List Ident} (h : Params ids ts rest) (hrest : Legal rest) :
    Legal ts := by
  cases h with
  | nil => exact hrest
  | cons ht hids => exact .cons ht (hids.legal hrest)

theorem Ending.legal {last : Token} {stop : Pos} (h : Ending strict last ts rest stop)
    (hrest : Legal rest) : Legal ts := by
  cases h with
  | taken ht => exact .cons ht hrest
  | left => exact hrest
  | bare => exact hrest

/-- Whatever is derived from tokens, it is derived from legal ones. -/
theorem Derives.legal {p : Phrase} (h : Derives strict p ts rest) (hrest : Legal rest) :
    Legal ts := by
  induction h with
  | ident ht | int ht | string ht | trueKw ht | falseKw ht => exact .cons ht hrest
  | group hl _ hr ih | array hl _ hr ih | hash hl _ hr ih | block hl _ hr ih =>
    exact .cons hl (ih (.cons hr hrest))
  | cond hi hl _ hr _ ihtest ihyes =>
    exact .cons hi (.cons hl (ihtest (.cons hr (ihyes hrest))))
  | condElse hi hl _ hr _ hk _ ihtest ihyes ihno =>
    exact .cons hi (.cons hl (ihtest (.cons hr (ihyes (.cons hk (ihno hrest))))))
  | function hf hl hps hr _ ih =>
    exact .cons hf (.cons hl (hps.legal (.cons hr (ih hrest))))
  | call _ hl _ hr ih ih' | index _ hl _ hr ih ih' =>
    exact ih (.cons hl (ih' (.cons hr hrest)))
  | unary hop _ ih =>
    refine List.forall_mem_cons.2 ⟨?_, ih hrest⟩
    exact Token.Kind.ne_of_starts hop.starts rfl
  | binary _ hop _ ih ih' =>
    apply ih
    refine List.forall_mem_cons.2 ⟨?_, ih' hrest⟩
    intro hillegal
    rw [hillegal] at hop
    cases hop
  | lower _ ih => exact ih hrest
  | noItems | noMoreItems | noPairs | done => exact hrest
  | someItems _ _ ih ih' | statement _ _ ih ih' => exact ih (ih' hrest)
  | moreItems hc _ _ ih ih' => exact .cons hc (ih (ih' hrest))
  | lastPair _ hc _ ih ih' => exact ih (.cons hc (ih' hrest))
  | morePairs _ hc _ hm _ ihkey ihvalue ihps =>
    exact ihkey (.cons hc (ihvalue (.cons hm (ihps hrest))))
  | bind hl ht ha _ hend ih => exact .cons hl (.cons ht (.cons ha (ih (hend.legal hrest))))
  | retNone hr hend => exact .cons hr (hend.legal hrest)
  | ret hr _ hend ih => exact .cons hr (ih (hend.legal hrest))
  | expr _ hend ih => exact ih (hend.legal hrest)
  | semicolon ht _ ih => exact .cons ht (ih hrest)

end Grammar

/-- A source without faults has legal tokens only. -/
theorem Program.legal_of_errors_eq_nil {source : Bytes} (h : (Program.parse source).errors = []) :
    Token.Legal (Token.scan source).1 := by
  obtain ⟨hkinds, heof⟩ := Token.scanFrom_eof [] ⟨.start source, source⟩ (List.forall_mem_nil _)
  rw [Program.parse_eq] at h
  obtain ⟨body, hbody, -⟩ := Parse.derives_of_tokens heof hkinds h
  exact hbody.legal (List.forall_mem_nil _)

namespace Parse

/-! ### Statements after statements -/

/-- The statements that were read before are put in front, and make no difference to the others. -/
theorem answers_statements_append (depth : Nat) (inBlock : Bool) (acc before : List Stmt)
    (s : Stream) :
    answers depth _ (.statements inBlock (acc ++ before)) s =
      ((answers depth _ (.statements inBlock acc) s).1.map (before.reverse ++ ·),
        (answers depth _ (.statements inBlock acc) s).2) := by
  induction depth generalizing acc s with
  | zero => rfl
  | succ depth ih =>
    rw [answers_succ, answers_succ]
    by_cases hend : EndsBody inBlock (s.tokens.headD s.eof)
    · rw [statements_of_end hend, statements_of_end hend, List.reverse_append]
      rfl
    by_cases hsemicolon : (s.tokens.headD s.eof).kind = .semicolon
    · rw [statements_of_semicolon hend hsemicolon, statements_of_semicolon hend hsemicolon]
      exact ih acc _
    · rw [statements_of_statement hend hsemicolon, statements_of_statement hend hsemicolon,
        ← List.append_assoc]
      exact ih _ _

section

variable {acc : List Stmt} {s : Stream} (heof : s.eof.kind = .eof)

include heof

theorem ending_statements (inBlock : Bool) (acc : List Stmt) :
    ending _ (.statements inBlock acc) s = (Call.statements inBlock acc).body ending s :=
  ending_eq_body (c := .statements inBlock acc) heof trivial

/-- At the end of the source there are no more statements. -/
theorem ending_statements_of_nil (hs : s.tokens = []) :
    ending _ (.statements false acc) s = (some acc.reverse, s) := by
  rw [ending_statements heof]
  apply statements_of_end
  rw [hs]
  exact .inl heof

/-- A semicolon between statements is skipped. -/
theorem ending_statements_of_semicolon {us : List Token} (hs : s.tokens = mark :: us) :
    ending _ (.statements false acc) s =
      ending _ (.statements false acc) { s with tokens := us } := by
  have hend : ¬EndsBody false (s.tokens.headD s.eof) := by
    rw [hs]
    rintro (hend | ⟨hblock, -⟩)
    · cases hend
    · cases hblock
  have hsemicolon : (s.tokens.headD s.eof).kind = .semicolon := by
    rw [hs]
    rfl
  rw [ending_statements heof, statements_of_semicolon hend hsemicolon, hs]
  rfl

end

instance forward_ending {α : Type} (c : Call α) : Moves Stream.Forward (ending α c) :=
  ⟨fun s => (forward_answers (c.depth s) α c).moves s⟩

theorem Stream.Clean.stream_eq {s : Stream} (h : s.Clean) (us : List Token) :
    { s with tokens := us } = stream s.eof us := by
  rw [h.errors, h.spent]
  rfl

/-- A statement is read in the same way if a semicolon and more tokens follow. -/
theorem leads_ending_statement (us : List Token) (s : Stream) :
    Leads (Stream.Past us) us (ending _ .statement) s := by
  intro hplain r s' hread hclean
  have hdepth : Call.statement.depth s ≤ Call.statement.depth (s.followed us) := by
    simp only [Call.depth, Stream.followed, List.length_append]
    omega
  rw [← answers_eq_ending (c := .statement) hplain.eof trivial hdepth] at hread
  exact (carrying us _).statement s hplain r s' hread hclean

/-- Statements that are read without a fault are read in the same way if a semicolon and more
tokens follow, and then those of the other tokens are read. -/
theorem ending_followed {acc ss : List Stmt} {s s' : Stream} (hplain : s.Plain)
    (hread : ending _ (.statements false acc) s = (some ss, s')) (hclean : s'.Clean)
    (us : List Token) :
    ending _ (.statements false acc) (s.followed us) =
      ending _ (.statements false ss.reverse) (stream s.eof us) := by
  -- Each round uses up a token, so the induction is on their number.
  induction hlength : s.tokens.length using Nat.strongRecOn generalizing s acc with
  | ind length ih =>
  by_cases hs : s.tokens = []
  · rw [ending_statements_of_nil hplain.eof hs] at hread
    obtain ⟨⟨⟩, rfl⟩ := Prod.mk.inj hread
    have hfollowed : (s.followed us).tokens = mark :: us := by
      rw [Stream.followed, hs]
      rfl
    rw [ending_statements_of_semicolon (s := s.followed us) hplain.eof hfollowed,
      List.reverse_reverse, ← hclean.stream_eq us]
    rfl
  have hend : ¬EndsBody false (s.tokens.headD s.eof) := by
    rintro (hend | ⟨hblock, -⟩)
    · exact hplain.head_ne_eof hs hend
    · cases hblock
  rw [ending_statements hplain.eof] at hread
  rw [ending_statements (s := s.followed us) hplain.eof]
  obtain ⟨acc', s₁, hforward, hshorter, hread₁, hround⟩ :=
    statements_followed (leads_ending_statement us s) hplain hend hread hclean
  have hplain₁ := hplain.forward hforward
  rw [← hforward.eof]
  rcases hround with hround | ⟨hlast, hround⟩
  · exact hround.trans (ih _ (hlength ▸ hshorter) hplain₁ hread₁ rfl)
  · rw [ending_statements_of_nil hplain₁.eof hlast] at hread₁
    cases hread₁
    rw [hround, List.reverse_reverse, ← hclean.stream_eq us]

/-! ### Sources -/

/-- The end of a source, at no place. -/
def stop : Token := ⟨.eof, [], .none⟩

/-- The tokens of a source, without their positions. -/
def shapeStream (source : Bytes) : Stream := stream stop (Token.shapes ⟨.start source, source⟩)

theorem shape_stream_scan (source : Bytes) :
    (stream (Token.scan source).2 (Token.scan source).1).shape = shapeStream source := by
  obtain ⟨pieces, eof, hlaid, hscan, -⟩ := Token.exists_laid [] source
  have hscan : Token.scan source = (pieces.map (·.token), eof) := hscan []
  obtain ⟨gap, rest, -, -, -, rfl⟩ := hlaid.exists_end
  have heof : (Token.scan source).2.shape = stop := by rw [hscan]; rfl
  rw [Stream.shape, shapeStream, ← heof]
  rfl

theorem plain_shapeStream (source : Bytes) : (shapeStream source).Plain := by
  obtain ⟨hkinds, -⟩ := Token.scanFrom_eof [] ⟨.start source, source⟩ (List.forall_mem_nil _)
  constructor
  · rfl
  · intro t ht
    obtain ⟨u, -, rfl⟩ := List.mem_map.1 ht
    rfl
  · intro t ht
    obtain ⟨u, hu, rfl⟩ := List.mem_map.1 ht
    exact hkinds u hu

/-- Between two sources, a new line and a semicolon are one token. -/
theorem shapeStream_join {first : Bytes} (hzero : 0 ∉ first)
    (hlegal : Token.Legal (Token.scan first).1) (second : Bytes) :
    shapeStream (first ++ "\n;" ++ second) =
      (shapeStream first).followed (shapeStream second).tokens := by
  have hbytes : Bytes.ofString "\n;" = [Pos.lineFeed, 59] := by decide +kernel
  have hjoined : first ++ "\n;" ++ second = first ++ Pos.lineFeed :: 59 :: second := by
    rw [List.append_assoc, hbytes]
    rfl
  have hsecond : Token.shapes ⟨.none, Pos.lineFeed :: 59 :: second⟩ =
      mark :: Token.shapes ⟨.start second, second⟩ := by
    rw [Token.shapes_of_ne_eof Token.Kind.noConfusion]
    exact congrArg (mark :: ·) (Token.shapes_congr rfl)
  have hlegal' : ∀ t ∈ Token.shapes ⟨.start first, first⟩, t.kind ≠ .illegal := by
    intro t ht
    obtain ⟨u, hu, rfl⟩ := List.mem_map.1 ht
    exact hlegal u hu
  rw [shapeStream, hjoined, Token.shapes_break (c := ⟨.start first, first⟩)
    (Token.break_lineFeed _) hzero hlegal' .none _, hsecond]
  rfl

/-- The tokens of a source are read without their positions to what the source is read to. -/
theorem ending_shapeStream (source : Bytes) :
    ∃ (body : List Stmt) (s : Stream),
      Program.parse source = ⟨.ofBody body, s.errors.reverse⟩ ∧ s.spent = false ∧
      ending _ (.statements false []) (shapeStream source) = (some (shapeBody body), s.shape) := by
  obtain ⟨body, s, hread, hspent, hparse, -⟩ := Program.exists_body source
  refine ⟨body, s, hparse, hspent, ?_⟩
  have hforgets := forgets_answers (depthFor (Token.scan source).1.length) (.statements false [])
    (stream (Token.scan source).2 (Token.scan source).1)
  have hdepth : (Call.statements false []).depth (shapeStream source) ≤
      depthFor (Token.scan source).1.length := by
    change 6 * ((Token.scan source).1.map Token.shape).length + 4 ≤ _
    rw [List.length_map, depthFor]
    omega
  rw [shape_stream_scan] at hforgets
  rw [← answers_eq_ending (c := .statements false []) (plain_shapeStream source).eof trivial hdepth]
  refine hforgets.trans ?_
  change ((statements _ false [] _).1.map _, (statements _ false [] _).2.shape) = _
  rw [hread]
  rfl

end Parse

/-- Sources can be joined. If the first one has no NUL byte and no faults, reading it with a new
line, a semicolon and another source after it gives, up to positions, the statements of the first
one and then those of the other. The faults are those of the other source. -/
theorem Program.parse_join {first : Bytes} (hzero : 0 ∉ first)
    (hfirst : (Program.parse first).errors = []) (second : Bytes) :
    let joined := Program.parse (first ++ "\n;" ++ second)
    shapeBody joined.program.body =
        shapeBody (Program.parse first).program.body ++
          shapeBody (Program.parse second).program.body ∧
      joined.errors.length = (Program.parse second).errors.length ∧
      joined.errors.map ParseError.shape = (Program.parse second).errors.map ParseError.shape := by
  intro joined
  obtain ⟨body₁, s₁, hparse₁, hspent₁, hread₁⟩ := Parse.ending_shapeStream first
  obtain ⟨body₂, s₂, hparse₂, -, hread₂⟩ := Parse.ending_shapeStream second
  obtain ⟨body, s, hparse, -, hread⟩ := Parse.ending_shapeStream (first ++ "\n;" ++ second)
  have hclean : s₁.shape.Clean := by
    rw [hparse₁] at hfirst
    have herrors : s₁.errors = [] := List.reverse_eq_nil_iff.1 hfirst
    exact ⟨congrArg (List.map ParseError.shape) herrors, hspent₁⟩
  have hjoin :
      Parse.ending _ (.statements false []) (Parse.shapeStream (first ++ "\n;" ++ second)) =
        (some (shapeBody body₁ ++ shapeBody body₂), s₂.shape) := by
    rw [Parse.shapeStream_join hzero (Program.legal_of_errors_eq_nil hfirst) second,
      Parse.ending_followed (Parse.plain_shapeStream first) hread₁ hclean]
    have hbefore := Parse.answers_statements_append
      ((Parse.Call.statements false []).depth (Parse.shapeStream second)) false []
      (shapeBody body₁).reverse (Parse.shapeStream second)
    rw [List.reverse_reverse] at hbefore
    refine hbefore.trans ?_
    change ((Parse.ending _ (.statements false []) (Parse.shapeStream second)).1.map _,
      (Parse.ending _ (.statements false []) (Parse.shapeStream second)).2) = _
    rw [hread₂]
    rfl
  obtain ⟨hbody, hshape⟩ := Prod.mk.inj (hread.symm.trans hjoin)
  have herrors : s.errors.map ParseError.shape = s₂.errors.map ParseError.shape :=
    congrArg Parse.Stream.errors hshape
  have hfaults : joined.errors.map ParseError.shape =
      (Program.parse second).errors.map ParseError.shape := by
    change (Program.parse _).errors.map _ = _
    rw [hparse, hparse₂, List.map_reverse, List.map_reverse, herrors]
  refine ⟨?_, ?_, hfaults⟩
  · change shapeBody (Program.parse _).program.body = _
    rw [hparse, hparse₁, hparse₂]
    exact Option.some.inj hbody
  · simpa using congrArg List.length hfaults

/-- The first source ends in a return and a comment, and in the second one a brace is missing. -/
theorem Program.parse_join_comment :
    let first : Bytes := "let a = 1; return // done"
    let second : Bytes := "fn(x) \x7b x"
    0 ∉ first ∧ (Program.parse first).errors = [] ∧
      shapeBody (Program.parse (first ++ "\n;" ++ second)).program.body =
        shapeBody (Program.parse first).program.body ++
          shapeBody (Program.parse second).program.body ∧
      (Program.parse (first ++ "\n;" ++ second)).errors.length = 1 := by
  intro first second
  have hzero : 0 ∉ first := by decide +kernel
  have hfirst : (Program.parse first).errors = [] := by decide +kernel
  obtain ⟨hbody, herrors, -⟩ := Program.parse_join hzero hfirst second
  have hsecond : (Program.parse second).errors.length = 1 := by decide +kernel
  exact ⟨hzero, hfirst, hbody, herrors.trans hsecond⟩

end StackScript
