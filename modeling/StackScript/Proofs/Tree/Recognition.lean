import StackScript.Proofs.Tree.Complete

/-!
# The parser and the grammar

The sources that are read without a fault are those whose tokens form a program.
What is read is then derived from all of the tokens, each used once; and if every
statement is followed by a semicolon, by the end of its block or by the end of
the source, there is one tree that can be derived, and it is the one that is read.

## Main definitions

* `Parse.tokens`: the program that is read from tokens.

## Main results

* `Parse.tokens_of_derives`: a program that is derived is read.
* `Program.parse_grammar`: the parser accepts exactly its grammar.
-/

namespace StackScript

namespace Token

/-! ### The end of the tokens -/

theorem Kind.ofWord_ne_eof (word : Bytes) : Kind.ofWord word ≠ .eof := by
  have hkeywords : ∀ k ∈ keywords, k.2 ≠ .eof := by decide
  unfold Kind.ofWord
  split
  · next k hk => exact hkeywords k (List.mem_of_find?_eq_some hk)
  · nofun

theorem Kind.ofByte?_ne_eof (b : UInt8) : Kind.ofByte? b ≠ some .eof := by
  unfold Kind.ofByte?
  split <;> nofun

theorem next_ne_eof (pos : Pos) (b : UInt8) (rest : Bytes) : (next pos b rest).1.kind ≠ .eof := by
  unfold next
  dsimp only
  split
  · split <;> nofun
  split
  · split <;> nofun
  split
  · split <;> nofun
  split
  · exact Kind.ofWord_ne_eof _
  split
  · nofun
  split
  · next kind hkind =>
    rintro rfl
    exact Kind.ofByte?_ne_eof b hkind
  · nofun

/-- The token that stands for the end of the source comes after all others. -/
theorem scanFrom_eof (acc : List Token) (c : Cursor) (hacc : ∀ t ∈ acc, t.kind ≠ .eof) :
    (∀ t ∈ (scanFrom acc c).1, t.kind ≠ .eof) ∧ (scanFrom acc c).2.kind = .eof := by
  fun_induction scanFrom acc c with
  | case1 acc c pos => exact ⟨by simpa using hacc, rfl⟩
  | case2 acc c pos b rest => exact ⟨by simpa using hacc, rfl⟩
  | case3 acc c pos b rest _ _ t ih => exact ih (List.forall_mem_cons.2 ⟨next_ne_eof _ _ _, hacc⟩)

end Token

open Grammar

/-- Read a program from tokens. -/
def Parse.tokens (tokens : List Token) (eof : Token) : Parsed :=
  let (body, s) :=
    Parse.statements (Parse.depthFor tokens.length) false [] (Parse.stream eof tokens)
  ⟨.ofBody (body.getD []), s.errors.reverse⟩

theorem Program.parse_eq (source : Bytes) :
    Program.parse source = Parse.tokens (Token.scan source).1 (Token.scan source).2 := by
  unfold Program.parse Parse.tokens Parse.stream
  cases Token.scan source
  rfl

/-- A program that is read without a fault is derived from all the tokens. -/
theorem Parse.derives_of_tokens {tokens : List Token} {eof : Token} (heof : eof.kind = .eof)
    (hkinds : ∀ t ∈ tokens, t.kind ≠ .eof) (herrors : (Parse.tokens tokens eof).errors = []) :
    ∃ body, Derives False (.body body) tokens [] ∧
      Parse.tokens tokens eof = ⟨.ofBody body, []⟩ := by
  have hsound : Sound eof (Parse.statements (Parse.depthFor tokens.length) false []) tokens
      fun body rest => Derives False (.body body) tokens [] ∧ rest = [] := by
    refine (Parse.sounds heof _).statements ?_ fun body rest hbody hend => ?_
    · rw [Parse.depthFor]
      omega
    · cases rest with
      | nil => exact ⟨hbody, rfl⟩
      | cons t rest =>
        obtain hend | ⟨hblock, -⟩ := hend
        · exact absurd hend (hkinds t (hbody.suffix.subset (List.mem_cons_self ..)))
        · cases hblock
  obtain ⟨body, rest, hread, hbody, rfl⟩ := hsound (List.reverse_eq_nil_iff.1 herrors)
  refine ⟨body, hbody, ?_⟩
  rw [Parse.tokens, hread]
  rfl

/-- A program that is derived is read. -/
theorem Parse.tokens_of_derives {tokens : List Token} {eof : Token} {body : List Stmt}
    (heof : eof.kind = .eof) (h : Derives True (.body body) tokens []) :
    Parse.tokens tokens eof = ⟨.ofBody body, []⟩ := by
  have hread := Parse.read_of_derives heof h false [] (Parse.depthFor tokens.length) (.inl heof)
    (by rw [Parse.depthFor]; omega)
  rw [Parse.tokens, hread]
  rfl

/-- The parser accepts exactly its grammar: what is read without a fault is a program derived from
all the tokens, and every program that is strictly derived from tokens is read from them. -/
theorem Program.parse_grammar :
    (∀ source, (Program.parse source).errors = [] → ∃ body,
      Derives False (.body body) (Token.scan source).1 [] ∧
        Program.parse source = ⟨.ofBody body, []⟩) ∧
    (∀ tokens eof body, eof.kind = .eof → Derives True (.body body) tokens [] →
      Parse.tokens tokens eof = ⟨.ofBody body, []⟩) ∧
    ∀ source, Program.parse source = Parse.tokens (Token.scan source).1 (Token.scan source).2 := by
  refine ⟨fun source herrors => ?_, fun _ _ _ => Parse.tokens_of_derives, Program.parse_eq⟩
  obtain ⟨hkinds, heof⟩ := Token.scanFrom_eof [] ⟨.start source, source⟩ nofun
  rw [Program.parse_eq] at herrors ⊢
  exact Parse.derives_of_tokens heof hkinds herrors

/-- A sum with a product, and a return without a value. -/
theorem Program.parse_grammar_sum :
    (∃ body, Derives False (.body body) (Token.scan "1 + 2 * 3").1 [] ∧
      Program.parse "1 + 2 * 3" = ⟨.ofBody body, []⟩) ∧
    let r : Token := ⟨.returnKw, "return", ⟨0, 1, 1⟩⟩
    Parse.tokens [r] ⟨.eof, [], ⟨6, 1, 6⟩⟩ = ⟨.ofBody [.ret (.run r.pos r.pos) none], []⟩ :=
  ⟨Program.parse_grammar.1 "1 + 2 * 3" (by decide +kernel),
    Program.parse_grammar.2.1 _ _ _ rfl (.statement (.retNone rfl (.bare nofun nofun)) .done)⟩

end StackScript
