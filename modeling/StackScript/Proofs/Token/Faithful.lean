import StackScript.Proofs.Token.Text
import StackScript.Proofs.Tree.Spelling

/-!
# Tokens account for the source

Reading token after token cuts a source into gaps and texts, up to where the
input ends. Nothing is lost, nothing is read twice, and each position is a count
of the bytes before it.

## Main definitions

* `Token.nth`: the token that is found by reading again and again.
* `Token.Laid`: the input from a place on, cut into pieces.
* `Token.Faithful`: what the tokens of a source say about its bytes.

## Main results

* `Token.exists_laid`: the input from any place on is cut into pieces, and their tokens are read.
* `Token.scan_faithful`: the tokens of every source are faithful to it.
-/

namespace StackScript

/-! ### Positions that are counts -/

/-- If the position is that of a byte of the source, its line and its column count the bytes before
it. -/
def Pos.Counts (source : Bytes) (p : Pos) : Prop :=
  ∀ o : Nat, p.offset = o → o < source.length →
    p.line = 1 + (source.take o).count lineFeed ∧ p.column = o - lastFeed (source.take o)

theorem Pos.counts_after {before rest : Bytes} (h : ∀ b ∈ rest.head?, b ≠ lineFeed) :
    (Pos.after before rest).Counts (before ++ rest) := by
  intro o ho hlt
  obtain rfl : before.length = o := Int.ofNat.inj ((offset_after before rest).symm.trans ho)
  cases rest with
  | nil => simp at hlt
  | cons b rest =>
    rw [after_cons before rest (h b rfl), List.take_left]
    exact ⟨rfl, rfl⟩

namespace Token

open Pos (lineFeed)

/-- The kinds of the words: names and keywords. -/
def Kind.isWord : Kind → Bool
  | .ident | .letKw | .function | .ifKw | .elseKw | .returnKw | .trueKw | .falseKw => true
  | _ => false

theorem Kind.isWord_of_ofByte? {b : UInt8} {kind : Kind} (h : Kind.ofByte? b = some kind) :
    kind.isWord = false ∧ kind ≠ .int := by
  unfold Kind.ofByte? at h
  split at h <;> cases h <;> exact ⟨rfl, nofun⟩

theorem Ends.ne_lineFeed {rest : Bytes} (h : Ends rest) : ∀ b ∈ rest.head?, b ≠ lineFeed := by
  intro b hb
  rw [h b hb]
  decide

/-! ### The bytes of one token -/

namespace Stands

variable {before text rest : Bytes} {t : Token}

/-- The first byte of a token is neither a line feed nor NUL. -/
theorem exists_head (h : Stands before text rest t) :
    ∃ b s, text = b :: s ∧ b ≠ lineFeed ∧ b ≠ 0 := by
  have hclass (inClass : UInt8 → Bool) {b : UInt8} (hb : inClass b = true)
      (hfeed : inClass lineFeed = false) (hzero : inClass 0 = false) : b ≠ lineFeed ∧ b ≠ 0 := by
    constructor <;> rintro rfl <;> simp_all
  cases h with
  | word htext hb => exact ⟨_, _, htext, hclass isLetter hb rfl rfl⟩
  | number htext hb => exact ⟨_, _, htext, hclass isDigit hb rfl rfl⟩
  | string htext | unclosed htext | assign htext | bang htext | equal htext | notEqual htext =>
    exact ⟨_, _, htext, by decide, by decide⟩
  | single htext hb =>
    refine ⟨_, _, htext, hclass (fun b => (Kind.ofByte? b).isSome) ?_ rfl rfl⟩
    rw [hb]
    rfl
  | stray htext hzero hblank =>
    refine ⟨_, _, htext, ?_, hzero⟩
    rintro rfl
    cases hblank

/-- A token stands at its first byte, unless it is a string that is not closed. -/
theorem placed (h : Stands before text rest t) :
    t.pos = .after before (text ++ rest) ∨
      t = ⟨.illegal, "unterminated string", .after (before ++ text) rest⟩ ∧ Ends rest := by
  cases h with
  | unclosed _ hraw => exact .inr ⟨rfl, hraw.ends⟩
  | _ => exact .inl rfl

/-- Most tokens have as literal what they are written with. -/
theorem literal_eq (h : Stands before text rest t) (hstring : t.kind ≠ .string)
    (hillegal : t.kind ≠ .illegal) :
    t.literal = text ∧ t.pos = .after before (text ++ rest) := by
  cases h with
  | string => exact absurd rfl hstring
  | unclosed | stray => exact absurd rfl hillegal
  | _ => exact ⟨rfl, rfl⟩

/-- A word or a number does not go on after its text. -/
theorem longest (h : Stands before text rest t) :
    (t.kind.isWord = true → ∀ b ∈ rest.head?, isLetter b = false ∧ isDigit b = false) ∧
      (t.kind = .int → ∀ b ∈ rest.head?, isDigit b = false) := by
  cases h with
  | word _ _ _ hrest =>
    have hrest : ∀ b ∈ rest.head?, isLetter b = false ∧ isDigit b = false := by simpa using hrest
    exact ⟨fun _ => hrest, fun _ b hb => (hrest b hb).2⟩
  | number _ _ _ hrest => exact ⟨nofun, fun _ => hrest⟩
  | single _ hkind =>
    obtain ⟨hword, hint⟩ := Kind.isWord_of_ofByte? hkind
    exact ⟨fun h => by simp [hword] at h, fun h => absurd h hint⟩
  | string | unclosed | assign | bang | equal | notEqual | stray => exact ⟨nofun, nofun⟩

/-- At the offset of a token stands its literal, and no byte that would make it longer follows. -/
theorem literal_at (h : Stands before text rest t) (hstring : t.kind ≠ .string)
    (hillegal : t.kind ≠ .illegal) :
    ∃ o : Nat, t.pos.offset = o ∧ t.literal ≠ [] ∧
      t.literal <+: (before ++ (text ++ rest)).drop o ∧
      ∀ b, (before ++ (text ++ rest))[o + t.literal.length]? = some b →
        (t.kind.isWord = true → isLetter b = false ∧ isDigit b = false) ∧
          (t.kind = .int → isDigit b = false) := by
  obtain ⟨hliteral, hpos⟩ := h.literal_eq hstring hillegal
  refine ⟨before.length, ?_, ?_, ?_, ?_⟩
  · rw [hpos, Pos.offset_after]
  · obtain ⟨b, s, htext, -, -⟩ := h.exists_head
    rw [hliteral, htext]
    exact List.cons_ne_nil b s
  · rw [hliteral, List.drop_left]
    exact List.prefix_append text rest
  · intro b hb
    have hnext : rest.head? = some b := by
      rw [hliteral, ← List.append_assoc, ← List.length_append] at hb
      rwa [List.getElem?_append_right (Nat.le_refl _), Nat.sub_self, ← List.head?_eq_getElem?] at hb
    exact ⟨fun hword => h.longest.1 hword b hnext, fun hint => h.longest.2 hint b hnext⟩

theorem ne_eof (h : Stands before text rest t) : t.kind ≠ .eof := by
  cases h with
  | word => exact Kind.ofWord_ne_eof text
  | single _ hkind =>
    rintro rfl
    exact Kind.ofByte?_ne_eof _ hkind
  | _ => nofun

theorem counts (h : Stands before text rest t) : t.pos.Counts (before ++ (text ++ rest)) := by
  obtain hpos | ⟨rfl, hends⟩ := h.placed
  · rw [hpos]
    apply Pos.counts_after
    obtain ⟨b, s, rfl, hb, -⟩ := h.exists_head
    intro x hx
    obtain rfl := Option.some.inj hx
    exact hb
  · rw [← List.append_assoc]
    exact Pos.counts_after hends.ne_lineFeed

end Stands

/-! ### A source in pieces -/

/-- A token, the bytes that it is written with, and those that were skipped before it. -/
structure Piece where
  gap : Bytes
  text : Bytes
  token : Token

/-- All the bytes of a piece. -/
def Piece.bytes (p : Piece) : Bytes := p.gap ++ p.text

/-- After the bytes `before`, the input goes on with these pieces, then with a gap, and ends. -/
inductive Laid : Bytes → List Piece → Token → Bytes → Prop
  | done {before gap rest : Bytes} : Gap rest gap → Ends rest →
      Laid before [] ⟨.eof, [], .after (before ++ gap) rest⟩ (gap ++ rest)
  | piece {before rest : Bytes} {p : Piece} {pieces : List Piece} {eof : Token} :
      Gap (p.text ++ rest) p.gap → Stands (before ++ p.gap) p.text rest p.token →
      Laid (before ++ p.bytes) pieces eof rest →
      Laid before (p :: pieces) eof (p.gap ++ (p.text ++ rest))

namespace Laid

variable {before rest : Bytes} {pieces : List Piece} {eof : Token}

/-- Each piece stands after the bytes of the pieces before it. -/
theorem exists_stands (h : Laid before pieces eof rest) {earlier later : List Piece} {p : Piece}
    (hpieces : pieces = earlier ++ p :: later) :
    ∃ rest', rest = earlier.flatMap Piece.bytes ++ (p.gap ++ (p.text ++ rest')) ∧
      Gap (p.text ++ rest') p.gap ∧
      Stands (before ++ earlier.flatMap Piece.bytes ++ p.gap) p.text rest' p.token := by
  induction h generalizing earlier with
  | done => simp at hpieces
  | @piece before rest q pieces eof hgap hstands _ ih =>
    cases earlier with
    | nil =>
      obtain ⟨rfl, rfl⟩ := List.cons.inj hpieces
      exact ⟨rest, rfl, hgap, by simpa using hstands⟩
    | cons _ earlier =>
      obtain ⟨rfl, htail⟩ := List.cons.inj hpieces
      obtain ⟨rest', rfl, hgap', hstands'⟩ := ih htail
      exact ⟨rest', by simp [Piece.bytes], hgap', by simpa using hstands'⟩

/-- The input ends after the bytes of all pieces and a gap. -/
theorem exists_end (h : Laid before pieces eof rest) :
    ∃ gap rest', rest = pieces.flatMap Piece.bytes ++ (gap ++ rest') ∧ Gap rest' gap ∧ Ends rest' ∧
      eof = ⟨.eof, [], .after (before ++ pieces.flatMap Piece.bytes ++ gap) rest'⟩ := by
  induction h with
  | @done before gap rest hgap hends => exact ⟨gap, rest, rfl, hgap, hends, by simp⟩
  | @piece before rest p pieces eof _ _ _ ih =>
    obtain ⟨gap, rest', rfl, hgap, hends, rfl⟩ := ih
    exact ⟨gap, rest', by simp [Piece.bytes], hgap, hends, by simp⟩

theorem length_le (h : Laid before pieces eof rest) : pieces.length ≤ rest.length := by
  induction h with
  | done => exact Nat.zero_le _
  | piece _ hstands _ ih =>
    obtain ⟨b, s, htext, -, -⟩ := hstands.exists_head
    simp only [htext, List.length_append, List.length_cons]
    omega

/-- No token stands before the place where the pieces start. -/
theorem le_offset (h : Laid before pieces eof rest) {p : Piece} (hp : p ∈ pieces) :
    before.length ≤ p.token.pos.offset := by
  obtain ⟨earlier, later, hpieces⟩ := List.append_of_mem hp
  obtain ⟨rest', -, -, hstands⟩ := h.exists_stands hpieces
  obtain hpos | ⟨htoken, -⟩ := hstands.placed
  · rw [hpos, Pos.offset_after, List.append_assoc, List.length_append]
    omega
  · rw [htoken, Pos.offset_after, List.append_assoc, List.append_assoc, List.length_append]
    omega

theorem le_offset_eof (h : Laid before pieces eof rest) : before.length ≤ eof.pos.offset := by
  obtain ⟨gap, rest', -, -, -, rfl⟩ := h.exists_end
  rw [Pos.offset_after, List.append_assoc, List.length_append]
  omega

/-- Where the input ends, there is neither a piece nor a gap. -/
theorem eq_of_ends (h : Laid before pieces eof rest) (hends : Ends rest) :
    pieces = [] ∧ eof.pos = .after before rest := by
  have hnil {gap after : Bytes} (hgap : Gap after gap) (hends : Ends (gap ++ after)) :
      gap = [] := by
    cases hgap with
    | nil => rfl
    | blank hb =>
      rw [hends _ rfl] at hb
      cases hb
    | comment => exact absurd (hends 47 rfl) (by decide)
  cases h with
  | done hgap =>
    obtain rfl := hnil hgap hends
    exact ⟨rfl, by simp⟩
  | @piece _ rest p _ _ hgap hstands =>
    obtain ⟨b, s, htext, -, hzero⟩ := hstands.exists_head
    rw [hnil hgap hends, htext] at hends
    exact absurd (hends b rfl) hzero

/-- Offsets increase. Only a string that is not closed stands where the input ends. -/
theorem increasing (h : Laid before pieces eof rest) :
    (pieces.Pairwise fun p q => p.token.pos.offset < q.token.pos.offset) ∧
      ∀ p ∈ pieces, p.token.pos.offset < eof.pos.offset ∨
        p.token = ⟨.illegal, "unterminated string", eof.pos⟩ := by
  induction h with
  | done => exact ⟨.nil, nofun⟩
  | @piece before rest p pieces eof hgap hstands hlaid ih =>
    obtain hpos | ⟨htoken, hends⟩ := hstands.placed
    · have hlt : p.token.pos.offset < (before ++ p.bytes).length := by
        obtain ⟨b, s, htext, -, -⟩ := hstands.exists_head
        rw [hpos, Pos.offset_after, Piece.bytes, htext]
        simp only [List.length_append, List.length_cons]
        omega
      refine ⟨.cons (fun q hq => Int.lt_of_lt_of_le hlt (hlaid.le_offset hq)) ih.1, ?_⟩
      exact List.forall_mem_cons.2 ⟨.inl (Int.lt_of_lt_of_le hlt hlaid.le_offset_eof), ih.2⟩
    · obtain ⟨rfl, heof⟩ := hlaid.eq_of_ends hends
      refine ⟨List.pairwise_singleton _ _, List.forall_mem_singleton.2 (.inr ?_)⟩
      rw [htoken, heof, Piece.bytes, List.append_assoc]

end Laid

/-! ### Reading again and again -/

/-- The token that is found after `n` others. -/
def nth : Cursor → Nat → Token
  | c, 0 => (read c).1
  | c, n + 1 => nth (read c).2 n

theorem nth_of_ends (before : Bytes) {rest : Bytes} (h : Ends rest) (n : Nat) :
    nth (.after before rest) n = ⟨.eof, [], .after before rest⟩ := by
  induction n with
  | zero => rw [nth, read_of_ends before h]
  | succ n ih => rw [nth, read_of_ends before h, ih]

/-- A scan reads until the input ends. -/
theorem scanFrom_eq_read (acc : List Token) (c : Cursor) :
    scanFrom acc c =
      if (read c).1.kind = .eof then (acc.reverse, (read c).1)
      else scanFrom ((read c).1 :: acc) (read c).2 := by
  rw [scanFrom_eq, read]
  rcases skip false c.pos c.rest with ⟨pos, _ | ⟨b, rest⟩⟩
  · rfl
  · by_cases hzero : (b == 0) = true
    · simp only [if_pos hzero, if_true]
    · simp only [if_neg hzero, if_neg (next_ne_eof pos b rest)]

/-- The input from any place on is cut into pieces. Their tokens are those that a scan finds, and
those that are read one by one. -/
theorem exists_laid (before rest : Bytes) :
    ∃ pieces eof, Laid before pieces eof rest ∧
      (∀ acc, scanFrom acc (.after before rest) = (acc.reverse ++ pieces.map (·.token), eof)) ∧
      ∀ n, nth (.after before rest) n = (pieces.map (·.token)).getD n eof := by
  -- Every piece uses up a byte at least, so the induction is on what is left of the input.
  induction hlength : rest.length using Nat.strongRecOn generalizing before rest with
  | ind length ih =>
  obtain ⟨gap, rest', rfl, hgap, hends, hread⟩ | ⟨gap, text, rest', t, rfl, hgap, hstands, hread⟩ :=
    read_after before rest
  · refine ⟨[], _, .done hgap hends, ?_, ?_⟩
    · intro acc
      rw [scanFrom_eq_read, hread, if_pos rfl, List.map_nil, List.append_nil]
    · intro n
      cases n with
      | zero => rw [nth, hread]; rfl
      | succ n => rw [nth, hread, nth_of_ends _ hends]; rfl
  · have hshorter : rest'.length < length := by
      obtain ⟨b, s, rfl, -, -⟩ := hstands.exists_head
      rw [← hlength]
      simp only [List.length_append, List.length_cons]
      omega
    obtain ⟨pieces, eof, hlaid, hscan, hnth⟩ :=
      ih rest'.length hshorter (before ++ gap ++ text) rest' rfl
    refine ⟨⟨gap, text, t⟩ :: pieces, eof, .piece hgap hstands ?_, ?_, ?_⟩
    · rwa [Piece.bytes, ← List.append_assoc]
    · intro acc
      rw [scanFrom_eq_read, hread, if_neg hstands.ne_eof, hscan]
      simp
    · intro n
      cases n with
      | zero => rw [nth, hread]; rfl
      | succ n => rw [nth, hread, hnth]; rfl

/-! ### Faithfulness -/

/-- What the tokens of a source and the token at its end say about its bytes. -/
structure Faithful (source : Bytes) (pieces : List Piece) (eof : Token) : Prop where
  /-- Every token but that for the end of the input uses up a byte. -/
  length_le : pieces.length ≤ source.length
  ne_eof : ∀ p ∈ pieces, p.token.kind ≠ .eof
  /-- After the pieces and a gap the input ends, with its last byte or at a NUL byte. -/
  exists_end : ∃ gap rest, source = pieces.flatMap Piece.bytes ++ (gap ++ rest) ∧ Gap rest gap ∧
    eof.kind = .eof ∧ eof.pos.offset = (pieces.flatMap Piece.bytes ++ gap).length ∧
    (eof.pos.offset = source.length ∨ ∃ o : Nat, eof.pos.offset = o ∧ source[o]? = some 0)
  /-- Each piece is a gap and the text of its token. -/
  exists_stands : ∀ earlier p later, pieces = earlier ++ p :: later →
    ∃ rest, source = earlier.flatMap Piece.bytes ++ (p.gap ++ (p.text ++ rest)) ∧
      Gap (p.text ++ rest) p.gap ∧
      Stands (earlier.flatMap Piece.bytes ++ p.gap) p.text rest p.token
  increasing : pieces.Pairwise fun p q => p.token.pos.offset < q.token.pos.offset
  /-- Only a string that is not closed stands where the input ends. -/
  before_eof : ∀ p ∈ pieces, p.token.pos.offset < eof.pos.offset ∨
    p.token = ⟨.illegal, "unterminated string", eof.pos⟩
  /-- The literal of a token is what stands at its offset. -/
  literal : ∀ p ∈ pieces, p.token.kind ≠ .string → p.token.kind ≠ .illegal →
    ∃ o : Nat, p.token.pos.offset = o ∧ p.token.literal ≠ [] ∧ p.token.literal <+: source.drop o ∧
      ∀ b, source[o + p.token.literal.length]? = some b →
        (p.token.kind.isWord = true → isLetter b = false ∧ isDigit b = false) ∧
          (p.token.kind = .int → isDigit b = false)
  /-- Lines and columns are counted. -/
  counts : ∀ t ∈ pieces.map (·.token) ++ [eof], t.pos.Counts source

theorem Laid.faithful {source : Bytes} {pieces : List Piece} {eof : Token}
    (h : Laid [] pieces eof source) : Faithful source pieces eof := by
  have hpiece : ∀ p ∈ pieces, ∃ before rest, source = before ++ (p.text ++ rest) ∧
      Stands before p.text rest p.token := by
    intro p hp
    obtain ⟨earlier, later, hpieces⟩ := List.append_of_mem hp
    obtain ⟨rest, hsource, -, hstands⟩ := h.exists_stands hpieces
    exact ⟨_, rest, by simpa using hsource, hstands⟩
  obtain ⟨gap, rest, hsource, hgap, hends, heof⟩ := h.exists_end
  rw [List.nil_append] at heof
  have hend : eof.pos.offset = (pieces.flatMap Piece.bytes ++ gap).length := by
    rw [heof, Pos.offset_after]
  refine ⟨h.length_le, ?_, ⟨gap, rest, hsource, hgap, by rw [heof], hend, ?_⟩, ?_, h.increasing.1,
    h.increasing.2, ?_, ?_⟩
  · intro p hp
    obtain ⟨before, rest, -, hstands⟩ := hpiece p hp
    exact hstands.ne_eof
  · rw [hend, hsource, ← List.append_assoc]
    cases rest with
    | nil => exact .inl (by rw [List.append_nil])
    | cons b rest =>
      rw [hends b rfl]
      exact .inr ⟨_, rfl, by simp⟩
  · intro earlier p later hpieces
    simpa using h.exists_stands hpieces
  · intro p hp hstring hillegal
    obtain ⟨before, rest, hsource, hstands⟩ := hpiece p hp
    rw [hsource]
    exact hstands.literal_at hstring hillegal
  · rw [List.forall_mem_append, List.forall_mem_map, List.forall_mem_singleton]
    constructor
    · intro p hp
      obtain ⟨before, rest, hsource, hstands⟩ := hpiece p hp
      rw [hsource]
      exact hstands.counts
    · rw [heof, hsource, ← List.append_assoc]
      exact Pos.counts_after hends.ne_lineFeed

/-- The tokens of every source are faithful to it. They are what reading again and again finds, and
after them the end of the input is found for ever. -/
theorem scan_faithful (source : Bytes) :
    ∃ pieces : List Piece, pieces.map (·.token) = (scan source).1 ∧
      Faithful source pieces (scan source).2 ∧
      (∀ n, nth ⟨.start source, source⟩ n = (scan source).1.getD n (scan source).2) ∧
      ∀ n, source.length ≤ n → nth ⟨.start source, source⟩ n = (scan source).2 := by
  obtain ⟨pieces, eof, hlaid, hscan, hnth⟩ := exists_laid [] source
  have hscan : scan source = (pieces.map (·.token), eof) := hscan []
  rw [hscan]
  refine ⟨pieces, rfl, hlaid.faithful, hnth, fun n hn => ?_⟩
  have hpast : (pieces.map (·.token)).length ≤ n := by
    rw [List.length_map]
    exact Nat.le_trans hlaid.length_le hn
  refine (hnth n).trans ?_
  rw [List.getD_eq_getElem?_getD, List.getElem?_eq_none hpast, Option.getD_none]

end Token

end StackScript
