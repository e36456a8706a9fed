import Mathlib.Data.List.Basic
import StackScript.Token.Scan

/-!
# What a token is written with

A place in a source is given by the bytes before it and those from it on, and
its position by a count over the bytes before it. From such a place blanks and
comments are skipped and one token is read. What the scanner finds there is
stated without it: the bytes that may be skipped, and the bytes that a token is
written with, which depend on what follows them.

## Main definitions

* `Pos.after`: the position after given bytes.
* `Token.Gap`: the bytes are blanks and comments.
* `Token.Stands`: the token is written with these bytes.
* `Token.read`: skip, then read one token or the end of the input.

## Main results

* `Token.next_stands`: a token that is read is written with the bytes that are used up.
* `Token.read_after`: what one reading does.
-/

namespace StackScript

/-! ### Positions -/

namespace Pos

/-- The offsets at which line feeds stand. -/
def feeds (s : Bytes) : List Nat := (List.range s.length).filter fun k => s[k]? == some lineFeed

theorem feeds_concat (s : Bytes) (b : UInt8) :
    feeds (s ++ [b]) = feeds s ++ if b = lineFeed then [s.length] else [] := by
  have hbefore :
      (List.range s.length).filter (fun k => (s ++ [b])[k]? == some lineFeed) = feeds s := by
    apply List.filter_congr
    intro k hk
    rw [List.getElem?_append_left (List.mem_range.1 hk)]
  rw [feeds, List.length_append, List.length_singleton, List.range_succ, List.filter_append,
    hbefore]
  split <;> simp_all

/-- The offset of the last line feed, or `-1` if there is none. -/
def lastFeed (s : Bytes) : Int :=
  match (feeds s).getLast? with
  | some k => k
  | _ => -1

@[simp] theorem lastFeed_concat_lineFeed (s : Bytes) : lastFeed (s ++ [lineFeed]) = s.length := by
  simp [lastFeed, feeds_concat]

theorem lastFeed_concat_of_ne (s : Bytes) {b : UInt8} (hb : b ≠ lineFeed) :
    lastFeed (s ++ [b]) = lastFeed s := by
  simp [lastFeed, feeds_concat, hb]

/-- The position after some bytes, with `rest` as what follows them. -/
def after (before rest : Bytes) : Pos :=
  .enter before.length (1 + before.count lineFeed) (before.length - 1 - lastFeed before) rest

@[simp] theorem offset_after (before rest : Bytes) : (after before rest).offset = before.length := by
  unfold after enter
  split
  · rfl
  · split <;> rfl

/-- On a byte that is no line feed, the column is the distance to the last line feed. -/
theorem after_cons (before rest : Bytes) {b : UInt8} (hb : b ≠ lineFeed) :
    after before (b :: rest) =
      ⟨before.length, 1 + before.count lineFeed, before.length - lastFeed before⟩ := by
  rw [after, enter, if_neg hb]
  congr 1
  omega

/-- A step counts the byte that it leaves. -/
theorem step_after (before : Bytes) (b : UInt8) (rest : Bytes) :
    (after before (b :: rest)).step rest = .after (before ++ [b]) rest := by
  by_cases hb : b = lineFeed
  · subst hb
    rw [after, enter, if_pos rfl, step, after]
    simp [Int.add_assoc]
  · rw [after_cons before rest hb, step, after, lastFeed_concat_of_ne before hb]
    congr 1
    · simp
    · simp [List.count_append, hb]
    · simp

end Pos

namespace Token

open Pos (lineFeed)

/-- The input from a place on, given the bytes before it. -/
def Cursor.after (before rest : Bytes) : Cursor := ⟨.after before rest, rest⟩

/-- The input ends here: with its last byte, or at a NUL byte. -/
def Ends (rest : Bytes) : Prop := ∀ b ∈ rest.head?, b = 0

/-! ### Blanks and comments -/

/-- The bytes are blanks and comments. A comment runs from two slashes to a line feed or to where the
input ends, be it before `rest`. -/
inductive Gap (rest : Bytes) : Bytes → Prop
  | nil : Gap rest []
  | blank {b : UInt8} {s : Bytes} : isBlank b = true → Gap rest s → Gap rest (b :: s)
  | comment {text s : Bytes} : (∀ b ∈ text, b ≠ lineFeed ∧ b ≠ 0) →
      (∀ b ∈ (s ++ rest).head?, b = lineFeed ∨ b = 0) → Gap rest s →
      Gap rest (47 :: 47 :: (text ++ s))

/-- The bytes go on with a comment, and are blanks and comments after it. -/
def InComment (rest s : Bytes) : Prop :=
  ∃ text s', s = text ++ s' ∧ (∀ b ∈ text, b ≠ lineFeed ∧ b ≠ 0) ∧
    (∀ b ∈ (s' ++ rest).head?, b = lineFeed ∨ b = 0) ∧ Gap rest s'

/-- A token or the end of the input can stand here: there is nothing to skip. -/
def Starts (rest : Bytes) : Prop :=
  ∀ b ∈ rest.head?, isBlank b = false ∧ (b = 47 → rest.tail.head? ≠ some 47)

theorem ends_nil : Ends [] := by
  intro b hb
  cases hb

theorem starts_nil : Starts [] := by
  intro b hb
  cases hb

theorem InComment.of_ends {rest : Bytes} (h : Ends rest) : InComment rest [] :=
  ⟨[], [], rfl, nofun, fun b hb => .inr (h b hb), .nil⟩

theorem InComment.of_gap {rest s : Bytes} (h : Gap rest s) : InComment rest (lineFeed :: s) :=
  ⟨[], lineFeed :: s, rfl, nofun, fun b hb => .inl (by simpa [eq_comm] using hb), .blank rfl h⟩

theorem InComment.cons {rest s : Bytes} {b : UInt8} (hfeed : b ≠ lineFeed) (hzero : b ≠ 0)
    (h : InComment rest s) : InComment rest (b :: s) := by
  obtain ⟨text, s', rfl, htext, hstop, hgap⟩ := h
  exact ⟨b :: text, s', rfl, List.forall_mem_cons.2 ⟨⟨hfeed, hzero⟩, htext⟩, hstop, hgap⟩

/-- Two slashes start a comment. -/
theorem InComment.gap {rest s : Bytes} (h : InComment rest s)
    (hslash : (s ++ rest).head? = some 47) : Gap rest (47 :: s) := by
  obtain ⟨text, s', rfl, htext, hstop, hgap⟩ := h
  cases text with
  | nil => exact absurd (hstop 47 hslash) (by decide)
  | cons b text =>
    obtain rfl : b = 47 := by simpa using hslash
    exact .comment (fun x hx => htext x (List.mem_cons_of_mem 47 hx)) hstop hgap

/-- What may be skipped, inside a comment or not. -/
def Skipped (inComment : Bool) (rest s : Bytes) : Prop :=
  if inComment then InComment rest s else Gap rest s

/-- What is skipped are blanks and comments, and all of them. -/
theorem skip_after (inComment : Bool) (before rest : Bytes) :
    ∃ gap rest', rest = gap ++ rest' ∧ Skipped inComment rest' gap ∧ Starts rest' ∧
      skip inComment (.after before rest) rest = .after (before ++ gap) rest' := by
  induction rest generalizing inComment before with
  | nil =>
    refine ⟨[], [], rfl, ?_, starts_nil, by simp [skip, Cursor.after]⟩
    cases inComment with
    | false => exact Gap.nil
    | true => exact InComment.of_ends ends_nil
  | cons b rest ih =>
    have hstay : Cursor.mk (.after before (b :: rest)) (b :: rest) =
        .after (before ++ []) ([] ++ b :: rest) := by
      rw [List.append_nil]
      rfl
    have hcons {next : Bool} (hnext : ∀ gap rest', rest = gap ++ rest' → Skipped next rest' gap →
        Skipped inComment rest' (b :: gap)) :
        ∃ gap rest', b :: rest = gap ++ rest' ∧ Skipped inComment rest' gap ∧ Starts rest' ∧
          skip next ((Pos.after before (b :: rest)).step rest) rest =
            .after (before ++ gap) rest' := by
      obtain ⟨gap, rest', hrest, hgap, hstarts, heq⟩ := ih next (before ++ [b])
      refine ⟨b :: gap, rest', congrArg (b :: ·) hrest, hnext gap rest' hrest hgap, hstarts, ?_⟩
      rw [Pos.step_after, heq, List.append_assoc, List.singleton_append]
    unfold skip
    cases inComment with
    | true =>
      rw [if_pos rfl]
      by_cases hzero : b = 0
      · subst hzero
        refine ⟨[], 0 :: rest, rfl, InComment.of_ends ?_, ?_, hstay⟩
        · intro b hb
          exact (Option.some.inj hb).symm
        · intro b hb
          obtain rfl := Option.some.inj hb
          exact ⟨rfl, fun h => absurd h (by decide)⟩
      · rw [if_neg (by simpa using hzero)]
        apply hcons
        intro gap rest' hrest hgap
        by_cases hfeed : b = lineFeed
        · subst hfeed
          exact InComment.of_gap hgap
        · rw [show (b != lineFeed) = true by simpa using hfeed] at hgap
          exact InComment.cons hfeed hzero hgap
    | false =>
      rw [if_neg (by decide)]
      split
      · next hblank => exact hcons fun gap rest' hrest hgap => Gap.blank hblank hgap
      next hblank =>
      split
      · next hslash =>
        obtain ⟨rfl, hhead⟩ : b = 47 ∧ rest.head? = some 47 := by simpa using hslash
        exact hcons fun gap rest' hrest hgap => InComment.gap hgap (hrest ▸ hhead)
      · next hslash =>
        refine ⟨[], b :: rest, rfl, Gap.nil, ?_, hstay⟩
        intro x hx
        obtain rfl := Option.some.inj hx
        exact ⟨by simpa using hblank, by simpa using hslash⟩

/-! ### Runs -/

theorem run_after (inClass : UInt8 → Bool) (acc before rest : Bytes) :
    ∃ s rest', rest = s ++ rest' ∧ (∀ b ∈ s, inClass b = true) ∧
      (∀ b ∈ rest'.head?, inClass b = false) ∧
      run inClass acc (.after before rest) rest =
        (acc.reverse ++ s, .after (before ++ s) rest') := by
  induction rest generalizing acc before with
  | nil => exact ⟨[], [], rfl, nofun, nofun, by simp [run, Cursor.after]⟩
  | cons b rest ih =>
    unfold run
    by_cases hb : inClass b = true
    · obtain ⟨s, rest', rfl, hs, hrest', heq⟩ := ih (b :: acc) (before ++ [b])
      refine ⟨b :: s, rest', rfl, List.forall_mem_cons.2 ⟨hb, hs⟩, hrest', ?_⟩
      rw [if_pos hb, Pos.step_after, heq]
      simp
    · refine ⟨[], b :: rest, rfl, nofun, ?_, by simp [hb, Cursor.after]⟩
      intro x hx
      obtain rfl : b = x := by simpa using hx
      simpa using hb

/-! ### Strings -/

/-- Between quotes, these bytes stand for the string. -/
inductive Quoted : Bytes → Bytes → Prop
  | nil : Quoted [] []
  | plain {b : UInt8} {raw s : Bytes} : b ≠ 0 → b ≠ 34 → b ≠ 92 → Quoted raw s →
      Quoted (b :: raw) (b :: s)
  | escaped {raw s : Bytes} (e : UInt8) : Quoted raw s → Quoted (92 :: e :: raw) (unescape e :: s)

/-- After the opening quote come these bytes, and with them the input ends. -/
inductive Unclosed (rest : Bytes) : Bytes → Prop
  | nil : Ends rest → Unclosed rest []
  | backslash : rest = [] → Unclosed rest [92]
  | plain {b : UInt8} {raw : Bytes} : b ≠ 0 → b ≠ 34 → b ≠ 92 → Unclosed rest raw →
      Unclosed rest (b :: raw)
  | escaped {raw : Bytes} (e : UInt8) : Unclosed rest raw → Unclosed rest (92 :: e :: raw)

theorem Unclosed.ends {rest raw : Bytes} (h : Unclosed rest raw) : Ends rest := by
  induction h with
  | nil h => exact h
  | backslash h => exact h ▸ nofun
  | plain _ _ _ _ ih | escaped _ _ ih => exact ih

/-- What follows an opening quote is a string and its closing quote, or the input ends in it. -/
theorem body_after (acc before rest : Bytes) :
    (∃ raw s rest', rest = raw ++ 34 :: rest' ∧ Quoted raw s ∧
      body acc (.after before rest) rest =
        (some (acc.reverse ++ s), .after (before ++ raw ++ [34]) rest')) ∨
    ∃ raw rest', rest = raw ++ rest' ∧ Unclosed rest' raw ∧
      body acc (.after before rest) rest = (none, .after (before ++ raw) rest') := by
  -- The position is determined by what has been read, which grows along with the induction.
  generalize hpos : Pos.after before rest = pos
  fun_induction body acc pos rest generalizing before with subst hpos
  | case1 acc => exact .inr ⟨[], [], rfl, .nil ends_nil, by simp [Cursor.after]⟩
  | case2 acc _ b rest hzero =>
    refine .inr ⟨[], b :: rest, rfl, .nil ?_, by simp [Cursor.after]⟩
    intro x hx
    rw [← Option.some.inj hx]
    simpa using hzero
  | case3 acc _ b rest _ hquote =>
    obtain rfl : b = 34 := by simpa using hquote
    exact .inl ⟨[], [], rest, rfl, .nil, by simp [Pos.step_after, Cursor.after]⟩
  | case4 acc _ b _ _ hbackslash =>
    obtain rfl : b = 92 := by simpa using hbackslash
    exact .inr ⟨[92], [], rfl, .backslash rfl, by simp [Pos.step_after, Cursor.after]⟩
  | case5 acc _ b _ _ hbackslash e rest ih =>
    obtain rfl : b = 92 := by simpa using hbackslash
    rw [Pos.step_after, Pos.step_after] at ih ⊢
    obtain ⟨raw, s, rest', rfl, hraw, heq⟩ | ⟨raw, rest', rfl, hraw, heq⟩ :=
      ih (before ++ [92] ++ [e]) rfl
    · refine .inl ⟨92 :: e :: raw, unescape e :: s, rest', rfl, .escaped e hraw, ?_⟩
      rw [heq]
      simp
    · refine .inr ⟨92 :: e :: raw, rest', rfl, .escaped e hraw, ?_⟩
      rw [heq]
      simp
  | case6 acc _ b rest hzero hquote hbackslash ih =>
    have hzero : b ≠ 0 := by simpa using hzero
    have hquote : b ≠ 34 := by simpa using hquote
    have hbackslash : b ≠ 92 := by simpa using hbackslash
    rw [Pos.step_after] at ih ⊢
    obtain ⟨raw, s, rest', rfl, hraw, heq⟩ | ⟨raw, rest', rfl, hraw, heq⟩ := ih (before ++ [b]) rfl
    · refine .inl ⟨b :: raw, b :: s, rest', rfl, .plain hzero hquote hbackslash hraw, ?_⟩
      rw [heq]
      simp
    · refine .inr ⟨b :: raw, rest', rfl, .plain hzero hquote hbackslash hraw, ?_⟩
      rw [heq]
      simp

/-! ### Tokens -/

/-- After the bytes `before`, the token is written with `text`, and `rest` follows. It stands at its
first byte, but for a string that is not closed, which is found out only where the input ends. -/
inductive Stands (before text rest : Bytes) : Token → Prop
  | word {b : UInt8} {s : Bytes} : text = b :: s → isLetter b = true →
      (∀ x ∈ s, (isLetter x || isDigit x) = true) →
      (∀ x ∈ rest.head?, (isLetter x || isDigit x) = false) →
      Stands before text rest ⟨.ofWord text, text, .after before (text ++ rest)⟩
  | number {b : UInt8} {s : Bytes} : text = b :: s → isDigit b = true →
      (∀ x ∈ s, isDigit x = true) → (∀ x ∈ rest.head?, isDigit x = false) →
      Stands before text rest ⟨.int, text, .after before (text ++ rest)⟩
  | string {raw s : Bytes} : text = 34 :: (raw ++ [34]) → Quoted raw s →
      Stands before text rest ⟨.string, s, .after before (text ++ rest)⟩
  | unclosed {raw : Bytes} : text = 34 :: raw → Unclosed rest raw →
      Stands before text rest ⟨.illegal, "unterminated string", .after (before ++ text) rest⟩
  | single {b : UInt8} {kind : Kind} : text = [b] → Kind.ofByte? b = some kind →
      (b = 47 → rest.head? ≠ some 47) →
      Stands before text rest ⟨kind, text, .after before (text ++ rest)⟩
  | assign : text = [61] → rest.head? ≠ some 61 →
      Stands before text rest ⟨.assign, text, .after before (text ++ rest)⟩
  | bang : text = [33] → rest.head? ≠ some 61 →
      Stands before text rest ⟨.bang, text, .after before (text ++ rest)⟩
  | equal : text = [61, 61] →
      Stands before text rest ⟨.equal, text, .after before (text ++ rest)⟩
  | notEqual : text = [33, 61] →
      Stands before text rest ⟨.notEqual, text, .after before (text ++ rest)⟩
  | stray {b : UInt8} : text = [b] → b ≠ 0 → isBlank b = false → isLetter b = false →
      isDigit b = false → b ∉ [33, 34, 61] → Kind.ofByte? b = none →
      Stands before text rest ⟨.illegal, byteText b, .after before (text ++ rest)⟩

/-- An operator of one byte, or of two if an equals sign follows. -/
theorem pair_stands (before : Bytes) (b : UInt8) (rest : Bytes) {two one : Kind}
    (htwo : ∀ rest', Stands before [b, 61] rest' ⟨two, [b, 61], .after before (b :: 61 :: rest')⟩)
    (hone : rest.head? ≠ some 61 → Stands before [b] rest ⟨one, [b], .after before (b :: rest)⟩) :
    ∃ text rest' t, b :: rest = text ++ rest' ∧ Stands before text rest' t ∧
      (if rest.head? == some 61 then
          (⟨two, [b, 61], .after before (b :: rest)⟩, Cursor.next (.after (before ++ [b]) rest))
        else (⟨one, [b], .after before (b :: rest)⟩, .after (before ++ [b]) rest)) =
        ((t, .after (before ++ text) rest') : Token × Cursor) := by
  by_cases hrest : rest.head? = some 61
  · obtain ⟨rest', rfl⟩ := List.head?_eq_some_iff.1 hrest
    refine ⟨[b, 61], rest', _, rfl, htwo rest', ?_⟩
    simp [Cursor.next, Cursor.after, Pos.step_after]
  · exact ⟨[b], rest, _, rfl, hone hrest, if_neg (by simpa using hrest)⟩

/-- A token that is read is written with the bytes that are used up. -/
theorem next_stands (before : Bytes) {b : UInt8} {rest : Bytes} (hzero : b ≠ 0)
    (hstarts : Starts (b :: rest)) :
    ∃ text rest' t, b :: rest = text ++ rest' ∧ Stands before text rest' t ∧
      next (.after before (b :: rest)) b rest = (t, .after (before ++ text) rest') := by
  obtain ⟨hblank, hslash⟩ := hstarts b rfl
  unfold next
  simp only [Pos.step_after]
  split
  · next hassign =>
    obtain rfl : b = 61 := by simpa using hassign
    exact pair_stands before 61 rest (fun _ => .equal rfl) (.assign rfl)
  next hassign =>
  split
  · next hbang =>
    obtain rfl : b = 33 := by simpa using hbang
    exact pair_stands before 33 rest (fun _ => .notEqual rfl) (.bang rfl)
  next hbang =>
  split
  · next hquote =>
    obtain rfl : b = 34 := by simpa using hquote
    obtain ⟨raw, s, rest', rfl, hraw, heq⟩ | ⟨raw, rest', rfl, hraw, heq⟩ :=
      body_after [] (before ++ [34]) rest
    · refine ⟨34 :: (raw ++ [34]), rest', _, by simp, .string rfl hraw, ?_⟩
      rw [heq]
      simp
    · refine ⟨34 :: raw, rest', _, rfl, .unclosed rfl hraw, ?_⟩
      rw [heq]
      simp [Cursor.after]
  next hquote =>
  split
  · next hletter =>
    obtain ⟨s, rest', rfl, hs, hrest', heq⟩ :=
      run_after (fun x => isLetter x || isDigit x) [b] (before ++ [b]) rest
    refine ⟨b :: s, rest', _, rfl, .word rfl hletter hs hrest', ?_⟩
    rw [heq]
    simp
  next hletter =>
  split
  · next hdigit =>
    obtain ⟨s, rest', rfl, hs, hrest', heq⟩ := run_after isDigit [b] (before ++ [b]) rest
    refine ⟨b :: s, rest', _, rfl, .number rfl hdigit hs hrest', ?_⟩
    rw [heq]
    simp
  next hdigit =>
  split
  · next kind hkind => exact ⟨[b], rest, _, rfl, .single rfl hkind hslash, rfl⟩
  · next hkind =>
    refine ⟨[b], rest, _, rfl, .stray rfl hzero hblank ?_ ?_ ?_ hkind, rfl⟩
    · simpa using hletter
    · simpa using hdigit
    · simp_all

/-! ### Reading -/

/-- Skip blanks and comments, then read a token. Where the input ends, its end is read and nothing is
used up. -/
def read (c : Cursor) : Token × Cursor :=
  match skip false c.pos c.rest with
  | ⟨pos, []⟩ => (⟨.eof, [], pos⟩, ⟨pos, []⟩)
  | ⟨pos, b :: rest⟩ => if b == 0 then (⟨.eof, [], pos⟩, ⟨pos, b :: rest⟩) else next pos b rest

/-- What one reading does: it finds the end of the input after a gap, or a token after a gap. -/
theorem read_after (before rest : Bytes) :
    (∃ gap rest', rest = gap ++ rest' ∧ Gap rest' gap ∧ Ends rest' ∧
      read (.after before rest) =
        (⟨.eof, [], .after (before ++ gap) rest'⟩, .after (before ++ gap) rest')) ∨
    ∃ gap text rest' t, rest = gap ++ (text ++ rest') ∧ Gap (text ++ rest') gap ∧
      Stands (before ++ gap) text rest' t ∧
      read (.after before rest) = (t, .after (before ++ gap ++ text) rest') := by
  obtain ⟨gap, rest₁, rfl, hgap, hstarts, hskip⟩ := skip_after false before rest
  unfold read
  rw [Cursor.after, hskip]
  cases rest₁ with
  | nil => exact .inl ⟨gap, [], rfl, hgap, nofun, rfl⟩
  | cons b rest₁ =>
    by_cases hzero : b = 0
    · subst hzero
      refine .inl ⟨gap, 0 :: rest₁, rfl, hgap, ?_, rfl⟩
      intro b hb
      exact (Option.some.inj hb).symm
    · obtain ⟨text, rest', t, htext, ht, heq⟩ := next_stands (before ++ gap) hzero hstarts
      refine .inr ⟨gap, text, rest', t, by rw [htext], htext ▸ hgap, ht, ?_⟩
      rw [← heq]
      exact if_neg (by simpa using hzero)

/-- Where the input has ended, its end is read for ever. -/
theorem read_of_ends (before : Bytes) {rest : Bytes} (h : Ends rest) :
    read (.after before rest) = (⟨.eof, [], .after before rest⟩, .after before rest) := by
  cases rest with
  | nil => rfl
  | cons b rest =>
    obtain rfl := h b rfl
    rfl

end Token

end StackScript
