import StackScript.Proofs.Token.Faithful
import StackScript.Proofs.Tree.Positions

/-!
# Sources in lines

A line feed ends a comment and every token but a string. So what is found in a
source stays as it is if the source goes on in a new line, unless the input ends
in it: at a NUL byte, or in a string that is not closed.

Where a token stands does not matter for what it is. Tokens are compared without
their positions here, since those of the new line are counted on from the source.

## Main definitions

* `Token.Break`: a new line follows, or nothing at all.
* `Token.shapes`: the tokens from a place on, without their positions.

## Main results

* `Token.read_break`: what is read before a break does not depend on what follows it.
* `Token.shapes_break`: the tokens of a source are followed by those of the new line.
-/

namespace StackScript

namespace Token

open Pos (lineFeed)

/-- A new line follows, or nothing at all. -/
def Break (more : Bytes) : Prop := ∀ b ∈ more.head?, b = lineFeed

theorem break_nil : Break [] := by
  intro b hb
  cases hb

theorem break_lineFeed (more : Bytes) : Break (lineFeed :: more) := by
  intro b hb
  exact (Option.some.inj hb).symm

/-- A line feed is not what is looked for in the next byte. -/
theorem Break.head?_append {more : Bytes} (hmore : Break more) (s : Bytes) {b : UInt8}
    (hb : b ≠ lineFeed) : ((s ++ more).head? == some b) = (s.head? == some b) := by
  cases s with
  | cons x s => rfl
  | nil =>
    cases more with
    | nil => rfl
    | cons x more =>
      obtain rfl := hmore x rfl
      simpa using hb.symm

/-! ### Blanks and comments -/

theorem rest_skip_pos (inComment : Bool) (pos pos' : Pos) (s : Bytes) :
    (skip inComment pos s).rest = (skip inComment pos' s).rest := by
  induction s generalizing inComment pos pos' with
  | nil => rfl
  | cons x s ih =>
    unfold skip
    split
    · split
      · rfl
      · exact ih _ _ _
    split
    · exact ih _ _ _
    split
    · exact ih _ _ _
    · rfl

/-- What is not skipped before a break is not skipped whatever follows it. If all is skipped,
skipping goes on after the break as it would start there. -/
theorem rest_skip_break {more : Bytes} (hmore : Break more) (inComment : Bool) (s : Bytes)
    (pos pos' stop : Pos) :
    (skip inComment pos' (s ++ more)).rest =
      if (skip inComment pos s).rest = [] then (skip false stop more).rest
      else (skip inComment pos s).rest ++ more := by
  induction s generalizing inComment pos pos' with
  | nil =>
    rw [if_pos (by rfl)]
    cases more with
    | nil => rfl
    | cons x more =>
      obtain rfl := hmore x rfl
      cases inComment with
      | false => exact rest_skip_pos false pos' stop _
      | true => exact rest_skip_pos false _ _ more
  | cons x s ih =>
    have hstay : (x :: s ++ more : Bytes) =
        if x :: s = [] then (skip false stop more).rest else x :: s ++ more :=
      (if_neg (List.cons_ne_nil x s)).symm
    rw [List.cons_append, skip, skip, hmore.head?_append s (by decide)]
    split
    · split
      · exact hstay
      · exact ih _ _ _
    split
    · exact ih _ _ _
    split
    · exact ih _ _ _
    · exact hstay

/-! ### Single tokens -/

/-- A run ends before a byte that is not in its class. -/
theorem run_break {inClass : UInt8 → Bool} {more : Bytes}
    (hmore : ∀ b ∈ more.head?, inClass b = false) (acc s : Bytes) (pos pos' : Pos) :
    (run inClass acc pos' (s ++ more)).1 = (run inClass acc pos s).1 ∧
      (run inClass acc pos' (s ++ more)).2.rest = (run inClass acc pos s).2.rest ++ more := by
  induction s generalizing acc pos pos' with
  | nil =>
    obtain ⟨stop, hrun⟩ := run_append (s := []) (List.forall_mem_nil _) hmore acc pos'
    rw [hrun, List.append_nil]
    exact ⟨rfl, rfl⟩
  | cons b s ih =>
    rw [List.cons_append]
    unfold run
    split
    · exact ih _ _ _
    · exact ⟨rfl, rfl⟩

/-- What follows a string does not matter, if it is closed. -/
theorem body_break {more acc s : Bytes} {pos : Pos} {r : Option Bytes} {c : Cursor}
    (h : body acc pos s = (r, c)) (hmore : more = [] ∨ r ≠ none) (pos' : Pos) :
    ∃ c', body acc pos' (s ++ more) = (r, c') ∧ c'.rest = c.rest ++ more := by
  fun_induction body acc pos s generalizing pos' with
  | case1 =>
    cases h
    obtain rfl := hmore.resolve_right (absurd rfl)
    exact ⟨_, rfl, rfl⟩
  | case2 acc pos b s hzero =>
    cases h
    obtain rfl := hmore.resolve_right (absurd rfl)
    unfold body
    exact ⟨_, if_pos hzero, rfl⟩
  | case3 acc pos b s hzero hquote =>
    cases h
    rw [List.cons_append]
    unfold body
    rw [if_neg hzero, if_pos hquote]
    exact ⟨_, rfl, rfl⟩
  | case4 acc pos b hzero hquote hbackslash =>
    cases h
    obtain rfl := hmore.resolve_right (absurd rfl)
    rw [List.append_nil]
    unfold body
    rw [if_neg hzero, if_neg hquote, if_pos hbackslash]
    exact ⟨_, rfl, rfl⟩
  | case5 acc pos b hzero hquote hbackslash e s ih =>
    rw [List.cons_append, List.cons_append]
    unfold body
    rw [if_neg hzero, if_neg hquote, if_pos hbackslash]
    exact ih h _
  | case6 acc pos b s hzero hquote hbackslash ih =>
    rw [List.cons_append]
    unfold body
    rw [if_neg hzero, if_neg hquote, if_neg hbackslash]
    exact ih h _

/-- The second reading found the same token as the first one, and `more` after what follows it. -/
structure Extends (more : Bytes) (x y : Token × Cursor) : Prop where
  token : y.1.shape = x.1.shape
  rest : y.2.rest = x.2.rest ++ more

theorem Extends.kind {more : Bytes} {x y : Token × Cursor} (h : Extends more x y) :
    y.1.kind = x.1.kind := by
  have hkind := congrArg Token.kind h.token
  exact hkind

theorem Extends.rest_eq {x y : Token × Cursor} (h : Extends [] x y) : y.2.rest = x.2.rest :=
  h.rest.trans (List.append_nil _)

/-- An operator of one byte, or of two if an equals sign follows. -/
theorem pair_break {more : Bytes} (hmore : Break more) (two one : Kind) (b : UInt8) (s : Bytes)
    (pos pos' : Pos) :
    Extends more
      (if s.head? == some 61 then (⟨two, [b, 61], pos⟩, Cursor.next ⟨pos.step s, s⟩)
        else (⟨one, [b], pos⟩, ⟨pos.step s, s⟩))
      (if (s ++ more).head? == some 61 then
          (⟨two, [b, 61], pos'⟩, Cursor.next ⟨pos'.step (s ++ more), s ++ more⟩)
        else (⟨one, [b], pos'⟩, ⟨pos'.step (s ++ more), s ++ more⟩)) := by
  rw [hmore.head?_append s (by decide)]
  split
  · next hs =>
    obtain ⟨s, rfl⟩ := List.head?_eq_some_iff.1 (eq_of_beq hs)
    exact ⟨rfl, rfl⟩
  · exact ⟨rfl, rfl⟩

/-- A token ends before a break, unless it is a string that is not closed. -/
theorem next_break {more : Bytes} (hmore : Break more) {pos : Pos} {b : UInt8} {s : Bytes}
    (h : more = [] ∨ (next pos b s).1.kind ≠ .illegal) (pos' : Pos) :
    Extends more (next pos b s) (next pos' b (s ++ more)) := by
  have hclass (inClass : UInt8 → Bool) (hfeed : inClass lineFeed = false) :
      ∀ x ∈ more.head?, inClass x = false := by
    intro x hx
    rw [hmore x hx]
    exact hfeed
  unfold next at h ⊢
  dsimp only at h ⊢
  by_cases hassign : (b == 61) = true
  · rw [if_pos hassign, if_pos hassign]
    exact pair_break hmore _ _ b s pos pos'
  rw [if_neg hassign] at h ⊢
  rw [if_neg hassign]
  by_cases hbang : (b == 33) = true
  · rw [if_pos hbang, if_pos hbang]
    exact pair_break hmore _ _ b s pos pos'
  rw [if_neg hbang] at h ⊢
  rw [if_neg hbang]
  by_cases hquote : (b == 34) = true
  · rw [if_pos hquote] at h ⊢
    rw [if_pos hquote]
    rcases hbody : body [] (pos.step s) s with ⟨r, c⟩
    rw [hbody] at h
    have hr : more = [] ∨ r ≠ none := by
      refine h.imp_right fun hlegal hnone => ?_
      rw [hnone] at hlegal
      exact hlegal rfl
    obtain ⟨c', hbody', hc'⟩ := body_break hbody hr (pos'.step (s ++ more))
    rw [hbody']
    cases r with
    | none => exact ⟨rfl, hc'⟩
    | some text => exact ⟨rfl, hc'⟩
  rw [if_neg hquote, if_neg hquote]
  by_cases hletter : isLetter b = true
  · rw [if_pos hletter, if_pos hletter]
    obtain ⟨hword, hrest⟩ := run_break (hclass (fun x => isLetter x || isDigit x) rfl) [b] s
      (pos.step s) (pos'.step (s ++ more))
    refine ⟨?_, hrest⟩
    dsimp only [shape]
    rw [hword]
  rw [if_neg hletter, if_neg hletter]
  by_cases hdigit : isDigit b = true
  · rw [if_pos hdigit, if_pos hdigit]
    obtain ⟨hnumber, hrest⟩ := run_break (hclass isDigit rfl) [b] s (pos.step s)
      (pos'.step (s ++ more))
    refine ⟨?_, hrest⟩
    dsimp only [shape]
    rw [hnumber]
  rw [if_neg hdigit, if_neg hdigit]
  cases Kind.ofByte? b with
  | some kind => exact ⟨rfl, rfl⟩
  | none => exact ⟨rfl, rfl⟩

/-! ### Reading -/

/-- What is read depends on what is left after skipping, and not on where that is. -/
theorem read_of_rest_skip {c c' : Cursor}
    (h : (skip false c.pos c.rest).rest = (skip false c'.pos c'.rest).rest) :
    Extends [] (read c) (read c') := by
  unfold read
  rcases hskip : skip false c.pos c.rest with ⟨pos, rest⟩
  rcases hskip' : skip false c'.pos c'.rest with ⟨pos', rest'⟩
  rw [hskip, hskip'] at h
  obtain rfl : rest = rest' := h
  cases rest with
  | nil => exact ⟨rfl, rfl⟩
  | cons b rest =>
    dsimp only
    split
    · exact ⟨rfl, (List.append_nil _).symm⟩
    · have hnext : Extends [] (next pos b rest) (next pos' b (rest ++ [])) :=
        next_break break_nil (.inl rfl) pos'
      rwa [List.append_nil] at hnext

/-- What is read does not depend on where it is. -/
theorem read_pos (pos pos' : Pos) (s : Bytes) : Extends [] (read ⟨pos, s⟩) (read ⟨pos', s⟩) :=
  read_of_rest_skip (rest_skip_pos false pos pos' s)

/-- A token that is read before a break is read there whatever follows, unless it is a string that
is not closed. -/
theorem read_break {more : Bytes} (hmore : Break more) {c : Cursor} (hkind : (read c).1.kind ≠ .eof)
    (h : more = [] ∨ (read c).1.kind ≠ .illegal) (pos' : Pos) :
    Extends more (read c) (read ⟨pos', c.rest ++ more⟩) := by
  unfold read at hkind h ⊢
  rcases hskip : skip false c.pos c.rest with ⟨pos, _ | ⟨b, rest⟩⟩
  · rw [hskip] at hkind
    exact absurd rfl hkind
  · rw [hskip] at hkind h
    have hrest := rest_skip_break hmore false c.rest c.pos pos' pos'
    rcases hskip' : skip false pos' (c.rest ++ more) with ⟨stop, rest'⟩
    rw [hskip, hskip', if_neg (List.cons_ne_nil b rest)] at hrest
    obtain rfl : rest' = b :: (rest ++ more) := hrest
    dsimp only at hkind h ⊢
    split at hkind
    · exact absurd rfl hkind
    · next hzero =>
      rw [if_neg hzero] at h ⊢
      rw [if_neg hzero]
      exact next_break hmore h stop

/-- If nothing is left before a break, what is read there is what follows it. -/
theorem read_break_of_eof {more : Bytes} (hmore : Break more) {c : Cursor}
    (hkind : (read c).1.kind = .eof) (hrest : (read c).2.rest = []) (pos pos' : Pos) :
    Extends [] (read ⟨pos, more⟩) (read ⟨pos', c.rest ++ more⟩) := by
  have hskip : (skip false c.pos c.rest).rest = [] := by
    unfold read at hkind hrest
    rcases hskip : skip false c.pos c.rest with ⟨pos, _ | ⟨b, rest⟩⟩
    · rfl
    · rw [hskip] at hkind hrest
      dsimp only at hkind hrest
      split at hkind
      · next hzero =>
        rw [if_pos hzero] at hrest
        cases hrest
      · exact absurd hkind (next_ne_eof _ _ _)
  apply read_of_rest_skip
  rw [rest_skip_break hmore false c.rest c.pos pos' pos, if_pos hskip]

/-- A reading finds the end of the input, or a token that uses up a byte at least. -/
theorem read_cases (c : Cursor) :
    (read c).1.kind = .eof ∧ Ends (read c).2.rest ∧ (read c).2.rest <:+ c.rest ∨
    (read c).1.kind ≠ .eof ∧ (read c).2.rest.length < c.rest.length ∧
      (read c).2.rest <:+ c.rest := by
  have hread := read_pos (.after [] c.rest) c.pos c.rest
  have hkind : (read c).1.kind = (read (.after [] c.rest)).1.kind := hread.kind
  have hrest : (read c).2.rest = (read (.after [] c.rest)).2.rest := hread.rest_eq
  rw [hkind, hrest]
  obtain ⟨gap, rest, hsource, -, hends, heq⟩ | ⟨gap, text, rest, t, hsource, -, hstands, heq⟩ :=
    read_after [] c.rest
  · rw [heq]
    exact .inl ⟨rfl, hends, gap, hsource.symm⟩
  · rw [heq]
    refine .inr ⟨hstands.ne_eof, ?_, gap ++ text, by rw [hsource, List.append_assoc]; rfl⟩
    obtain ⟨b, s, htext, -, -⟩ := hstands.exists_head
    rw [hsource, htext]
    simp only [Cursor.after, List.length_append, List.length_cons]
    omega

/-! ### Scanning -/

/-- The tokens from a place on, without their positions. -/
def shapes (c : Cursor) : List Token := (scanFrom [] c).1.map shape

theorem scanFrom_acc (acc : List Token) (c : Cursor) :
    scanFrom acc c = (acc.reverse ++ (scanFrom [] c).1, (scanFrom [] c).2) := by
  induction hlength : c.rest.length using Nat.strongRecOn generalizing acc c with
  | ind length ih =>
  rw [scanFrom_eq_read, scanFrom_eq_read []]
  obtain ⟨hkind, -, -⟩ | ⟨hkind, hshorter, -⟩ := read_cases c
  · rw [if_pos hkind, if_pos hkind, List.reverse_nil, List.append_nil]
  · rw [if_neg hkind, if_neg hkind, ih _ (hlength ▸ hshorter) (_ :: acc) _ rfl,
      ih _ (hlength ▸ hshorter) [_] _ rfl]
    simp

theorem shapes_of_eof {c : Cursor} (h : (read c).1.kind = .eof) : shapes c = [] := by
  rw [shapes, scanFrom_eq_read, if_pos h]
  rfl

theorem shapes_of_ne_eof {c : Cursor} (h : (read c).1.kind ≠ .eof) :
    shapes c = (read c).1.shape :: shapes (read c).2 := by
  rw [shapes, scanFrom_eq_read, if_neg h, scanFrom_acc]
  rfl

/-- The tokens do not depend on where the input is. -/
theorem shapes_congr {c c' : Cursor} (h : c'.rest = c.rest) : shapes c' = shapes c := by
  induction hlength : c.rest.length using Nat.strongRecOn generalizing c c' with
  | ind length ih =>
  have hread : Extends [] (read c) (read c') := by
    apply read_of_rest_skip
    rw [h]
    exact rest_skip_pos false c.pos c'.pos c.rest
  obtain ⟨hkind, -, -⟩ | ⟨hkind, hshorter, -⟩ := read_cases c
  · rw [shapes_of_eof hkind, shapes_of_eof (hread.kind.trans hkind)]
  · rw [shapes_of_ne_eof hkind, shapes_of_ne_eof (hread.kind ▸ hkind), hread.token,
      ih _ (hlength ▸ hshorter) hread.rest_eq rfl]

/-- The tokens of a source are followed by those after the break, if the input does not end in the
source. -/
theorem shapes_break {more : Bytes} (hmore : Break more) {c : Cursor} (hzero : 0 ∉ c.rest)
    (hlegal : ∀ t ∈ shapes c, t.kind ≠ .illegal) (pos pos' : Pos) :
    shapes ⟨pos', c.rest ++ more⟩ = shapes c ++ shapes ⟨pos, more⟩ := by
  induction hlength : c.rest.length using Nat.strongRecOn generalizing c pos' with
  | ind length ih =>
  obtain ⟨hkind, hends, hsuffix⟩ | ⟨hkind, hshorter, hsuffix⟩ := read_cases c
  · have hrest : (read c).2.rest = [] := by
      cases hrest : (read c).2.rest with
      | nil => rfl
      | cons b rest =>
        rw [hrest] at hends hsuffix
        rw [hends b rfl] at hsuffix
        exact absurd (hsuffix.subset List.mem_cons_self) hzero
    have hread := read_break_of_eof hmore hkind hrest pos pos'
    rw [shapes_of_eof hkind, List.nil_append]
    by_cases heof : (read ⟨pos, more⟩).1.kind = .eof
    · rw [shapes_of_eof heof, shapes_of_eof (hread.kind.trans heof)]
    · rw [shapes_of_ne_eof heof, shapes_of_ne_eof (hread.kind ▸ heof), hread.token,
        shapes_congr hread.rest_eq]
  · have hshapes := shapes_of_ne_eof hkind
    rw [hshapes, List.forall_mem_cons] at hlegal
    have hread := read_break hmore hkind (.inr hlegal.1) pos'
    have hrest := ih _ (hlength ▸ hshorter) (fun h => hzero (hsuffix.subset h)) hlegal.2
      (read ⟨pos', c.rest ++ more⟩).2.pos rfl
    rw [hshapes, shapes_of_ne_eof (hread.kind ▸ hkind), hread.token, List.cons_append, ← hrest,
      ← hread.rest]

end Token

end StackScript
