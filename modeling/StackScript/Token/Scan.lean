import StackScript.Token

/-!
# From bytes to tokens

Scanning reads bytes, not characters. Blanks and line comments separate tokens.
The input ends at its last byte or at the first NUL byte outside a string,
whichever comes first, and scanning then stays there.

## Main definitions

* `Token.next`: the token at a position that is not inside blanks or a comment.
* `Token.scan`: all tokens of a source, and the end-of-input token after them.
-/

namespace StackScript.Token

/-- The bytes that only separate tokens: space, tab, carriage return and line feed. -/
def isBlank (b : UInt8) : Bool := b == 32 || b == 9 || b == 13 || b == 10

/-- The bytes that a name starts with. -/
def isLetter (b : UInt8) : Bool := (97 ≤ b && b ≤ 122) || (65 ≤ b && b ≤ 90) || b == 95

/-- The decimal digits. -/
def isDigit (b : UInt8) : Bool := 48 ≤ b && b ≤ 57

/-- What is left of the input: the position of its first byte, and the bytes. -/
structure Cursor where
  pos : Pos
  rest : Bytes
  deriving Repr, Inhabited

/-- The input from the byte after the first one. -/
def Cursor.next (c : Cursor) : Cursor :=
  match c.rest with
  | [] => c
  | _ :: rest => ⟨c.pos.step rest, rest⟩

/-- Skip blanks and line comments. A comment runs to the next line feed or NUL byte. -/
def skip (inComment : Bool) (pos : Pos) : Bytes → Cursor
  | [] => ⟨pos, []⟩
  | b :: rest =>
    if inComment then
      if b == 0 then ⟨pos, b :: rest⟩ else skip (b != Pos.lineFeed) (pos.step rest) rest
    else if isBlank b then skip false (pos.step rest) rest
    else if b == 47 && rest.head? == some 47 then skip true (pos.step rest) rest
    else ⟨pos, b :: rest⟩

/-- The longest run of bytes in the class, put before `acc` reversed, and what follows it. -/
def run (inClass : UInt8 → Bool) (acc : Bytes) (pos : Pos) : Bytes → Bytes × Cursor
  | [] => (acc.reverse, ⟨pos, []⟩)
  | b :: rest =>
    if inClass b then run inClass (b :: acc) (pos.step rest) rest
    else (acc.reverse, ⟨pos, b :: rest⟩)

/-- The byte that a backslash and `b` stand for: every byte but `n`, `r` and `t` is itself. -/
def unescape (b : UInt8) : UInt8 :=
  if b == 110 then 10 else if b == 114 then 13 else if b == 116 then 9 else b

/-- The rest of a string after its opening quote: its bytes, unless the input ends in it, and what
follows the closing quote. A NUL byte ends the input unless a backslash stands before it. -/
def body (acc : Bytes) (pos : Pos) : Bytes → Option Bytes × Cursor
  | [] => (none, ⟨pos, []⟩)
  | b :: rest =>
    if b == 0 then (none, ⟨pos, b :: rest⟩)
    else if b == 34 then (some acc.reverse, ⟨pos.step rest, rest⟩)
    else if b == 92 then
      match rest with
      | [] => (none, ⟨pos.step [], []⟩)
      | e :: rest' => body (unescape e :: acc) ((pos.step rest).step rest') rest'
    else body (b :: acc) (pos.step rest) rest

/-- The text of a single byte taken as a code point. -/
def byteText (b : UInt8) : Bytes :=
  if b < 128 then [b] else [(192 : UInt8) ||| (b >>> 6), (128 : UInt8) ||| (b &&& 63)]

/-- The token that starts with `b` at `pos`, and what follows it. -/
def next (pos : Pos) (b : UInt8) (rest : Bytes) : Token × Cursor :=
  let after : Cursor := ⟨pos.step rest, rest⟩
  let pair (two one : Kind) : Token × Cursor :=
    if rest.head? == some 61 then (⟨two, [b, 61], pos⟩, after.next) else (⟨one, [b], pos⟩, after)
  if b == 61 then pair .equal .assign
  else if b == 33 then pair .notEqual .bang
  else if b == 34 then
    match body [] after.pos after.rest with
    | (some s, c) => (⟨.string, s, pos⟩, c)
    | (none, c) => (⟨.illegal, "unterminated string", c.pos⟩, c)
  else if isLetter b then
    let (word, c) := run (fun x => isLetter x || isDigit x) [b] after.pos after.rest
    (⟨.ofWord word, word, pos⟩, c)
  else if isDigit b then
    let (number, c) := run isDigit [b] after.pos after.rest
    (⟨.int, number, pos⟩, c)
  else
    match Kind.ofByte? b with
    | some kind => (⟨kind, [b], pos⟩, after)
    | none => (⟨.illegal, byteText b, pos⟩, after)

theorem length_rest_skip (inComment : Bool) (pos : Pos) (s : Bytes) :
    (skip inComment pos s).rest.length ≤ s.length := by
  induction s generalizing inComment pos with
  | nil => simp [skip]
  | cons b rest ih =>
    unfold skip
    split
    · split
      · simp
      · exact Nat.le_succ_of_le (ih _ _)
    · split
      · exact Nat.le_succ_of_le (ih _ _)
      · split
        · exact Nat.le_succ_of_le (ih _ _)
        · simp

theorem length_rest_run (inClass : UInt8 → Bool) (acc : Bytes) (pos : Pos) (s : Bytes) :
    (run inClass acc pos s).2.rest.length ≤ s.length := by
  induction s generalizing acc pos with
  | nil => simp [run]
  | cons b rest ih =>
    unfold run
    split
    · exact Nat.le_succ_of_le (ih _ _)
    · simp

theorem length_rest_body (acc : Bytes) (pos : Pos) (s : Bytes) :
    (body acc pos s).2.rest.length ≤ s.length := by
  fun_induction body acc pos s with
  | case1 => simp
  | case2 => simp
  | case3 => simp
  | case4 => simp
  | case5 acc pos b e rest' h0 h1 h2 ih => simp only [List.length_cons]; omega
  | case6 acc pos b rest h0 h1 h2 ih => simp only [List.length_cons]; omega

theorem length_rest_cursor_next (c : Cursor) : c.next.rest.length ≤ c.rest.length := by
  unfold Cursor.next
  split
  · exact Nat.le_refl _
  · next h => simp [h]

/-- A token uses up its first byte. -/
theorem length_rest_next (pos : Pos) (b : UInt8) (rest : Bytes) :
    (next pos b rest).2.rest.length ≤ rest.length := by
  unfold next
  simp only
  split
  · split
    · exact length_rest_cursor_next _
    · exact Nat.le_refl _
  split
  · split
    · exact length_rest_cursor_next _
    · exact Nat.le_refl _
  split
  · have h := length_rest_body [] (pos.step rest) rest
    split <;> simp_all
  split
  · exact length_rest_run _ _ _ _
  split
  · exact length_rest_run _ _ _ _
  split <;> exact Nat.le_refl _

/-- The tokens from `c` on, put after `acc` reversed, and the end-of-input token. -/
def scanFrom (acc : List Token) (c : Cursor) : List Token × Token :=
  match _hskip : skip false c.pos c.rest with
  | ⟨pos, []⟩ => (acc.reverse, ⟨.eof, [], pos⟩)
  | ⟨pos, b :: rest⟩ =>
    if b == 0 then (acc.reverse, ⟨.eof, [], pos⟩)
    else
      let t := next pos b rest
      scanFrom (t.1 :: acc) t.2
termination_by c.rest.length
decreasing_by
  have hlength := length_rest_skip false c.pos c.rest
  have hnext := length_rest_next pos b rest
  rw [_hskip] at hlength
  simp only [List.length_cons] at hlength
  omega

/-- The tokens of a source, and the end-of-input token after them. -/
def scan (source : Bytes) : List Token × Token := scanFrom [] ⟨.start source, source⟩

end StackScript.Token
