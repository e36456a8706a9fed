import StackScript.Bytes

/-!
# Characters in byte strings

A byte string is read as UTF-8 character by character. A byte that is not part
of a well-formed character stands for itself.

## Main definitions

* `Rune`: a character, or a byte that belongs to none.
* `Bytes.runes`, `Rune.encode`: from bytes to characters and back.
-/

namespace StackScript

/-- A character, or a byte that belongs to none. -/
inductive Rune
  | char (c : Char)
  | stray (b : UInt8)
  deriving DecidableEq, Repr

namespace Rune

/-- The bytes of a character. -/
def encode : Rune → Bytes
  | .char c => String.utf8EncodeChar c
  | .stray b => [b]

/-- The six payload bits of a continuation byte. -/
def tail? (b : UInt8) : Option Nat :=
  if 128 ≤ b && b ≤ 191 then some (b.toNat - 128) else none

/-- The character with two continuation bytes or more that these bytes form. Longer forms than
needed and surrogates are no characters. -/
def wide? (lead : Nat) : Bytes → Option (Char × Bytes)
  | b :: c :: rest =>
    match tail? b, tail? c with
    | some x, some y =>
      if lead < 240 then
        let n := (lead - 224) * 4096 + x * 64 + y
        if 2048 ≤ n ∧ n.isValidChar then some (.ofNat n, rest) else none
      else
        match rest with
        | d :: rest =>
          match tail? d with
          | some z =>
            let n := (lead - 240) * 262144 + x * 4096 + y * 64 + z
            if 65536 ≤ n ∧ n.isValidChar then some (.ofNat n, rest) else none
          | none => none
        | [] => none
    | _, _ => none
  | _ => none

/-- The character that starts with a byte of 128 or more, and the bytes after it. -/
def multi? (b : UInt8) (rest : Bytes) : Option (Char × Bytes) :=
  if b < 194 then none
  else if b < 224 then
    match rest with
    | c :: rest => (tail? c).map fun x => (.ofNat ((b.toNat - 192) * 64 + x), rest)
    | [] => none
  else if b < 248 then wide? b.toNat rest
  else none

theorem length_of_wide? {lead : Nat} {s rest : Bytes} {c : Char} (h : wide? lead s = some (c, rest)) :
    rest.length < s.length := by
  unfold wide? at h
  split at h
  · split at h
    · split at h
      · simp only at h
        split at h <;> simp at h
        rw [← h.2]; simp only [List.length_cons]; omega
      · split at h
        · split at h
          · simp only at h
            split at h <;> simp at h
            rw [← h.2]; simp only [List.length_cons]; omega
          · simp at h
        · simp at h
    · simp at h
  · simp at h

theorem length_of_multi? {b : UInt8} {s rest : Bytes} {c : Char} (h : multi? b s = some (c, rest)) :
    rest.length < s.length := by
  unfold multi? at h
  split at h
  · simp at h
  split at h
  · split at h
    · simp only [Option.map_eq_some_iff, Prod.mk.injEq] at h
      obtain ⟨x, -, -, rfl⟩ := h
      simp
    · simp at h
  split at h
  · exact length_of_wide? h
  · simp at h

/-- The characters of a text, put after `acc` reversed. -/
def readFrom (acc : List Rune) (s : Bytes) : List Rune :=
  match s with
  | [] => acc.reverse
  | b :: rest =>
    if b < 128 then readFrom (.char (.ofNat b.toNat) :: acc) rest
    else
      match _h : multi? b rest with
      | some (c, rest') => readFrom (.char c :: acc) rest'
      | none => readFrom (.stray b :: acc) rest
termination_by s.length
decreasing_by
  · simp
  · have := length_of_multi? _h
    simp only [List.length_cons]
    omega
  · simp

end Rune

/-- The characters of a text. -/
def Bytes.runes (s : Bytes) : List Rune := Rune.readFrom [] s

/-- The character, unless the byte belongs to none. -/
def Rune.char? : Rune → Option Char
  | .char c => some c
  | .stray _ => none

/-- The characters of a text, if it is well-formed UTF-8. -/
def Bytes.chars? (s : Bytes) : Option (List Char) := s.runes.mapM Rune.char?

/-- The text with the given characters. -/
def Bytes.ofChars (cs : List Char) : Bytes := cs.flatMap String.utf8EncodeChar

/-- The text is well-formed UTF-8. -/
def Bytes.isUtf8 (s : Bytes) : Bool :=
  s.runes.all fun
    | .char _ => true
    | .stray _ => false

end StackScript
