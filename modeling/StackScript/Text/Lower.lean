import StackScript.Builtin.Apply
import StackScript.Text.Casing

/-!
# Texts in lower case

The one mapping that depends on its neighbours is that of the capital sigma,
whose lower-case form is another one at the end of a word.

A text is worked through in pieces. A piece takes at most `windowSize` bytes of
the text, and its result has to fit in the room that is left. A word is followed
inside its piece only: a sigma that starts a piece has the common form, and one
whose word may go on past the end of the piece starts the next piece.

## Main definitions

* `Text.lowerFrom`: the characters of a piece.
* `Text.lowerChanged`, `Text.lowerKept`: the pieces of a text.
* `Bytes.lower`: the text in lower case.
* `Text.casing`: upper and lower case as the builtin functions need them.
-/

namespace StackScript.Text

/-- The capital sigma. -/
def sigma : Char := .ofNat 931

/-- Lower-case sigma at the end of a word. -/
def finalSigma : Char := .ofNat 962

/-- How many characters after a sigma are looked at before the word counts as ended. -/
def lookahead : Nat := 31

/-- How many bytes of a text a piece takes at most, and the room for its result at first. -/
def windowSize : Nat := 128

/-- The number of bytes of a character. -/
def size (r : Rune) : Nat := r.encode.length

/-- How many bytes have to be seen to tell what stands there: a stray byte may look like the first
one of a character. -/
def need : Rune → Nat
  | .char c => size (.char c)
  | .stray b =>
    if b < 0xC2 then 1
    else if b < 0xE0 then 2
    else if b < 0xF0 then 3
    else if b < 0xF8 then 4
    else 1

/-- What stands there can be told from `window` bytes, which may be all that is left. -/
def isSeen (window : Nat) (r : Rune) (rest : List Rune) : Bool :=
  need r ≤ window || ((r :: rest).take 4).foldl (fun n r => n + size r) 0 ≤ window

/-- The character in lower case, wherever it stands. -/
def lowerForm : Rune → Bytes
  | .char c => encode (lowerChar c)
  | .stray b => [b]

/-- The text after the character is inside a word, if it was so before. -/
def staysInWord (inWord : Bool) : Rune → Bool
  | .char c => isCased c || (inWord && isIgnorable c)
  | .stray _ => false

/-- A word goes on here: the first character that is not passed over has case. There is no answer
if it lies past the window, or if what is passed over does not fit in the room. -/
def continues? : (steps room window : Nat) → List Rune → Option Bool
  | 0, _, _, _ => some false
  | _, _, _, [] => some false
  | steps + 1, room, window, r :: rest =>
    if !isSeen window r rest then none
    else
      match r with
      | .stray _ => some false
      | .char c =>
        if isIgnorable c then
          if room < size r then none
          else continues? steps (room - size r) (window - size r) rest
        else some (isCased c)

/-- The lower-case form of a character before `rest`, of which `window` bytes are seen. -/
def formIn? (inWord : Bool) (room window : Nat) (r : Rune) (rest : List Rune) : Option Bytes :=
  if inWord && r == .char sigma then
    (continues? lookahead (room - size r) window rest).map fun goesOn =>
      if goesOn then lowerForm r else encode [finalSigma]
  else some (lowerForm r)

/-- A piece of a text in lower case. -/
structure Piece where
  /-- The lower-case forms up to the end of the piece, latest first. -/
  forms : List Bytes
  /-- Some character of the piece, or the one that no longer fits, has another form. -/
  changed : Bool
  /-- The room that is left. -/
  room : Nat
  /-- The text after the piece. -/
  rest : List Rune

/-- A piece goes on with the characters that it can see and that fit. -/
def lowerFrom (window : Nat) (inWord : Bool) (forms : List Bytes) (changed : Bool) (room : Nat) :
    List Rune → Piece
  | [] => ⟨forms, changed, room, []⟩
  | r :: rest =>
    if !isSeen window r rest then ⟨forms, changed, room, r :: rest⟩
    else
      match formIn? inWord room (window - size r) r rest with
      | none => ⟨forms, changed, room, r :: rest⟩
      | some form =>
        let changed := changed || form != r.encode
        if room < form.length then ⟨forms, changed, room, r :: rest⟩
        else
          lowerFrom (window - size r) (staysInWord inWord r) (form :: forms) changed
            (room - form.length) rest

/-- The piece that starts with `r`. -/
def piece (forms : List Bytes) (room : Nat) (r : Rune) (rest : List Rune) : Piece :=
  let form := lowerForm r
  lowerFrom (windowSize - size r) (staysInWord false r) (form :: forms) (form != r.encode)
    (room - form.length) rest

theorem length_lowerFrom_rest (window : Nat) (inWord : Bool) (forms : List Bytes) (changed : Bool)
    (room : Nat) (text : List Rune) :
    (lowerFrom window inWord forms changed room text).rest.length ≤ text.length := by
  induction text generalizing window inWord forms changed room with
  | nil => simp [lowerFrom]
  | cons r rest ih =>
    unfold lowerFrom
    split
    · exact Nat.le_refl _
    split
    · exact Nat.le_refl _
    dsimp only
    split
    · exact Nat.le_refl _
    · exact Nat.le_succ_of_le (ih ..)

theorem length_piece_rest (forms : List Bytes) (room : Nat) (r : Rune) (rest : List Rune) :
    (piece forms room r rest).rest.length ≤ rest.length :=
  length_lowerFrom_rest ..

/-- The size to which a result grows when its room is used up. -/
def grown (total : Nat) : Nat := if total ≤ 256 then 2 * total else total + total / 2

/-- The pieces of a text whose result has room for `total` bytes in all, of which `room` is left. The
result grows when the first character of a piece does not fit. -/
def lowerChanged (total room : Nat) (forms : List Bytes) (text : List Rune) : List Bytes :=
  match text with
  | [] => forms
  | r :: rest =>
    let total' := if room < (lowerForm r).length then grown total else total
    let p := piece forms (room + (total' - total)) r rest
    lowerChanged total' p.room p.forms p.rest
termination_by text.length
decreasing_by
  exact Nat.lt_succ_of_le (length_piece_rest ..)

/-- The pieces of a text after `kept` bytes that are in lower case already. Pieces without a change
take no room; from the first change on, the result has room for the rest of the text, or that of a
window if the result so far fits in one. -/
def lowerKept (kept : Nat) (forms : List Bytes) (text : List Rune) : List Bytes :=
  match text with
  | [] => forms
  | r :: rest =>
    let p := piece forms windowSize r rest
    let used := kept + (windowSize - p.room)
    if !p.changed then lowerKept used p.forms p.rest
    else if kept ≠ 0 ∧ windowSize < used then
      let room := p.rest.foldl (fun n r => n + size r) 0
      lowerChanged (used + room) room p.forms p.rest
    else lowerChanged windowSize (windowSize - used) p.forms p.rest
termination_by text.length
decreasing_by
  exact Nat.lt_succ_of_le (length_piece_rest ..)

end StackScript.Text

namespace StackScript.Bytes

/-- The text in lower case. -/
def lower (s : Bytes) : Bytes := (Text.lowerKept 0 [] s.runes).reverse.flatten

end StackScript.Bytes

namespace StackScript

/-- Upper and lower case for all languages. -/
instance Text.casing : Casing := ⟨Bytes.upper, Bytes.lower⟩

end StackScript
