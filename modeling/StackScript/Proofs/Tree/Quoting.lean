import StackScript.Proofs.Token.Text
import StackScript.Proofs.Tree.Spelling

/-!
# Strings between quotes

Every string can be written down: between quotes, with a backslash before each
quote, backslash and NUL byte. All other bytes stand for themselves, line feeds
and bytes of no character among them, and a backslash changes none of these
three. So the text is scanned to one token that holds the string.

## Main definitions

* `Pos.pass`: the position after a stretch of text.
* `Token.quote`: a string as it is written down.

## Main results

* `Token.Quoted.scans`: bytes that stand for a string are scanned to it.
* `Token.scan_quote`: a string that is written down is scanned to itself.
-/

namespace StackScript

/-- The position after a stretch of text, with `rest` as what follows it. -/
def Pos.pass (p : Pos) : Bytes → Bytes → Pos
  | [], _ => p
  | _ :: text, rest => (p.step (text ++ rest)).pass text rest

theorem Pos.pass_after (before text rest : Bytes) :
    (Pos.after before (text ++ rest)).pass text rest = .after (before ++ text) rest := by
  induction text generalizing before with
  | nil => rw [List.append_nil]; rfl
  | cons b text ih =>
    rw [pass, List.cons_append, step_after, ih, List.append_assoc, List.singleton_append]

namespace Token

variable {raw s : Bytes}

/-- The string ends at the first quote that no backslash stands before. -/
theorem Quoted.body (h : Quoted raw s) (rest acc : Bytes) (pos : Pos) :
    body acc pos (raw ++ 34 :: rest) =
      (some (acc.reverse ++ s), ⟨pos.pass (raw ++ [34]) rest, rest⟩) := by
  induction h generalizing acc pos with
  | nil =>
    unfold Token.body
    simp [Pos.pass]
  | @plain b raw s hzero hquote hbackslash _ ih =>
    rw [List.cons_append]
    unfold Token.body
    rw [if_neg (by simpa using hzero), if_neg (by simpa using hquote),
      if_neg (by simpa using hbackslash), ih]
    simp [Pos.pass]
  | @escaped raw s e _ ih =>
    change Token.body (unescape e :: acc) _ (raw ++ 34 :: rest) = _
    rw [ih]
    simp [Pos.pass]

theorem Quoted.scans (h : Quoted raw s) (rest : Bytes) (pos : Pos) :
    Scans ⟨pos, 34 :: (raw ++ [34]) ++ rest⟩ [⟨.string, s, pos⟩]
      ⟨pos.pass (34 :: (raw ++ [34])) rest, rest⟩ := by
  have hnext : next pos 34 (raw ++ 34 :: rest) =
      (⟨.string, s, pos⟩, ⟨pos.pass (34 :: (raw ++ [34])) rest, rest⟩) := by
    rw [next]
    simp [h.body, Pos.pass]
  have hscans := scans_next pos (raw ++ 34 :: rest) (b := 34) (by decide)
  rw [hnext] at hscans
  simpa using hscans

/-- How a byte is written between quotes. -/
def escape (b : UInt8) : Bytes := if b = 34 ∨ b = 92 ∨ b = 0 then [92, b] else [b]

/-- A string as it is written down. -/
def quote (s : Bytes) : Bytes := 34 :: (s.flatMap escape ++ [34])

/-- What is written between the quotes stands for the string. -/
theorem quoted_escape (s : Bytes) : Quoted (s.flatMap escape) s := by
  induction s with
  | nil => exact .nil
  | cons b s ih =>
    rw [List.flatMap_cons, escape]
    split
    · next hb =>
      have hsame : unescape b = b := by rcases hb with rfl | rfl | rfl <;> rfl
      have hescaped := Quoted.escaped b ih
      rwa [hsame] at hescaped
    · next hb =>
      obtain ⟨hquote, hbackslash, hzero⟩ : b ≠ 34 ∧ b ≠ 92 ∧ b ≠ 0 := by simpa using hb
      exact .plain hzero hquote hbackslash ih

/-- A string that is written down is scanned to one token that holds it, and the input ends with
the text. -/
theorem scan_quote (s : Bytes) :
    scan (quote s) = ([⟨.string, s, .start (quote s)⟩], ⟨.eof, [], .after (quote s) []⟩) := by
  have hscans := (quoted_escape s).scans [] (.start (quote s))
  have hpos : (Pos.start (quote s)).pass (quote s) [] = .after (quote s) [] := by
    have hpass := Pos.pass_after [] (quote s) []
    rwa [List.append_nil] at hpass
  rw [List.append_nil] at hscans
  rw [scan_of_scans hscans]
  exact congrArg (fun p => ([_], Token.mk .eof [] p)) hpos

end Token

end StackScript
