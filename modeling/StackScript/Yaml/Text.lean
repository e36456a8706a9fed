import StackScript.Numeral
import StackScript.Text.Rune

/-!
# Texts in indented documents

How far a text reaches and what it says. A line break inside a text is folded: a
single one becomes a space, of several the first is dropped. Only a literal block
keeps its lines.

Each reader returns the text and the number of characters that it takes.

## Main definitions

* `Yaml.plain`: text without quotes.
* `Yaml.quoted?`: text in single or double quotes.
* `Yaml.block?`: an indented block of lines.
-/

namespace StackScript.Yaml

/-! ## Characters -/

/-- The character ends a line. -/
def isBreak (c : Char) : Bool := c == '\n' || c == '\u2028' || c == '\u2029'

/-- The character is a blank inside a line. -/
def isSpace (c : Char) : Bool := c == ' ' || c == '\t'

/-- The character is a blank or ends a line. -/
def isGap (c : Char) : Bool := isSpace c || isBreak c

/-- A blank, a line break or the end of the document comes next. -/
def gapNext (cs : List Char) : Bool := cs.head?.all isGap

/-- A mark between documents comes next. -/
def documentMark (cs : List Char) : Bool :=
  (cs.take 3 == ['-', '-', '-'] || cs.take 3 == ['.', '.', '.']) && gapNext (cs.drop 3)

/-- The characters with line feeds for the other ways to end a line. -/
def unifyBreaks (acc : List Char) : List Char → List Char
  | [] => acc.reverse
  | '\r' :: '\n' :: cs => unifyBreaks ('\n' :: acc) cs
  | '\r' :: cs => unifyBreaks ('\n' :: acc) cs
  | '\u0085' :: cs => unifyBreaks ('\n' :: acc) cs
  | c :: cs => unifyBreaks (c :: acc) cs

/-- The character may stand in a document. -/
def isLegal (c : Char) : Bool :=
  c == '\t' || c == '\n' || c == '\r' || c == '\u0085'
    || (32 ≤ c.toNat && c != '\x7f' && (c.toNat < 128 || 160 ≤ c.toNat) && c != '\ufffe' && c != '\uffff')

/-- What a run of blanks and line breaks stands for inside a text. -/
def folded (run : List Char) : List Char :=
  match run.filter isBreak with
  | [] => run
  | ['\n'] => [' ']
  | '\n' :: more => more
  | breaks => breaks

/-! ## Plain text -/

/-- The indicators of collections, which end a plain text inside brackets and braces. -/
def isFlowIndicator (c : Char) : Bool :=
  c == ',' || c == '?' || c == '[' || c == ']' || c == '\x7b' || c == '\x7d'

/-- The word at the front, put after `acc` reversed. -/
def word (flow : Bool) (acc : List Char) : List Char → List Char
  | [] => acc.reverse
  | c :: cs =>
    if isGap c || (c == ':' && gapNext cs) || (flow && isFlowIndicator c) then acc.reverse
    else word flow (c :: acc) cs

/-- The column after a run of blanks and line breaks. -/
def columnAfter (column : Nat) (run : List Char) : Nat :=
  run.foldl (fun n c => if isBreak c then 0 else n + 1) column

/-- A tab indents a line of the run by less than `indent` columns. -/
def tabIndents (indent : Int) (column : Option Nat) : List Char → Bool
  | [] => false
  | c :: cs =>
    if isBreak c then tabIndents indent (some 0) cs
    else
      (c == '\t' && column.any fun n => (n : Int) < indent)
        || tabIndents indent (column.map (· + 1)) cs

/-- A plain text. -/
structure Plain where
  text : List Char
  size : Nat
  /-- The text ends before a line that does not belong to it. -/
  broken : Bool
  /-- A tab stands where a space should. -/
  tabbed : Bool

/-- A plain text whose further lines are indented by at least `indent` columns, put after `acc`
reversed and `gap`. -/
def plain (flow : Bool) (indent : Int) (acc gap : List Char) (column size : Nat) (cs : List Char) :
    Plain :=
  if (column == 0 && documentMark cs) || cs.head? == some '#' then
    ⟨acc.reverse, size, gap.any isBreak, false⟩
  else
    let w := word flow [] cs
    if _h : w = [] then ⟨acc.reverse, size, gap.any isBreak, false⟩
    else
      let acc := w.reverse ++ ((folded gap).reverse ++ acc)
      let rest := cs.drop w.length
      let run := rest.takeWhile isGap
      let column := columnAfter (column + w.length) run
      let size := size + w.length + run.length
      if tabIndents indent none run then ⟨acc.reverse, size, false, true⟩
      else if run = [] ∨ (¬flow ∧ (column : Int) < indent) then ⟨acc.reverse, size, run.any isBreak, false⟩
      else plain flow indent acc run column size (rest.drop run.length)
termination_by cs.length
decreasing_by
  have hw : 0 < (word flow [] cs).length := List.length_pos_iff.mpr _h
  have hcs : cs ≠ [] := by
    rintro rfl
    simp [word] at hw
  have := List.length_pos_iff.mpr hcs
  simp only [List.length_drop]
  omega

/-! ## Quoted text -/

/-- What stands for a character after a backslash: the character, and how many characters that takes. -/
def escape? : List Char → Option (Char × Nat)
  | '0' :: _ => some ('\x00', 1)
  | 'a' :: _ => some ('\x07', 1)
  | 'b' :: _ => some ('\x08', 1)
  | 't' :: _ => some ('\t', 1)
  | '\t' :: _ => some ('\t', 1)
  | 'n' :: _ => some ('\n', 1)
  | 'v' :: _ => some ('\x0b', 1)
  | 'f' :: _ => some ('\x0c', 1)
  | 'r' :: _ => some ('\r', 1)
  | 'e' :: _ => some ('\x1b', 1)
  | ' ' :: _ => some (' ', 1)
  | '"' :: _ => some ('"', 1)
  | '\'' :: _ => some ('\'', 1)
  | '\\' :: _ => some ('\\', 1)
  | 'N' :: _ => some ('\u0085', 1)
  | '_' :: _ => some ('\u00a0', 1)
  | 'L' :: _ => some ('\u2028', 1)
  | 'P' :: _ => some ('\u2029', 1)
  | 'x' :: cs => (Numeral.char? 2 cs).map (·, 3)
  | 'u' :: cs => (Numeral.char? 4 cs).map (·, 5)
  | 'U' :: cs => (Numeral.char? 8 cs).map (·, 9)
  | _ => none

/-- The rest of a text in quotes, put after `acc` reversed. It may run over lines, but not over a mark
between documents. -/
def quoted? (double lineStart : Bool) (acc : List Char) (size : Nat) (cs : List Char) :
    Option (List Char × Nat) :=
  match cs with
  | [] => none
  | c :: rest =>
    if lineStart && documentMark (c :: rest) then none
    else if isGap c then
      let run := c :: rest.takeWhile isGap
      quoted? double (run.getLast?.any isBreak) ((folded run).reverse ++ acc) (size + run.length)
        (rest.drop (run.length - 1))
    else if double then
      if c = '"' then some (acc.reverse, size + 1)
      else if c = '\\' then
        if rest.head?.any isBreak then
          let run := (rest.drop 1).takeWhile isGap
          quoted? double (run.getLast?.all isBreak) ((run.filter isBreak).reverse ++ acc)
            (size + 2 + run.length) (rest.drop (1 + run.length))
        else
          match escape? rest with
          | some (e, n) => quoted? double false (e :: acc) (size + 1 + n) (rest.drop n)
          | none => none
      else quoted? double false (c :: acc) (size + 1) rest
    else if c = '\'' then
      if rest.head? = some '\'' then quoted? double false ('\'' :: acc) (size + 2) (rest.drop 1)
      else some (acc.reverse, size + 1)
    else quoted? double false (c :: acc) (size + 1) rest
termination_by cs.length
decreasing_by all_goals simp only [List.length_drop, List.length_cons]; omega

/-! ## Blocks of lines -/

/-- What becomes of the line breaks at the end of a block. -/
inductive Chomp
  | strip
  | clip
  | keep
  deriving DecidableEq

/-- The empty lines and the indentation before a line of a block. -/
structure Lead where
  /-- The breaks of the empty lines, last first. -/
  breaks : List Char
  column : Nat
  /-- The deepest indentation that was seen. -/
  deepest : Nat
  size : Nat
  tabbed : Bool

/-- Skip empty lines and the indentation of a block, as far as the indentation is known. -/
def lead (indent : Nat) (l : Lead) : List Char → Lead
  | [] => l
  | c :: cs =>
    if c == ' ' && (indent == 0 || l.column < indent) then
      lead indent { l with column := l.column + 1, deepest := max l.deepest (l.column + 1), size := l.size + 1 } cs
    else if c == '\t' && (indent == 0 || l.column < indent) then { l with tabbed := true }
    else if isBreak c then lead indent { l with breaks := c :: l.breaks, column := 0, size := l.size + 1 } cs
    else l

/-- The lines of a block from a line on that starts at its indentation. -/
structure Lines where
  /-- The text, reversed, without the last break. -/
  text : List Char
  /-- The last break, if there is one. -/
  last : List Char
  lead : Lead
  size : Nat

/-- Read the lines of a block. `depth` is at least the number of characters. -/
def blockLines (depth : Nat) (literal : Bool) (indent : Nat) (afterBlank : Bool) (s : Lines)
    (cs : List Char) : Lines :=
  match depth with
  | 0 => s
  | depth + 1 =>
    if s.lead.tabbed || s.lead.column != indent || cs.isEmpty then s
    else
      let blank := cs.head?.any isSpace
      let joint :=
        if !literal && !afterBlank && !blank && s.last == ['\n'] then
          if s.lead.breaks.isEmpty then [' '] else []
        else s.last
      let line := cs.takeWhile (!isBreak ·)
      let rest := cs.drop line.length
      let next := lead indent ⟨[], if rest.isEmpty then indent + line.length else 0, 0, 0, false⟩ (rest.drop 1)
      let text := line.reverse ++ (s.lead.breaks ++ (joint ++ s.text))
      blockLines depth literal indent blank
        ⟨text, rest.take 1, next, s.size + line.length + (rest.take 1).length + next.size⟩
        (rest.drop (1 + next.size))

/-- The marks after the one that opens a block: what to do with the line breaks at the end, the
indentation if it is given, and how many characters that takes. -/
def blockMarks? (cs : List Char) : Option (Chomp × Nat × Nat) :=
  let chomp? : List Char → Option Chomp
    | '+' :: _ => some .keep
    | '-' :: _ => some .strip
    | _ => none
  let digit? (cs : List Char) : Option Nat := (cs.head?.filter Char.isDigit).map fun c => c.toNat - 48
  match chomp? cs, digit? cs with
  | some chomp, _ =>
    match digit? (cs.drop 1) with
    | some 0 => none
    | some n => some (chomp, n, 2)
    | none => some (chomp, 0, 1)
  | none, some 0 => none
  | none, some n =>
    match chomp? (cs.drop 1) with
    | some chomp => some (chomp, n, 2)
    | none => some (.clip, n, 1)
  | none, none => some (.clip, 0, 0)

/-- A block of lines inside a block that is indented by `outer` columns, from after the mark that opens
it. -/
def block? (literal : Bool) (outer : Int) (cs : List Char) : Option (List Char × Nat) := do
  let (chomp, increment, marks) ← blockMarks? cs
  let rest := cs.drop marks
  let blanks := rest.takeWhile isSpace
  let rest := rest.drop blanks.length
  guard (rest.head?.all fun c => c == '#' || isBreak c)
  let comment := rest.takeWhile (!isBreak ·)
  let rest := rest.drop comment.length
  let indent := if increment = 0 then 0 else (max outer 0).toNat + increment
  let first := lead indent ⟨[], 0, 0, 0, false⟩ (rest.drop 1)
  let indent := if indent = 0 then max first.deepest (max (outer + 1) 1).toNat else indent
  let size := marks + blanks.length + comment.length + (rest.take 1).length + first.size
  let s := blockLines (cs.length + 1) literal indent false ⟨[], [], first, size⟩ (rest.drop (1 + first.size))
  guard !(first.tabbed || s.lead.tabbed)
  let text :=
    match chomp with
    | .strip => s.text
    | .clip => s.last ++ s.text
    | .keep => s.lead.breaks ++ (s.last ++ s.text)
  pure (text.reverse, s.size)

end StackScript.Yaml
