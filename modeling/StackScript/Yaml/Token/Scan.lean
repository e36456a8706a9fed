import StackScript.Yaml.Text
import StackScript.Yaml.Token

/-!
# From text to tokens

The scanner reads one token after another. It keeps the columns of the blocks
that are open: a token further to the left closes the blocks that are indented
more. A text that turns out to be a key only when its colon is seen is a
*pending key*; it remembers its place among the tokens, and the colon puts the
token of the key there, before it the token of a new block of pairs if the key
begins one.

## Main definitions

* `Yaml.Scanner`, `Yaml.Scan`: the state of the scanner, and its steps.
* `Yaml.Token.scan`: the tokens of a text.
-/

namespace StackScript.Yaml

/-- A text that may yet turn out to be a key. -/
structure PendingKey where
  /-- Nothing but a key may stand here. -/
  required : Bool
  /-- The number of tokens before it. -/
  place : Nat
  line : Nat
  column : Nat
  index : Nat

/-- The state of the scanner. -/
structure Scanner where
  rest : List Char
  line : Nat
  column : Nat
  index : Nat
  tokens : Array Token
  /-- The column of the innermost block, and of the blocks around it. -/
  indent : Int
  outer : List Int
  /-- The pending key of the innermost bracket or brace. -/
  pending : Option PendingKey
  /-- The pending keys outside the open brackets and braces, innermost first. -/
  suspended : List (Option PendingKey)
  /-- A key may start here. -/
  keyAllowed : Bool

/-- The scanner inside brackets or braces. -/
def Scanner.inFlow (s : Scanner) : Bool := !s.suspended.isEmpty

/-- Steps of the scanner. Tokens that were found before a fault are kept. -/
abbrev Scan := EStateM Unit Scanner

namespace Scan

/-- Pass over characters. -/
def skip (n : Nat) : Scan Unit :=
  modify fun s =>
    let (line, column) := (s.rest.take n).foldl
      (fun (p : Nat × Nat) c => if isBreak c then (p.1 + 1, 0) else (p.1, p.2 + 1)) (s.line, s.column)
    { s with rest := s.rest.drop n, line := line, column := column, index := s.index + n }

/-- Add a token. -/
def emit (t : Token) : Scan Unit := modify fun s => { s with tokens := s.tokens.push t }

/-- Say whether a key may start at the next token. -/
def allowKey (b : Bool) : Scan Unit := modify fun s => { s with keyAllowed := b }

/-! ## Pending keys -/

/-- Give up the pending key. -/
def dropKey : Scan Unit := do
  if (← get).pending.any (·.required) then throw ()
  modify fun s => { s with pending := none }

/-- A key may begin here. -/
def saveKey : Scan Unit := do
  let s ← get
  if s.keyAllowed then
    dropKey
    modify fun s =>
      { s with
        pending := some
          { required := !s.inFlow && s.indent == s.column
            place := s.tokens.size
            line := s.line
            column := s.column
            index := s.index } }

/-- The pending key, if its colon may stand here: on its line and not too far off. -/
def currentKey : Scan (Option PendingKey) := do
  let s ← get
  match s.pending with
  | none => pure none
  | some k =>
    if k.line < s.line || k.index + 1024 < s.index then
      if k.required then throw ()
      pure none
    else pure (some k)

/-! ## Indentation -/

/-- Close the blocks that are indented by more than `column`; `closed` has their tokens. -/
def closeFrom (column indent : Int) (outer : List Int) (tokens : Array Token) :
    Int × List Int × Array Token :=
  match outer with
  | [] => (indent, [], tokens)
  | o :: outer' =>
    if column < indent then closeFrom column o outer' (tokens.push .blockEnd)
    else (indent, outer, tokens)

/-- Close the blocks that are indented by more than `column`. -/
def unindent (column : Int) : Scan Unit :=
  modify fun s =>
    if s.inFlow then s
    else
      let (indent, outer, tokens) := closeFrom column s.indent s.outer s.tokens
      { s with indent := indent, outer := outer, tokens := tokens }

/-- Open a block at a column, unless one is open there; its token is put at a place among the
tokens. -/
def indentTo (column : Nat) (place : Nat) (t : Token) : Scan Unit :=
  modify fun s =>
    if s.inFlow || (column : Int) ≤ s.indent then s
    else
      { s with
        indent := column
        outer := s.indent :: s.outer
        tokens := s.tokens.insertIdxIfInBounds place t }

/-! ## Blanks and comments -/

/-- The number of characters up to the next token that are blanks, line breaks and comments, and
whether a key may start there. Inside a run of comments any blanks may stand. -/
def blanks (flow keyAllowed lineStart : Bool) (size : Nat) (cs : List Char) : Nat × Bool :=
  match cs with
  | [] => (size, keyAllowed)
  | c :: rest =>
    if c = ' ' ∨ (c = '\t' ∧ (flow ∨ ¬keyAllowed)) then blanks flow keyAllowed false (size + 1) rest
    else if c = '\ufeff' ∧ lineStart then blanks flow keyAllowed lineStart (size + 1) rest
    else if isBreak c then blanks flow (keyAllowed || !flow) true (size + 1) rest
    else if c = '#' then
      let comment := rest.takeWhile (!isBreak ·)
      let after := rest.drop comment.length
      let gap := after.takeWhile isGap
      if (after.drop gap.length).head? = some '#' then
        blanks flow keyAllowed false (size + 1 + comment.length + gap.length)
          (rest.drop (comment.length + gap.length))
      else blanks flow keyAllowed false (size + 1 + comment.length) (rest.drop comment.length)
    else (size, keyAllowed)
termination_by cs.length
decreasing_by all_goals simp only [List.length_drop, List.length_cons]; omega

/-- Pass over what stands before the next token. -/
def toToken : Scan Unit := do
  let s ← get
  let (n, allowed) := blanks s.inFlow s.keyAllowed (s.column == 0) 0 s.rest
  skip n
  allowKey allowed

/-- Pass over a comment on the line of the token before it. -/
def lineComment : Scan Unit := do
  let rest := (← get).rest
  let gap := rest.takeWhile isSpace
  if (rest.drop gap.length).head? = some '#' then
    skip (gap.length + ((rest.drop gap.length).takeWhile (!isBreak ·)).length)

/-! ## Tokens -/

/-- A token that closes all blocks. -/
def documentMarker (t : Token) (size : Nat) : Scan Unit := do
  unindent (-1)
  dropKey
  allowKey false
  skip size
  emit t

/-- The end of the text. -/
def finish : Scan Unit := do
  unindent (-1)
  dropKey
  emit .streamEnd

/-- The directive of the version at the front: one line with the number of a version that is known. -/
def isVersion (line : List Char) : Bool :=
  let words := (String.ofList line).splitOn " " |>.filter (· ≠ "")
  words.take 2 == ["%YAML", "1.1"] || words.take 2 == ["%YAML", "1.2"]

/-- A directive. -/
def directive : Scan Unit := do
  let line := (← get).rest.takeWhile (!isBreak ·)
  if !isVersion (line.takeWhile (· ≠ '#')) then throw ()
  documentMarker .directive line.length

/-- The bracket or brace that opens a collection. -/
def openFlow (t : Token) : Scan Unit := do
  saveKey
  modify fun s => { s with suspended := s.pending :: s.suspended, pending := none }
  allowKey true
  skip 1
  emit t

/-- The bracket or brace that closes a collection. -/
def closeFlow (t : Token) : Scan Unit := do
  dropKey
  modify fun s =>
    match s.suspended with
    | [] => s
    | k :: suspended => { s with suspended := suspended, pending := k }
  allowKey false
  skip 1
  emit t

/-- The comma between items. -/
def flowEntry : Scan Unit := do
  dropKey
  allowKey true
  skip 1
  emit .flowEntry

/-- An indicator that may open a block where it stands. -/
def indicator (block token : Token) (keyAfter : Bool) : Scan Unit := do
  let s ← get
  if !s.inFlow then
    if !s.keyAllowed then throw ()
    indentTo s.column s.tokens.size block
  dropKey
  allowKey keyAfter
  skip 1
  emit token

/-- The colon after a key. -/
def value : Scan Unit := do
  match ← currentKey with
  | some k => do
    modify fun s => { s with tokens := s.tokens.insertIdxIfInBounds k.place .key, pending := none }
    indentTo k.column k.place .blockMapping
    allowKey false
    skip 1
    emit .value
  | none => do
    let s ← get
    if !s.inFlow then
      if !s.keyAllowed then throw ()
      indentTo s.column s.tokens.size .blockMapping
    allowKey (!s.inFlow)
    skip 1
    emit .value

/-- The character can be part of the name of an anchor. -/
def inName (c : Char) : Bool := c.isAlphanum || c == '_' || c == '-'

/-- An anchor or an alias: a mark and a name. -/
def reference (token : Bytes → Token) : Scan Unit := do
  saveKey
  allowKey false
  let rest := (← get).rest.drop 1
  let name := rest.takeWhile inName
  let ended := (rest.drop name.length).head?.all fun c =>
    isGap c || c == '?' || c == ':' || c == ',' || c == ']' || c == '\x7d' || c == '%' || c == '@' || c == '\x60'
  if name.isEmpty || !ended then throw ()
  skip (1 + name.length)
  emit (token (Bytes.ofChars name))

/-- The kind with a name. -/
def tagNamed (name : List Char) : Tag :=
  match String.ofList name with
  | "str" => .text
  | "int" => .integer
  | "float" => .float
  | "bool" => .boolean
  | "null" => .null
  | "timestamp" => .timestamp
  | _ => .other

/-- The kind that a tag says. -/
def tagOf (text : List Char) : Tag :=
  match text with
  | ['!'] => .unspecified
  | '!' :: '!' :: name => tagNamed name
  | _ => .other

/-- The character can be part of a tag. -/
def inTag (c : Char) : Bool := inName c || ";/?:@&=+$.!~*'()<>,[]".contains c

/-- A tag. -/
def tag : Scan Unit := do
  saveKey
  allowKey false
  let rest := (← get).rest
  let text := rest.takeWhile inTag
  if !gapNext (rest.drop text.length) then throw ()
  skip text.length
  emit (.tag (tagOf text))

/-- A block of lines. -/
def block (literal : Bool) : Scan Unit := do
  dropKey
  allowKey true
  let s ← get
  match block? literal s.indent (s.rest.drop 1) with
  | none => throw ()
  | some (text, size) => do
    skip (1 + size)
    emit (.scalar false (Bytes.ofChars text))

/-- A text in quotes. -/
def quotedText (double : Bool) : Scan Unit := do
  saveKey
  allowKey false
  match quoted? double false [] 0 ((← get).rest.drop 1) with
  | none => throw ()
  | some (text, size) => do
    skip (1 + size)
    emit (.scalar false (Bytes.ofChars text))
    lineComment

/-- A plain text. -/
def plainText : Scan Unit := do
  saveKey
  allowKey false
  let s ← get
  let p := plain s.inFlow (s.indent + 1) [] [] s.column 0 s.rest
  if p.tabbed then throw ()
  skip p.size
  if p.broken then allowKey true
  emit (.scalar true (Bytes.ofChars p.text))
  if !p.broken then lineComment

/-- A plain text may start here. -/
def startsPlain (flow : Bool) (cs : List Char) : Bool :=
  match cs with
  | [] => false
  | c :: rest =>
    if c == '-' then !rest.head?.any isSpace
    else if c == '?' || c == ':' then !flow && !gapNext rest
    else !isGap c && !",[]{}#&*!|>'\"%@`".contains c

/-- The next token. -/
def token : Scan Unit := do
  toToken
  let s ← get
  unindent s.column
  match s.rest with
  | [] => finish
  | c :: rest =>
    if s.column = 0 ∧ c = '%' then directive
    else if s.column = 0 ∧ documentMark (c :: rest) then
      documentMarker (if c = '-' then .documentStart else .documentEnd) 3
    else if c = '[' then do openFlow .flowSequence; lineComment
    else if c = '\x7b' then do openFlow .flowMapping; lineComment
    else if c = ']' then do closeFlow .flowSequenceEnd; lineComment
    else if c = '\x7d' then do closeFlow .flowMappingEnd; lineComment
    else if c = ',' then do flowEntry; lineComment
    else if c = '-' ∧ gapNext rest then indicator .blockSequence .blockEntry true
    else if c = '?' ∧ (s.inFlow ∨ gapNext rest) then do
      indicator .blockMapping .key (!s.inFlow); lineComment
    else if c = ':' ∧ (s.inFlow ∨ gapNext rest) then do value; lineComment
    else if c = '*' then do reference .alias; lineComment
    else if c = '&' then do reference .anchor; lineComment
    else if c = '!' then do tag; lineComment
    else if c = '|' ∧ ¬s.inFlow then block true
    else if c = '>' ∧ ¬s.inFlow then block false
    else if c = '\'' then quotedText false
    else if c = '"' then quotedText true
    else if startsPlain s.inFlow (c :: rest) then plainText
    else throw ()

/-- Read tokens up to the end of the text. `depth` is more than the number of characters. -/
def tokens (depth : Nat) : Scan Unit :=
  match depth with
  | 0 => throw ()
  | depth + 1 => do
    token
    if (← get).tokens.back? ≠ some .streamEnd then tokens depth

end Scan

/-- The tokens of a text. -/
def Token.scan (cs : List Char) : List Token :=
  let cs := unifyBreaks [] cs
  let start : Scanner :=
    { rest := cs
      line := 0
      column := 0
      index := 0
      tokens := #[]
      indent := -1
      outer := []
      pending := none
      suspended := []
      keyAllowed := true }
  match Scan.tokens (cs.length + 1) start with
  | .ok _ s => s.tokens.toList
  | .error _ s => s.tokens.toList ++ [.broken]

end StackScript.Yaml
