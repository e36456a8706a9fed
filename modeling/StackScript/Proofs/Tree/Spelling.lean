import StackScript.Proofs.Meaning.Literals
import StackScript.Proofs.Tree.Recognition

/-!
# The texts of values

The text of a plain value, which is made of integers, booleans, arrays and
hashes, is a source: its tokens form a literal that stands for the value. The
least integer is not plain, since its digits are those of no integer. The entries
of a hash are printed in the order of their texts and not in that of their keys.

## Main definitions

* `Value.Plain`: the values whose texts are sources.
* `Token.Spells`: what a piece of a source is scanned to.
* `Grammar.Writes`: the tokens form a literal that stands for the value.

## Main results

* `Bytes.decimal_ofNat`: the digits of a number denote it.
* `Value.Plain.spelled`: a plain value is spelled by its text.
* `Program.parse_inspect`: the text of a plain value is read as a literal that stands for it.
-/

namespace StackScript

/-! ### Digits -/

namespace Bytes

theorem toNat_digit {d : Nat} (h : d < 10) : (digit d).toNat = 48 + d := by
  rw [digit, if_pos h]
  change (UInt8.ofNat (48 + d)).toNat = 48 + d
  rw [UInt8.toNat_ofNat']
  omega

theorem isDigit_digit {d : Nat} (h : d < 10) : Token.isDigit (digit d) = true := by
  simp only [Token.isDigit, Bool.and_eq_true, decide_eq_true_eq, UInt8.le_iff_toNat_le,
    toNat_digit h]
  change 48 ≤ 48 + d ∧ 48 + d ≤ 57
  omega

theorem decimal_concat (s : Bytes) (b : UInt8) :
    decimal (s ++ [b]) = 10 * decimal s + (b.toNat - 48) := by
  rw [decimal, List.foldl_append]
  rfl

theorem digits_ten (n : Nat) :
    digits 10 n = if n < 10 then [digit n] else digits 10 (n / 10) ++ [digit (n % 10)] := by
  rw [digits]
  simp

/-- The digits of a number denote it. -/
theorem decimal_ofNat (n : Nat) : decimal (ofNat n) = n := by
  induction n using Nat.strongRecOn with
  | ind n ih =>
    rw [ofNat, digits_ten]
    split
    · next h =>
      change decimal ([] ++ [digit n]) = n
      rw [decimal_concat, toNat_digit h]
      exact (Nat.zero_add _).trans (Nat.add_sub_cancel_left 48 n)
    · next h =>
      have hrest := ih (n / 10) (by omega)
      rw [ofNat] at hrest
      rw [decimal_concat, hrest, toNat_digit (Nat.mod_lt n (by decide))]
      omega

theorem isDigit_of_mem_ofNat (n : Nat) : ∀ b ∈ ofNat n, Token.isDigit b = true := by
  induction n using Nat.strongRecOn with
  | ind n ih =>
    rw [ofNat, digits_ten]
    split
    · next h =>
      intro b hb
      rw [List.mem_singleton.1 hb]
      exact isDigit_digit h
    · next h =>
      intro b hb
      obtain hb | hb := List.mem_append.1 hb
      · exact ih (n / 10) (by omega) b hb
      · rw [List.mem_singleton.1 hb]
        exact isDigit_digit (Nat.mod_lt n (by decide))

theorem ofNat_ne_nil (n : Nat) : ofNat n ≠ [] := by
  rw [ofNat, digits_ten]
  split <;> simp

theorem ofString_comma : ofString ", " = [44, 32] := by with_unfolding_all rfl

theorem ofString_lbracket : ofString "[" = [91] := by with_unfolding_all rfl

theorem ofString_rbracket : ofString "]" = [93] := by with_unfolding_all rfl

theorem ofString_lbrace : ofString "\x7b" = [123] := by with_unfolding_all rfl

theorem ofString_rbrace : ofString "\x7d" = [125] := by with_unfolding_all rfl

/-- Texts with a separator, as the first one and then the others, each after a separator. -/
theorem join_cons (sep s : Bytes) (parts : List Bytes) :
    join sep (s :: parts) = s ++ parts.flatMap (sep ++ ·) := by
  induction parts generalizing s with
  | nil => simp [join]
  | cons t parts ih =>
    have hjoin : join sep (s :: t :: parts) = s ++ sep ++ join sep (t :: parts) :=
      List.intercalate_cons_cons
    rw [hjoin, ih, List.flatMap_cons, List.append_assoc, List.append_assoc]

end Bytes

/-! ### Scanning a piece of a source -/

namespace Token

variable {b : UInt8} {s t rest : Bytes} {c c' c'' : Cursor} {ts us : List Token}
  {D D' E : List Token → Prop}

/-- Between two places of the input there are these tokens. -/
def Scans (c : Cursor) (ts : List Token) (c' : Cursor) : Prop :=
  ∀ acc, scanFrom acc c = scanFrom (ts.reverse ++ acc) c'

theorem Scans.refl (c : Cursor) : Scans c [] c := fun _ => rfl

theorem Scans.trans (h : Scans c ts c') (h' : Scans c' us c'') : Scans c (ts ++ us) c'' := by
  intro acc
  rw [h acc, h', List.reverse_append, List.append_assoc]

theorem scanFrom_eq (acc : List Token) (c : Cursor) :
    scanFrom acc c =
      match skip false c.pos c.rest with
      | ⟨pos, []⟩ => (acc.reverse, ⟨.eof, [], pos⟩)
      | ⟨pos, b :: rest⟩ =>
        if b == 0 then (acc.reverse, ⟨.eof, [], pos⟩)
        else scanFrom ((next pos b rest).1 :: acc) (next pos b rest).2 := by
  rw [scanFrom]
  split
  · next hskip => rw [hskip]
  · next hskip => rw [hskip]

theorem scan_of_scans {ts : List Token} {pos : Pos} (h : Scans ⟨.start s, s⟩ ts ⟨pos, []⟩) :
    scan s = (ts, ⟨.eof, [], pos⟩) := by
  rw [scan, h [], scanFrom_eq]
  simp [skip]

/-- A blank is skipped. -/
theorem scans_blank (pos : Pos) (hb : isBlank b = true) :
    Scans ⟨pos, b :: rest⟩ [] ⟨pos.step rest, rest⟩ := by
  intro acc
  have hskip : skip false pos (b :: rest) = skip false (pos.step rest) rest := by
    rw [skip, if_neg (by decide), if_pos hb]
  rw [scanFrom_eq, scanFrom_eq _ ⟨pos.step rest, rest⟩, hskip]
  rfl

/-- The byte neither separates tokens nor ends the input, and no comment starts with it. -/
abbrev Opens (b : UInt8) : Prop := isBlank b = false ∧ b ≠ 47 ∧ b ≠ 0

/-- Where nothing is skipped there is a token. -/
theorem scans_of_skip {pos : Pos} (hskip : skip false pos (b :: rest) = ⟨pos, b :: rest⟩)
    (hzero : b ≠ 0) : Scans ⟨pos, b :: rest⟩ [(next pos b rest).1] (next pos b rest).2 := by
  intro acc
  rw [scanFrom_eq, hskip]
  exact if_neg (by simpa using hzero)

theorem scans_next (pos : Pos) (rest : Bytes) (hb : Opens b) :
    Scans ⟨pos, b :: rest⟩ [(next pos b rest).1] (next pos b rest).2 := by
  obtain ⟨hblank, hslash, hzero⟩ := hb
  refine scans_of_skip ?_ hzero
  rw [skip, if_neg (by decide), if_neg (by simp [hblank]), if_neg (by simp [hslash])]

/-- The longest run of bytes in the class ends where the first other byte stands. -/
theorem run_append {inClass : UInt8 → Bool} (hs : ∀ b ∈ s, inClass b = true)
    (hrest : ∀ b ∈ rest.head?, inClass b = false) (acc : Bytes) (pos : Pos) :
    ∃ pos', run inClass acc pos (s ++ rest) = (acc.reverse ++ s, ⟨pos', rest⟩) := by
  induction s generalizing acc pos with
  | nil =>
    refine ⟨pos, ?_⟩
    rw [List.nil_append, List.append_nil]
    cases rest with
    | nil => rfl
    | cons b rest => rw [run, if_neg (by simp [hrest b rfl])]
  | cons b s ih =>
    obtain ⟨hb, hs⟩ := List.forall_mem_cons.1 hs
    obtain ⟨pos', hrun⟩ := ih hs (b :: acc) (pos.step (s ++ rest))
    refine ⟨pos', ?_⟩
    rw [List.cons_append, run, if_pos hb, hrun, List.reverse_cons, List.append_assoc]
    rfl

/-- No word or number goes on here. -/
def Stops (rest : Bytes) : Prop := ∀ b ∈ rest.head?, (isLetter b || isDigit b) = false

/-- Before `rest`, the text is scanned to tokens of which `D` holds. -/
def Spells (s rest : Bytes) (D : List Token → Prop) : Prop :=
  ∀ pos, ∃ ts pos', Scans ⟨pos, s ++ rest⟩ ts ⟨pos', rest⟩ ∧ D ts

theorem Spells.mono (h : Spells s rest D) (hD : ∀ ts, D ts → E ts) : Spells s rest E := by
  intro pos
  obtain ⟨ts, pos', hscans, hts⟩ := h pos
  exact ⟨ts, pos', hscans, hD ts hts⟩

/-- One text after another. -/
theorem Spells.append (h : Spells s (t ++ rest) D) (h' : Spells t rest D')
    (hE : ∀ ts us, D ts → D' us → E (ts ++ us)) : Spells (s ++ t) rest E := by
  intro pos
  obtain ⟨ts, pos₁, hscans, hts⟩ := h pos
  obtain ⟨us, pos₂, hscans', hus⟩ := h' pos₁
  rw [List.append_assoc]
  exact ⟨ts ++ us, pos₂, hscans.trans hscans', hE ts us hts hus⟩

/-- Three texts, one after another. -/
theorem Spells.append₃ {u : Bytes} {D'' : List Token → Prop} (h : Spells s (t ++ (u ++ rest)) D)
    (h' : Spells t (u ++ rest) D') (h'' : Spells u rest D'')
    (hE : ∀ ts us ws, D ts → D' us → D'' ws → E (ts ++ us ++ ws)) :
    Spells (s ++ t ++ u) rest E := by
  refine (h.append h' (E := fun xs => ∃ ts us, xs = ts ++ us ∧ D ts ∧ D' us) ?_).append h'' ?_
  · exact fun ts us hts hus => ⟨ts, us, rfl, hts, hus⟩
  · rintro _ ws ⟨ts, us, rfl, hts, hus⟩ hws
    exact hE ts us ws hts hus hws

theorem spells_nil (h : D []) : Spells [] rest D := fun pos => ⟨[], pos, .refl _, h⟩

/-- There is one token, of this kind and with this text. -/
def IsOne (kind : Kind) (s : Bytes) (ts : List Token) : Prop :=
  ∃ t : Token, ts = [t] ∧ t.kind = kind ∧ t.literal = s

theorem spells_blank : Spells [32] rest (· = []) := fun pos =>
  ⟨[], _, scans_blank pos rfl, rfl⟩

/-- The bytes that are tokens whatever follows them. -/
theorem spells_symbol {kind : Kind} (hb : Opens b)
    (hnext : ∀ pos, next pos b rest = (⟨kind, [b], pos⟩, ⟨pos.step rest, rest⟩)) :
    Spells [b] rest (IsOne kind [b]) := by
  intro pos
  have hscans := scans_next pos rest hb
  rw [hnext] at hscans
  exact ⟨_, _, hscans, _, rfl, rfl, rfl⟩

/-- A token that goes on as long as its bytes are in a class. -/
theorem spells_run {inClass : UInt8 → Bool} (kind : Bytes → Kind) (hb : Opens b)
    (hnext : ∀ pos after, next pos b after =
      let (text, c) := run inClass [b] (pos.step after) after
      (⟨kind text, text, pos⟩, c))
    (hs : ∀ x ∈ s, inClass x = true) (hrest : ∀ x ∈ rest.head?, inClass x = false) :
    Spells (b :: s) rest (IsOne (kind (b :: s)) (b :: s)) := by
  intro pos
  obtain ⟨pos', hrun⟩ := run_append hs hrest [b] (pos.step (s ++ rest))
  have hscans := scans_next pos (s ++ rest) hb
  rw [hnext, hrun] at hscans
  exact ⟨_, pos', hscans, _, rfl, rfl, rfl⟩

/-- What a digit is not. -/
theorem isDigit_excludes (hb : isDigit b = true) :
    Opens b ∧ isLetter b = false ∧ b ≠ 61 ∧ b ≠ 33 ∧ b ≠ 34 := by
  simp only [isDigit, Bool.and_eq_true, decide_eq_true_eq] at hb
  simp only [Opens, isBlank, isLetter]
  refine ⟨⟨?_, ?_, ?_⟩, ?_, ?_, ?_, ?_⟩ <;> grind

/-- Digits are one token. -/
theorem spells_digits (hs : s ≠ []) (hdigits : ∀ x ∈ s, isDigit x = true) (hrest : Stops rest) :
    Spells s rest (IsOne .int s) := by
  cases s with
  | nil => exact absurd rfl hs
  | cons b s =>
    obtain ⟨hb, hdigits⟩ := List.forall_mem_cons.1 hdigits
    obtain ⟨hopens, hletter, hassign, hbang, hquote⟩ := isDigit_excludes hb
    refine spells_run (fun _ => .int) hopens ?_ hdigits ?_
    · intro pos after
      simp [next, hassign, hbang, hquote, hletter, hb]
    · intro x hx
      exact (Bool.or_eq_false_iff.1 (hrest x hx)).2

theorem spells_ofNat (n : Nat) (hrest : Stops rest) :
    Spells (Bytes.ofNat n) rest (IsOne .int (Bytes.ofNat n)) :=
  spells_digits (Bytes.ofNat_ne_nil n) (Bytes.isDigit_of_mem_ofNat n) hrest

theorem spells_ofBool (v : Bool) (hrest : Stops rest) :
    Spells (Bytes.ofBool v) rest (IsOne (if v then .trueKw else .falseKw) (Bytes.ofBool v)) := by
  cases v with
  | true =>
    have htext : Bytes.ofBool true = [116, 114, 117, 101] := by decide +kernel
    have hkind : Kind.ofWord [116, 114, 117, 101] = .trueKw := by decide +kernel
    rw [htext, if_pos rfl, ← hkind]
    exact spells_run Kind.ofWord (by decide) (fun _ _ => rfl) (List.all_eq_true.1 rfl) hrest
  | false =>
    have htext : Bytes.ofBool false = [102, 97, 108, 115, 101] := by decide +kernel
    have hkind : Kind.ofWord [102, 97, 108, 115, 101] = .falseKw := by decide +kernel
    rw [htext, if_neg Bool.false_ne_true, ← hkind]
    exact spells_run Kind.ofWord (by decide) (fun _ _ => rfl) (List.all_eq_true.1 rfl) hrest

/-- A symbol with a blank after it. -/
theorem spells_spaced {kind : Kind} (hb : Opens b)
    (hnext : ∀ pos after, next pos b after = (⟨kind, [b], pos⟩, ⟨pos.step after, after⟩)) :
    Spells [b, 32] rest (IsOne kind [b]) := by
  refine Spells.append (s := [b]) (spells_symbol hb fun pos => hnext pos _) spells_blank ?_
  rintro ts us hts rfl
  rwa [List.append_nil]

/-! ### Lists -/

/-- How the tokens of a list with commas are put together from those of its elements, first for
the whole list and then for the elements after the first one. -/
structure Listing {α : Type} (One : α → List Token → Prop)
    (Whole More : List α → List Token → Prop) : Prop where
  nil : Whole [] []
  cons : ∀ {a : α} {as : List α} {ts us : List Token}, One a ts → More as us →
    Whole (a :: as) (ts ++ us)
  noMore : More [] []
  more : ∀ {a : α} {as : List α} {cs ts us : List Token}, IsOne .comma [44] cs → One a ts →
    More as us → More (a :: as) (cs ++ ts ++ us)

namespace Listing

variable {α : Type} {One : α → List Token → Prop} {Whole More : List α → List Token → Prop}
  {text : α → Bytes} {as : List α}

/-- The elements after the first one, each after a comma and a blank. -/
theorem spells_more (h : Listing One Whole More)
    (hone : ∀ a ∈ as, ∀ rest, Stops rest → Spells (text a) rest (One a)) (hrest : Stops rest) :
    Spells ((as.map text).flatMap ([44, 32] ++ ·)) rest (More as) ∧
      Stops ((as.map text).flatMap ([44, 32] ++ ·) ++ rest) := by
  induction as with
  | nil => exact ⟨spells_nil h.noMore, hrest⟩
  | cons a as ih =>
    obtain ⟨ha, has⟩ := List.forall_mem_cons.1 hone
    obtain ⟨hmore, hstops⟩ := ih has
    rw [List.map_cons, List.flatMap_cons]
    refine ⟨?_, by rintro _ ⟨⟩; rfl⟩
    exact .append₃ (spells_spaced (by decide) fun _ _ => rfl) (ha _ hstops) hmore
      fun _ _ _ => h.more

/-- A list is spelled by the texts of its elements if each of them is. -/
theorem spells (h : Listing One Whole More)
    (hone : ∀ a ∈ as, ∀ rest, Stops rest → Spells (text a) rest (One a)) (hrest : Stops rest) :
    Spells (Bytes.join [44, 32] (as.map text)) rest (Whole as) := by
  cases as with
  | nil => exact spells_nil h.nil
  | cons a as =>
    obtain ⟨ha, has⟩ := List.forall_mem_cons.1 hone
    obtain ⟨hmore, hstops⟩ := h.spells_more has hrest
    rw [List.map_cons, Bytes.join_cons]
    exact (ha _ hstops).append hmore fun _ _ => h.cons

/-- A list whose elements after the first one are a list again, after a comma. -/
theorem of_tail (hnil : Whole [] [])
    (hone : ∀ {a : α} {ts : List Token}, One a ts → Whole [a] ts)
    (hcons : ∀ {a : α} {as : List α} {ts cs us : List Token}, One a ts → IsOne .comma [44] cs →
      Whole as us → Whole (a :: as) (ts ++ cs ++ us)) :
    Listing One Whole fun as ts =>
      as = [] ∧ ts = [] ∨ ∃ cs us, ts = cs ++ us ∧ IsOne .comma [44] cs ∧ Whole as us := by
  have htail {a : α} {as : List α} {ts us : List Token} (ha : One a ts)
      (hmore : as = [] ∧ us = [] ∨ ∃ cs ws, us = cs ++ ws ∧ IsOne .comma [44] cs ∧ Whole as ws) :
      Whole (a :: as) (ts ++ us) := by
    rcases hmore with ⟨rfl, rfl⟩ | ⟨cs, ws, rfl, hcs, hws⟩
    · rw [List.append_nil]
      exact hone ha
    · rw [← List.append_assoc]
      exact hcons ha hcs hws
  refine ⟨hnil, htail, .inl ⟨rfl, rfl⟩, ?_⟩
  intro a as cs ts us hcs ha hmore
  exact .inr ⟨cs, ts ++ us, List.append_assoc _ _ _, hcs, htail ha hmore⟩

end Listing

end Token

/-! ### Plain values -/

namespace Value

/-- A boolean, or an integer other than the least one. -/
inductive Simple : Value → Prop
  | int {n : Int64} (hn : n ≠ Int64.minValue) : Simple (.int n)
  | bool (b : Bool) : Simple (.bool b)

/-- A value that is made of simple values, arrays and hashes with simple keys. -/
inductive Plain : Value → Prop
  | simple {v : Value} (h : v.Simple) : Plain v
  | array {items : List Value} (hitems : ∀ v ∈ items, Plain v) : Plain (.array items)
  | hash {entries : List Entry} (hkeys : ∀ e ∈ entries, e.2.1.Simple)
    (hdigests : ∀ e ∈ entries, e.2.1.hashKey? = some e.1) (hvalues : ∀ e ∈ entries, Plain e.2.2) :
    Plain (.hash (Entry.file entries))

/-- The text of an entry of a hash. -/
def entryText (e : Entry) : Bytes := e.2.1.inspect ++ [58, 32] ++ e.2.2.inspect

theorem inspectItems_eq (acc : List Bytes) (items : List Value) :
    inspectItems acc items = acc.reverse ++ items.map inspect := by
  induction items generalizing acc with
  | nil => simp [inspectItems]
  | cons v items ih => simp [inspectItems, ih]

theorem inspectEntries_eq (acc : List Bytes) (entries : List Entry) :
    inspectEntries acc entries = acc.reverse ++ entries.map entryText := by
  have hcolon : Bytes.ofString ": " = [58, 32] := by decide +kernel
  induction entries generalizing acc with
  | nil => simp [inspectEntries]
  | cons e entries ih => simp [inspectEntries, ih, entryText, hcolon]

theorem inspect_array (items : List Value) :
    (Value.array items).inspect = [91] ++ Bytes.join [44, 32] (items.map inspect) ++ [93] := by
  rw [inspect, inspectItems_eq, Bytes.ofString_lbracket, Bytes.ofString_comma,
    Bytes.ofString_rbracket]
  rfl

/-- The entries of a hash are shown in some order. -/
theorem exists_inspect_hash (entries : List Entry) :
    ∃ shown : List Entry, shown.Perm entries ∧
      (Value.hash entries).inspect =
        [123] ++ Bytes.join [44, 32] (shown.map entryText) ++ [125] := by
  refine ⟨entries.mergeSort fun a b => Bytes.le (entryText a) (entryText b),
    List.mergeSort_perm _ _, ?_⟩
  rw [inspect, inspectEntries_eq, Bytes.ofString_lbrace, Bytes.ofString_comma,
    Bytes.ofString_rbrace, List.reverse_nil, List.nil_append, List.map_mergeSort]
  intro a _ b _
  rfl

end Value

/-! ### Texts as literals -/

namespace Grammar

variable {v : Value} {vs : List Value} {ts : List Token}

/-- The tokens form a literal that stands for the value. -/
def Writes (v : Value) (ts : List Token) : Prop :=
  ∃ e last, e.Builds v ∧ ∀ rest, Derives True (.expr 6 e last) (ts ++ rest) rest

/-- The tokens form a list of literals, a phrase of the given form, that stand for the values. -/
def WritesItems (form : List Expr → Phrase) (vs : List Value) (ts : List Token) : Prop :=
  ∃ items : List (Expr × Value), items.map (·.2) = vs ∧ (∀ p ∈ items, p.1.Builds p.2) ∧
    ∀ rest, Derives True (form (items.map (·.1))) (ts ++ rest) rest

/-- The tokens form a key and a value with a colon between them. -/
def WritesPair (e : Entry) (ts : List Token) : Prop :=
  ∃ ks cs us, ts = ks ++ cs ++ us ∧ Writes e.2.1 ks ∧ Token.IsOne .colon [58] cs ∧ Writes e.2.2 us

/-- The tokens form pairs between commas that stand for the entries. -/
def WritesPairs (entries : List Entry) (ts : List Token) : Prop :=
  ∃ pairs : List ((Expr × Expr) × Entry), pairs.map (·.2) = entries ∧
    (∀ p ∈ pairs, p.1.1.Builds p.2.2.1) ∧ (∀ p ∈ pairs, p.1.2.Builds p.2.2.2) ∧
    ∀ rest, Derives True (.pairs (pairs.map (·.1))) (ts ++ rest) rest

theorem writes_ofNat {n : Nat} (hn : n < 2 ^ 63) (h : Token.IsOne .int (Bytes.ofNat n) ts) :
    Writes (.int (.ofNat n)) ts := by
  obtain ⟨t, rfl, hkind, htext⟩ := h
  have hdecimal : t.literal.decimal = n := by rw [htext, Bytes.decimal_ofNat]
  refine ⟨_, t, .int (.token t.pos) t.literal (.ofNat n), fun rest => ?_⟩
  have hint : Derives True _ (t :: rest) rest := .int hkind (by rw [hdecimal]; exact hn)
  rw [hdecimal] at hint
  exact hint.lower.lower

theorem writes_neg {n : Int64} {us : List Token} (h : Token.IsOne .minus [45] ts)
    (h' : Writes (.int n) us) : Writes (.int (-n)) (ts ++ us) := by
  obtain ⟨t, rfl, hkind, -⟩ := h
  obtain ⟨e, last, hbuilds, hderives⟩ := h'
  have hsign : Sign t.kind .neg := by rw [hkind]; exact .neg
  exact ⟨_, last, .neg _ hbuilds, fun rest => .unary hsign (hderives rest)⟩

theorem writes_ofBool {b : Bool} {s : Bytes}
    (h : Token.IsOne (if b then .trueKw else .falseKw) s ts) : Writes (.bool b) ts := by
  obtain ⟨t, rfl, hkind, -⟩ := h
  cases b with
  | true => exact ⟨_, t, .bool _ true, fun rest => (Derives.trueKw hkind).lower.lower⟩
  | false => exact ⟨_, t, .bool _ false, fun rest => (Derives.falseKw hkind).lower.lower⟩

theorem writes_array {us ls rs : List Token} (hl : Token.IsOne .lbracket [91] ls)
    (h : WritesItems .items vs us) (hr : Token.IsOne .rbracket [93] rs) :
    Writes (.array vs) (ls ++ us ++ rs) := by
  obtain ⟨l, rfl, hl, -⟩ := hl
  obtain ⟨r, rfl, hr, -⟩ := hr
  obtain ⟨items, rfl, hbuilds, hderives⟩ := h
  refine ⟨_, r, .array (.run l.pos r.pos) hbuilds, fun rest => ?_⟩
  rw [List.append_assoc, List.append_assoc]
  exact (Derives.array hl (hderives (r :: rest)) hr).lower.lower

theorem writes_hash {entries : List Entry} {us ls rs : List Token}
    (hdigests : ∀ e ∈ entries, e.2.1.hashKey? = some e.1) (hdistinct : Entry.Distinct entries)
    (hl : Token.IsOne .lbrace [123] ls) (h : WritesPairs entries us)
    (hr : Token.IsOne .rbrace [125] rs) :
    Writes (.hash (Entry.file entries)) (ls ++ us ++ rs) := by
  obtain ⟨l, rfl, hl, -⟩ := hl
  obtain ⟨r, rfl, hr, -⟩ := hr
  obtain ⟨pairs, rfl, hkeys, hvalues, hderives⟩ := h
  have hdigests' : ∀ p ∈ pairs, p.2.2.1.hashKey? = some p.2.1 := fun p hp =>
    hdigests p.2 (List.mem_map_of_mem hp)
  refine ⟨_, r, .hash (.run l.pos r.pos) hdigests' hkeys hvalues hdistinct, fun rest => ?_⟩
  rw [List.append_assoc, List.append_assoc]
  exact (Derives.hash hl (hderives (r :: rest)) hr).lower.lower

theorem writesItems_nil (form : List Expr → Phrase)
    (h : ∀ rest, Derives True (form []) rest rest) : WritesItems form [] [] :=
  ⟨[], rfl, nofun, h⟩

theorem writes_cons {us : List Token} (h : Writes v ts) (h' : WritesItems .moreItems vs us) :
    WritesItems .items (v :: vs) (ts ++ us) := by
  obtain ⟨e, last, hbuilds, hderives⟩ := h
  obtain ⟨items, rfl, hitems, hmore⟩ := h'
  refine ⟨(e, v) :: items, rfl, List.forall_mem_cons.2 ⟨hbuilds, hitems⟩, fun rest => ?_⟩
  rw [List.append_assoc]
  exact .someItems ((hderives _).lower_le (by decide)) (hmore rest)

theorem writes_more {cs us : List Token} (hc : Token.IsOne .comma [44] cs) (h : Writes v ts)
    (h' : WritesItems .moreItems vs us) : WritesItems .moreItems (v :: vs) (cs ++ ts ++ us) := by
  obtain ⟨c, rfl, hc, -⟩ := hc
  obtain ⟨e, last, hbuilds, hderives⟩ := h
  obtain ⟨items, rfl, hitems, hmore⟩ := h'
  refine ⟨(e, v) :: items, rfl, List.forall_mem_cons.2 ⟨hbuilds, hitems⟩, fun rest => ?_⟩
  rw [List.append_assoc, List.append_assoc]
  exact .moreItems hc ((hderives _).lower_le (by decide)) (hmore rest)

theorem writesPairs_singleton {e : Entry} (h : WritesPair e ts) : WritesPairs [e] ts := by
  obtain ⟨ks, _, us, rfl, ⟨key, last, hkey, hks⟩, ⟨c, rfl, hc, -⟩, value, last', hvalue, hus⟩ := h
  refine ⟨[((key, value), e)], rfl, by simpa using hkey, by simpa using hvalue, fun rest => ?_⟩
  rw [List.append_assoc, List.append_assoc]
  exact .lastPair ((hks _).lower_le (by decide)) hc ((hus rest).lower_le (by decide))

theorem writesPairs_cons {e : Entry} {entries : List Entry} {ms us : List Token}
    (h : WritesPair e ts) (hm : Token.IsOne .comma [44] ms) (h' : WritesPairs entries us) :
    WritesPairs (e :: entries) (ts ++ ms ++ us) := by
  obtain ⟨m, rfl, hm, -⟩ := hm
  obtain ⟨ks, _, ws, rfl, ⟨key, last, hkey, hks⟩, ⟨c, rfl, hc, -⟩, value, last', hvalue, hws⟩ := h
  obtain ⟨pairs, rfl, hkeys, hvalues, hpairs⟩ := h'
  refine ⟨((key, value), e) :: pairs, rfl, List.forall_mem_cons.2 ⟨hkey, hkeys⟩,
    List.forall_mem_cons.2 ⟨hvalue, hvalues⟩, fun rest => ?_⟩
  rw [List.append_assoc, List.append_assoc, List.append_assoc, List.append_assoc]
  exact .morePairs ((hks _).lower_le (by decide)) hc
    ((hws (m :: (us ++ rest))).lower_le (by decide)) hm (hpairs rest)

end Grammar

namespace Value

open Token Grammar

variable {v : Value} {rest : Bytes}

/-- The value is spelled by its text, whatever follows it. -/
def Spelled (v : Value) : Prop := ∀ rest, Stops rest → Spells v.inspect rest (Writes v)

theorem Simple.spelled (h : v.Simple) : v.Spelled := by
  intro rest hrest
  cases h with
  | bool b => exact (spells_ofBool b hrest).mono fun _ => writes_ofBool
  | @int n hn =>
    rw [inspect]
    cases hsign : n.toInt with
    | ofNat k =>
      have hk : k < 2 ^ 63 := by
        have hlt := n.toInt_lt
        rw [hsign] at hlt
        exact Int.ofNat_lt.1 hlt
      have hvalue : n = .ofNat k := by
        rw [← Int64.ofInt_toInt n, hsign, Int.ofNat_eq_natCast, Int64.ofInt_eq_ofNat]
      rw [hvalue]
      exact (spells_ofNat k hrest).mono fun _ => writes_ofNat hk
    | negSucc k =>
      have hk : k + 1 < 2 ^ 63 := by
        have hle := n.le_toInt
        have hne : n.toInt ≠ -2 ^ 63 := by
          rw [← Int64.toInt_minValue]
          exact fun heq => hn (Int64.toInt_inj.1 heq)
        rw [hsign, Int.negSucc_eq] at hle hne
        omega
      have hvalue : n = -.ofNat (k + 1) := by
        rw [← Int64.ofInt_toInt n, hsign, Int.negSucc_eq, Int64.ofInt_neg, ← Int64.ofInt_eq_ofNat]
        rfl
      rw [hvalue]
      exact (spells_symbol (by decide) fun _ => rfl).append (s := [45]) (spells_ofNat (k + 1) hrest)
        fun _ _ hminus hnumber => writes_neg hminus (writes_ofNat hk hnumber)

theorem spells_items {vs : List Value} (h : ∀ v ∈ vs, v.Spelled) (hrest : Stops rest) :
    Spells (Bytes.join [44, 32] (vs.map inspect)) rest (WritesItems .items vs) :=
  Listing.spells ⟨writesItems_nil _ fun _ => .noItems, writes_cons,
    writesItems_nil _ fun _ => .noMoreItems, writes_more⟩ h hrest

theorem spells_entry {e : Entry} (hkey : e.2.1.Spelled) (hvalue : e.2.2.Spelled)
    (hrest : Stops rest) : Spells (entryText e) rest (WritesPair e) :=
  .append₃ (hkey _ (by rintro _ ⟨⟩; rfl)) (spells_spaced (by decide) fun _ _ => rfl)
    (hvalue rest hrest) fun ks cs us hks hcs hus => ⟨ks, cs, us, rfl, hks, hcs, hus⟩

theorem spells_entries {entries : List Entry} (hkeys : ∀ e ∈ entries, e.2.1.Spelled)
    (hvalues : ∀ e ∈ entries, e.2.2.Spelled) (hrest : Stops rest) :
    Spells (Bytes.join [44, 32] (entries.map entryText)) rest (WritesPairs entries) := by
  refine (Listing.of_tail ⟨[], rfl, nofun, nofun, fun _ => .noPairs⟩ writesPairs_singleton
    writesPairs_cons).spells ?_ hrest
  exact fun e he rest hrest => spells_entry (hkeys e he) (hvalues e he) hrest

/-- A plain value is spelled by its text. -/
theorem Plain.spelled (h : v.Plain) : v.Spelled := by
  induction h with
  | simple h => exact h.spelled
  | array _ ih =>
    intro rest hrest
    rw [inspect_array]
    exact .append₃ (spells_symbol (by decide) fun _ => rfl) (spells_items ih (by rintro _ ⟨⟩; rfl))
      (spells_symbol (by decide) fun _ => rfl) fun _ _ _ => writes_array
  | @hash entries hkeys hdigests hvalues ih =>
    intro rest hrest
    obtain ⟨shown, hperm, htext⟩ := exists_inspect_hash (Entry.file entries)
    have hmem : ∀ e ∈ shown, e ∈ entries := fun e he => Entry.file_subset entries (hperm.subset he)
    have hdistinct : Entry.Distinct shown := (Entry.distinct_file entries).perm hperm
    have hfile : Entry.file shown = Entry.file entries :=
      (Entry.file_perm hperm (Entry.distinct_file entries)).trans (Entry.file_file entries)
    rw [htext, ← hfile]
    refine .append₃ (spells_symbol (by decide) fun _ => rfl)
      (spells_entries (fun e he => (hkeys e (hmem e he)).spelled) (fun e he => ih e (hmem e he)) ?_)
      (spells_symbol (by decide) fun _ => rfl) fun _ _ _ => writes_hash ?_ hdistinct
    · rintro _ ⟨⟩
      rfl
    · exact fun e he => hdigests e (hmem e he)

end Value

/-- The text of a plain value is read as a literal that stands for it. -/
theorem Program.parse_inspect {v : Value} (h : v.Plain) :
    ∃ loc e, e.Builds v ∧ Program.parse v.inspect = ⟨.ofBody [.expr loc e], []⟩ := by
  obtain ⟨ts, pos, hscans, e, last, hbuilds, hderives⟩ := h.spelled [] nofun (.start v.inspect)
  rw [List.append_nil] at hscans
  have hexpr := hderives []
  rw [List.append_nil] at hexpr
  obtain ⟨t, us, rfl, -⟩ := hexpr.first
  have hbody : Grammar.Derives True (.body [.expr (.run t.pos e.loc.span.stop) e]) (t :: us) [] :=
    .statement (.expr (hexpr.lower_le (by decide)) (.bare nofun nofun)) .done
  refine ⟨.run t.pos e.loc.span.stop, e, hbuilds, ?_⟩
  rw [Program.parse_eq, Token.scan_of_scans hscans]
  exact Parse.tokens_of_derives rfl hbody

end StackScript
