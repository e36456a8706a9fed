import StackScript.Listing
import StackScript.Proofs.Code.Rows
import StackScript.Proofs.Tree.Spelling

/-!
# Sections of a listing

An annotated listing of any code and any constants has a section for main code
and one for each function, or it ends in a fault because a code ends inside an
instruction. A section has a line for each row of its code. The line of an
instruction has the offset, the mnemonic and the operands that stand in the plain
listing of the same code, and a byte that is no operation has a line of its own.

## Main definitions

* `Code.Row.plain`, `Code.Row.annotated`: a row as a line of either listing.
* `Listing.Section`: the text of the section of a code.
* `Listing.FirstMentions`: every function among constants, where it stands first.

## Main results

* `Code.Reads.listing`, `Code.listing_eq_none_iff`: the plain listing has the rows that a walk
  through the code finds, and there is none if the walk ends inside an instruction.
* `Listing.section_cases`: a section is written in full, or its code ends inside an instruction.
* `Listing.program_sections`: the sections of a program.
-/

namespace StackScript

namespace Code

/-- The operands in decimal, each after a blank. -/
def operandText (operands : List Nat) : Bytes :=
  operands.flatMap fun n => (" " ++ Bytes.ofNat n : Bytes)

namespace Row

/-- A line of a plain listing. -/
def plain : Row → Bytes
  | instr offset i =>
    Bytes.ofOffset offset ++ " " ++ Bytes.ofString i.op.name ++ operandText i.operands ++ "\n"
  | undefined _ b => "ERROR: opcode 0x" ++ Bytes.hexUpper b ++ " undefined\n"

/-- A line of an annotated listing, where the mnemonic fills a column and a note may follow. -/
def annotated (pool : Option (Array Value)) : Row → Bytes
  | instr offset i =>
    Bytes.ofOffset offset ++ " " ++ Bytes.padRight 32 18 i.op.name ++ operandText i.operands ++
      ((Listing.comment pool i).elim [] fun note => (" ; " ++ note : Bytes)) ++ "\n"
  | undefined offset b =>
    Bytes.ofOffset offset ++ " " ++ Bytes.padRight 32 18 (Opcode.nameOfByte b) ++ "\n"

theorem plain_instr (offset : Nat) (i : Instr) :
    Bytes.ofOffset offset ++ " " ++ i.text ++ "\n" = (instr offset i).plain := by
  simp only [plain, Instr.text, Bytes.join_cons, operandText, List.flatMap_map, List.append_assoc]

theorem line_eq_annotated (pool : Option (Array Value)) (offset : Nat) (i : Instr) :
    Listing.line pool offset i = (instr offset i).annotated pool := by
  have hblank : Bytes.ofString " " ++ Bytes.ofString "; " = Bytes.ofString " ; " := by
    with_unfolding_all rfl
  cases hcomment : Listing.comment pool i with
  | none =>
    simp [Listing.line, annotated, hcomment, operandText, Listing.lead, List.flatMap_map]
  | some note =>
    simp [Listing.line, annotated, hcomment, operandText, Listing.lead, List.flatMap_map, ← hblank]

end Row

variable {code : Code}

/-- The plain listing has a line for each row that the bytes are read as, and goes on after them. -/
theorem Reads.listingFrom {offset : Nat} {whole rest : Bytes} {rows : List Row}
    (h : Reads offset whole rows) (hcode : code.toList.drop offset = whole ++ rest)
    (acc : List Bytes) :
    code.listingFrom acc offset =
      code.listingFrom ((rows.map Row.plain).reverse ++ acc) (offset + whole.length) := by
  induction h generalizing acc with
  | nil offset => rfl
  | @instr offset i whole rows hi hrest ih =>
    rw [List.append_assoc] at hcode
    obtain ⟨hop, hoperands⟩ := read_of_encode hi hcode
    obtain ⟨hlt, hbyte⟩ := Array.getElem?_eq_some_iff.1 hop
    rw [Code.listingFrom, dif_pos hlt, hbyte]
    simp only [Opcode.ofByte?_toByte, hoperands]
    rw [ih (drop_of_encode hcode), Row.plain_instr, List.length_append, i.length_encode,
      Nat.add_assoc, List.map_cons, List.reverse_cons, List.append_assoc]
    rfl
  | @undefined offset b whole rows hb hrest ih =>
    have hget : code[offset]? = some b := getElem?_of_drop [b] hcode (k := 0) Nat.one_pos
    obtain ⟨hlt, hbyte⟩ := Array.getElem?_eq_some_iff.1 hget
    have hdrop : code.toList.drop (offset + 1) = whole ++ rest := by
      rw [← List.drop_drop, hcode]
      rfl
    rw [Code.listingFrom, dif_pos hlt, hbyte]
    simp only [hb]
    rw [ih hdrop, List.length_cons, Nat.add_assoc, Nat.add_comm 1, List.map_cons,
      List.reverse_cons, List.append_assoc (List.reverse _)]
    rfl

/-- The plain listing of a code has the rows that the code is read as. -/
theorem Reads.listing {rows : List Row} (h : Reads 0 code.toList rows) :
    code.listing = some (rows.flatMap Row.plain) := by
  rw [Code.listing, h.listingFrom (List.append_nil _).symm, Code.listingFrom, dif_neg (by simp)]
  simp [List.flatMap]

/-- There is no plain listing of a code exactly if a walk through it ends inside an instruction. -/
theorem listing_eq_none_iff : code.listing = none ↔ EndsInside code.toList := by
  obtain ⟨rows, hrows, -⟩ | ⟨hinside, -⟩ := code.walk_cases
  · rw [hrows.listing]
    exact iff_of_false (Option.some_ne_none _) hrows.not_endsInside
  · refine iff_of_true ?_ hinside
    obtain ⟨rows, whole, op, part, hrows, hcode, hshort⟩ := hinside
    have hdrop : code.toList.drop whole.length = op.toByte :: part := by
      rw [hcode, List.drop_left]
    obtain ⟨hop, hoperands⟩ := read_of_short hdrop hshort
    obtain ⟨hlt, hbyte⟩ := Array.getElem?_eq_some_iff.1 hop
    rw [Code.listing, hrows.listingFrom hcode, Nat.zero_add, Code.listingFrom, dif_pos hlt, hbyte]
    simp only [Opcode.ofByte?_toByte, hoperands]

end Code

namespace Listing

open Code (Row Reads EndsInside)

variable (pool : Option (Array Value))

/-! ### Sections -/

/-- The listing with more texts at its end. -/
def add (l : Listing) (texts : List Bytes) : Listing := { l with parts := texts.reverse ++ l.parts }

theorem text_add (l : Listing) (texts : List Bytes) :
    (l.add texts).text = l.text ++ texts.flatten := by
  simp [add, text]

theorem add_add (l : Listing) (texts more : List Bytes) :
    (l.add texts).add more = l.add (texts ++ more) := by
  simp [add]

theorem lines_rows (rows : List Row) (rest : List (Nat × Code.Fetched)) (l : Listing) :
    (lines pool (rows.map Row.found ++ rest)).run l =
      (lines pool rest).run (l.add (rows.map (Row.annotated pool))) := by
  induction rows generalizing l with
  | nil => rfl
  | cons row rows ih =>
    have hadd : l.add ((row :: rows).map (Row.annotated pool)) =
        (l.add [row.annotated pool]).add (rows.map (Row.annotated pool)) := by
      rw [add_add, List.map_cons, List.singleton_append]
    rw [hadd]
    cases row with
    | instr offset i =>
      exact (ih (l.add [line pool offset i])).trans (by rw [Row.line_eq_annotated])
    | undefined offset b => exact ih (l.add [lead offset (Opcode.nameOfByte b) ++ "\n"])

/-- The section of a code: the heading, and a line for each row. The plain listing of the code has
the same rows. -/
def Section (heading : Bytes) (code : Code) (text : Bytes) : Prop :=
  ∃ rows, Reads 0 code.toList rows ∧ code.listing = some (rows.flatMap Row.plain) ∧
    text = "func " ++ heading ++ "\n" ++ rows.flatMap (Row.annotated pool)

/-- Write the section of a code. -/
def writeSection (heading : Bytes) (code : Code) : Write Unit := do
  header heading
  lines pool code.walk

/-- What parts a section from those before it. -/
def gap (l : Listing) : List Bytes := if l.parts = [] then [] else ["\n"]

theorem run_header (heading : Bytes) (l : Listing) :
    (header heading).run l = .ok () (l.add (l.gap ++ ["func " ++ heading ++ "\n"])) := by
  obtain ⟨_ | ⟨part, parts⟩, shown⟩ := l <;> rfl

/-- A section is written in full after what is there, or its code ends inside an instruction. -/
theorem section_cases (heading : Bytes) (code : Code) (l : Listing) :
    (∃ texts, Section pool heading code texts.flatten ∧ texts ≠ [] ∧
      (writeSection pool heading code).run l = .ok () (l.add (l.gap ++ texts))) ∨
    EndsInside code.toList ∧
      ∃ offset l', (writeSection pool heading code).run l = .error (.truncated offset) l' := by
  obtain ⟨rows, hrows, hwalk⟩ | ⟨hinside, rows, offset, op, hwalk⟩ := code.walk_cases
  · refine .inl ⟨["func " ++ heading ++ "\n"] ++ rows.map (Row.annotated pool),
      ⟨rows, hrows, hrows.listing, rfl⟩, by simp, ?_⟩
    rw [writeSection, EStateM.run_bind, run_header]
    simp only
    rw [hwalk, ← List.append_nil (rows.map Row.found), lines_rows, add_add, List.append_assoc]
    rfl
  · refine .inr ⟨hinside, offset, ?_⟩
    rw [writeSection, EStateM.run_bind, run_header]
    simp only
    rw [hwalk, lines_rows]
    exact ⟨_, rfl⟩

/-! ### Functions -/

/-- What a function is called that is the constant of the given number. -/
def title (number : Nat) (f : Function) : Bytes :=
  if f.name = [] then "<closure@const:" ++ Bytes.ofNat number ++ ">" else f.name

/-- The heading of a function that has a title. -/
def heading (title : Bytes) (f : Function) : Bytes :=
  title ++ " (params=" ++ Bytes.ofNat f.params ++ ", locals=" ++ Bytes.ofNat f.locals ++ ")"

theorem title_ne_nil (number : Nat) (f : Function) : title number f ≠ [] := by
  unfold title
  split
  · intro h
    exact absurd (List.append_eq_nil_iff.1 h).2 (by with_unfolding_all decide)
  · assumption

/-- A function has a section unless it is shown already. -/
theorem run_function {title : Bytes} (htitle : title ≠ []) (f : Function) (l : Listing) :
    (function pool title (some f)).run l =
      if f.id ∈ l.shown then .ok () l
      else (writeSection pool (heading title f) f.code).run { l with shown := f.id :: l.shown } := by
  by_cases hshown : f.id ∈ l.shown
  · rw [if_pos hshown]
    simp [function, hshown]
  · rw [if_neg hshown]
    simp [function, hshown, htitle, writeSection, heading]

/-- The functions among constants that are neither shown nor mentioned before, with the numbers of
the constants. -/
def unshown (shown : List Nat) : Nat → List Value → List (Nat × Function)
  | _, [] => []
  | number, .function (some f) :: rest =>
    if f.id ∈ shown then unshown shown (number + 1) rest
    else (number, f) :: unshown (f.id :: shown) (number + 1) rest
  | number, _ :: rest => unshown shown (number + 1) rest

/-- The texts are the sections of the functions. -/
def Sections (shown : List (Nat × Function)) (texts : List Bytes) : Prop :=
  List.Forall₂ (fun p text => Section pool (heading (title p.1 p.2) p.2) p.2.code text) shown texts

/-- The sections of the functions are written in full, or the code of one ends inside an instruction. -/
theorem functions_cases (number : Nat) (constants : List Value) (l : Listing) (hl : l.parts ≠ []) :
    (∃ texts l', Sections pool (unshown l.shown number constants) texts ∧
      (functions pool number constants).run l = .ok () l' ∧
      l'.text = l.text ++ texts.flatMap (("\n" : Bytes) ++ ·)) ∨
    (∃ p ∈ unshown l.shown number constants, EndsInside p.2.code.toList) ∧
      ∃ offset l', (functions pool number constants).run l = .error (.truncated offset) l' := by
  fun_induction functions pool number constants generalizing l with
  | case1 number => exact .inl ⟨[], l, .nil, rfl, (List.append_nil _).symm⟩
  | case2 number f rest unnamed ih =>
    have htitle : (if f.name = [] then unnamed else f.name) = title number f := rfl
    rw [EStateM.run_bind, htitle, run_function pool (title_ne_nil number f), unshown]
    split
    · exact ih l hl
    -- The function counts as shown before its section is written.
    let entered : Listing := { l with shown := f.id :: l.shown }
    obtain ⟨texts, hsection, hne, hrun⟩ | ⟨hinside, offset, l', hrun⟩ :=
      section_cases pool (heading (title number f) f) f.code entered
    · rw [hrun]
      have hgap : entered.gap = ["\n"] := if_neg hl
      have hparts : (entered.add (entered.gap ++ texts)).parts ≠ [] := by simp [add, hne]
      obtain ⟨more, l', hsections, hrest, htext⟩ | ⟨⟨p, hp, hinside⟩, hrest⟩ := ih _ hparts
      · refine .inl ⟨texts.flatten :: more, l', .cons hsection hsections, hrest, ?_⟩
        rw [htext, text_add, hgap]
        simp [entered, text]
      · exact .inr ⟨⟨p, List.mem_cons_of_mem _ hp, hinside⟩, hrest⟩
    · rw [hrun]
      exact .inr ⟨⟨_, List.mem_cons_self, hinside⟩, offset, l', rfl⟩
  | case3 number v rest hv ih =>
    rw [unshown]
    · exact ih l hl
    · exact hv

/-! ### First mentions -/

/-- Functions among the constants that have one identity are one function. -/
def Identified (constants : List Value) : Prop :=
  ∀ f g, .function (some f) ∈ constants → .function (some g) ∈ constants → f.id = g.id → f = g

/-- Every function among the constants is there once, with the number of its first mention. -/
structure FirstMentions (constants : List Value) (shown : List (Nat × Function)) : Prop where
  isConstant : ∀ p ∈ shown, constants[p.1]? = some (.function (some p.2))
  inOrder : shown.Pairwise fun p q => p.1 < q.1 ∧ p.2 ≠ q.2
  covers : ∀ k f, constants[k]? = some (.function (some f)) → ∃ number ≤ k, (number, f) ∈ shown

theorem mem_unshown {shown : List Nat} {number : Nat} {constants : List Value} {p : Nat × Function}
    (hp : p ∈ unshown shown number constants) :
    p.2.id ∉ shown ∧ ∃ k, p.1 = number + k ∧ constants[k]? = some (.function (some p.2)) := by
  fun_induction unshown shown number constants with
  | case1 => cases hp
  | case2 shown number f rest hf ih =>
    obtain ⟨hnew, k, hk, hconstant⟩ := ih hp
    exact ⟨hnew, k + 1, by omega, hconstant⟩
  | case3 shown number f rest hf ih =>
    obtain rfl | hp := List.mem_cons.1 hp
    · exact ⟨hf, 0, rfl, rfl⟩
    · obtain ⟨hnew, k, hk, hconstant⟩ := ih hp
      exact ⟨fun h => hnew (List.mem_cons_of_mem _ h), k + 1, by omega, hconstant⟩
  | case4 shown number v rest hv ih =>
    obtain ⟨hnew, k, hk, hconstant⟩ := ih hp
    exact ⟨hnew, k + 1, by omega, hconstant⟩

theorem pairwise_unshown (shown : List Nat) (number : Nat) (constants : List Value) :
    (unshown shown number constants).Pairwise fun p q => p.1 < q.1 ∧ p.2 ≠ q.2 := by
  fun_induction unshown shown number constants with
  | case1 => exact .nil
  | case2 shown number f rest hf ih => exact ih
  | case3 shown number f rest hf ih =>
    refine .cons (fun q hq => ?_) ih
    obtain ⟨hnew, k, hk, -⟩ := mem_unshown hq
    refine ⟨by omega, ?_⟩
    rintro rfl
    exact hnew List.mem_cons_self
  | case4 shown number v rest hv ih => exact ih

/-- A function is shown already, or it is mentioned first where it is or before. -/
theorem unshown_covers {k : Nat} {constants : List Value} {f : Function} (shown : List Nat)
    (number : Nat) (hf : constants[k]? = some (.function (some f))) :
    f.id ∈ shown ∨ ∃ p ∈ unshown shown number constants, p.1 ≤ number + k ∧ p.2.id = f.id := by
  fun_induction unshown shown number constants generalizing k with
  | case1 => cases hf
  | case2 shown number g rest hg ih =>
    cases k with
    | zero =>
      obtain rfl := Option.some.inj (Value.function.inj (Option.some.inj hf))
      exact .inl hg
    | succ k =>
      refine (ih hf).imp_right fun ⟨p, hp, hle, hid⟩ => ⟨p, hp, by omega, hid⟩
  | case3 shown number g rest hg ih =>
    cases k with
    | zero =>
      obtain rfl := Option.some.inj (Value.function.inj (Option.some.inj hf))
      exact .inr ⟨_, List.mem_cons_self, Nat.le_refl _, rfl⟩
    | succ k =>
      obtain hshown | ⟨p, hp, hle, hid⟩ := ih hf
      · obtain hid | hshown := List.mem_cons.1 hshown
        · exact .inr ⟨_, List.mem_cons_self, Nat.le_add_right .., hid.symm⟩
        · exact .inl hshown
      · exact .inr ⟨p, List.mem_cons_of_mem _ hp, by omega, hid⟩
  | case4 shown number v rest hv ih =>
    cases k with
    | zero => exact absurd (Option.some.inj hf) (hv f)
    | succ k =>
      refine (ih hf).imp_right fun ⟨p, hp, hle, hid⟩ => ⟨p, hp, by omega, hid⟩

theorem firstMentions_unshown {constants : List Value} (h : Identified constants) :
    FirstMentions constants (unshown [] 0 constants) where
  isConstant p hp := by
    obtain ⟨-, k, hk, hconstant⟩ := mem_unshown hp
    rwa [hk, Nat.zero_add]
  inOrder := pairwise_unshown [] 0 constants
  covers k f hf := by
    obtain hshown | ⟨⟨number, g⟩, hp, hle, hid⟩ := unshown_covers [] 0 hf
    · cases hshown
    obtain ⟨-, j, -, hg⟩ := mem_unshown hp
    obtain rfl := h g f (List.mem_of_getElem? hg) (List.mem_of_getElem? hf) hid
    exact ⟨number, by omega, hp⟩

/-! ### Programs -/

/-- Main code or the code of a function among the constants ends inside an instruction. -/
def Broken (code : Code) (constants : List Value) : Prop :=
  EndsInside code.toList ∨ ∃ f, .function (some f) ∈ constants ∧ EndsInside f.code.toList

/-- The heading of main code. -/
def mainHeading : Bytes := "<main> (constants=" ++ Bytes.ofNat (pool.getD #[]).size ++ ")"

theorem program_eq (code : Code) :
    program pool code = (do
      writeSection pool (mainHeading pool) code
      functions pool 0 (pool.getD #[]).toList) := by
  simp only [program, writeSection, mainHeading, bind_assoc]

theorem program_cases (code : Code) :
    (∃ main texts l, Section pool (mainHeading pool) code main ∧
      Sections pool (unshown [] 0 (pool.getD #[]).toList) texts ∧
      (program pool code).run .empty = .ok () l ∧ l.text = Bytes.join "\n" (main :: texts)) ∨
    Broken code (pool.getD #[]).toList ∧
      ∃ offset l, (program pool code).run .empty = .error (.truncated offset) l := by
  rw [program_eq, EStateM.run_bind]
  obtain ⟨main, hmain, hne, hrun⟩ | ⟨hinside, offset, l, hrun⟩ :=
    section_cases pool (mainHeading pool) code .empty
  · rw [hrun]
    have hparts : (empty.add (empty.gap ++ main)).parts ≠ [] := by simp [add, hne]
    obtain ⟨texts, l, hsections, hrest, htext⟩ | ⟨⟨p, hp, hinside⟩, hrest⟩ :=
      functions_cases pool 0 (pool.getD #[]).toList _ hparts
    · refine .inl ⟨main.flatten, texts, l, hmain, hsections, hrest, ?_⟩
      rw [htext, text_add, Bytes.join_cons]
      rfl
    · obtain ⟨-, k, -, hconstant⟩ := mem_unshown hp
      exact .inr ⟨.inr ⟨p.2, List.mem_of_getElem? hconstant, hinside⟩, hrest⟩
  · rw [hrun]
    exact .inr ⟨.inl hinside, offset, l, rfl⟩

variable {pool}

theorem Section.not_endsInside {heading : Bytes} {code : Code} {text : Bytes}
    (h : Section pool heading code text) : ¬EndsInside code.toList := by
  obtain ⟨rows, hrows, -⟩ := h
  exact hrows.not_endsInside

theorem Sections.not_endsInside {shown : List (Nat × Function)} {texts : List Bytes}
    (h : Sections pool shown texts) : ∀ p ∈ shown, ¬EndsInside p.2.code.toList := by
  unfold Sections at h
  induction h with
  | nil => exact List.forall_mem_nil _
  | cons hsection hrest ih => exact List.forall_mem_cons.2 ⟨hsection.not_endsInside, ih⟩

/-- Where all sections are there, no code ends inside an instruction. -/
theorem Sections.not_broken {heading : Bytes} {code : Code} {main : Bytes} {constants : List Value}
    {shown : List (Nat × Function)} {texts : List Bytes} (hmain : Section pool heading code main)
    (hshown : FirstMentions constants shown) (h : Sections pool shown texts) :
    ¬Broken code constants := by
  rintro (hinside | ⟨f, hf, hinside⟩)
  · exact hmain.not_endsInside hinside
  · obtain ⟨k, hk⟩ := List.mem_iff_getElem?.1 hf
    obtain ⟨number, -, hmem⟩ := hshown.covers k f hk
    exact h.not_endsInside _ hmem hinside

/-- The listing of a program ends in a fault if a code ends inside an instruction. Otherwise it has
the section of main code and those of the functions, parted by blank lines. -/
theorem program_sections (pool : Option (Array Value)) (code : Code)
    (hpool : Identified (pool.getD #[]).toList) :
    (Broken code (pool.getD #[]).toList →
      ∃ offset l, (program pool code).run .empty = .error (.truncated offset) l) ∧
    (¬Broken code (pool.getD #[]).toList →
      ∃ l shown main texts, (program pool code).run .empty = .ok () l ∧
        FirstMentions (pool.getD #[]).toList shown ∧ Section pool (mainHeading pool) code main ∧
        Sections pool shown texts ∧ l.text = Bytes.join "\n" (main :: texts)) := by
  have hshown := firstMentions_unshown hpool
  obtain ⟨main, texts, l, hmain, hsections, hrun, htext⟩ | ⟨hbroken, hrun⟩ :=
    program_cases pool code
  · exact ⟨fun hbroken => absurd hbroken (hsections.not_broken hmain hshown),
      fun _ => ⟨l, _, main, texts, hrun, hshown, hmain, hsections, htext⟩⟩
  · exact ⟨fun _ => hrun, fun hwhole => absurd hbroken hwhole⟩

/-- A function that is mentioned twice and whose only byte is no operation. -/
def mentionedTwice : Option (Array Value) :=
  some #[.function (some ⟨1, "f", #[255], 0, 0⟩), .function (some ⟨1, "f", #[255], 0, 0⟩)]

theorem program_sections_twice :
    Identified (mentionedTwice.getD #[]).toList ∧
    (∃ offset l, (program mentionedTwice #[Opcode.const.toByte]).run .empty =
      .error (.truncated offset) l) ∧
    ∃ l shown main texts, (program mentionedTwice #[]).run .empty = .ok () l ∧
      FirstMentions (mentionedTwice.getD #[]).toList shown ∧
      Section mentionedTwice (mainHeading mentionedTwice) #[] main ∧
      Sections mentionedTwice shown texts ∧ l.text = Bytes.join "\n" (main :: texts) := by
  have honly (f : Function) (hf : .function (some f) ∈ (mentionedTwice.getD #[]).toList) :
      f = ⟨1, "f", #[255], 0, 0⟩ := by
    simpa [mentionedTwice] using hf
  have hpool : Identified (mentionedTwice.getD #[]).toList := by
    intro f g hf hg _
    rw [honly f hf, honly g hg]
  have hwhole : ¬Broken #[] (mentionedTwice.getD #[]).toList := by
    rintro (hinside | ⟨f, hf, hinside⟩)
    · exact (Reads.nil 0).not_endsInside hinside
    · rw [honly f hf] at hinside
      exact (Reads.undefined (by decide) (.nil 1)).not_endsInside hinside
  exact ⟨hpool, (program_sections mentionedTwice #[Opcode.const.toByte] hpool).1
      (.inl ⟨[], [], .const, [], .nil 0, rfl, by decide⟩),
    (program_sections mentionedTwice #[] hpool).2 hwhole⟩

end Listing

end StackScript
