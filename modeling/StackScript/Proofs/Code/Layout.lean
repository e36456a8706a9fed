import Mathlib.Algebra.Group.Int.Defs
import Mathlib.Algebra.GroupWithZero.Nat
import Mathlib.Data.List.Forall2
import StackScript.Code.Instr

/-!
# Instructions inside a code

Instructions that are encoded one after another can be read back: at the offset
of an instruction that fits its operands, exactly that instruction is found. So
a code can be treated as a list of instructions, and an offset as the number of
bytes of the instructions before it.

## Main definitions

* `Instr.bytes`: the number of bytes of instructions one after another.
* `Instr.Fits`: the operands are as many and as small as the operation wants.
* `Code.located`: instructions with their offsets.

## Main results

* `Code.fetch_ofInstrs`: what stands at the offset of an instruction.
* `Code.walk_ofInstrs`: a walk through encoded instructions finds them all.
-/

namespace StackScript

/-! ### Sizes -/

theorem encodeOperand_succ (width : Nat) (n : Int) :
    encodeOperand (width + 1) n =
      (n / 256 ^ width % 256).toNat.toUInt8 :: encodeOperand width n :=
  rfl

@[simp] theorem length_encodeOperand (width : Nat) (n : Int) :
    (encodeOperand width n).length = width := by
  induction width with
  | zero => rfl
  | succ width ih => simp [encodeOperand_succ, ih]

theorem length_encodeOperands (widths : List Nat) (ns : List Int) :
    (encodeOperands widths ns).length = widths.foldr (· + ·) 0 := by
  induction widths generalizing ns with
  | nil => rfl
  | cons width widths ih => cases ns <;> simp [encodeOperands, ih]

theorem Opcode.size_pos (op : Opcode) : 0 < op.size := by
  simp only [Opcode.size]
  omega

namespace Instr

/-- An encoded instruction has the size of its operation, whatever the operands are. -/
@[simp] theorem length_encode (i : Instr) : i.encode.length = i.op.size := by
  simp only [encode, Opcode.encode, List.length_cons, length_encodeOperands, Opcode.size]
  omega

/-- The number of bytes of instructions one after another. -/
def bytes (is : List Instr) : Nat := (is.map (·.op.size)).sum

@[simp] theorem bytes_nil : bytes [] = 0 := rfl

@[simp] theorem bytes_cons (i : Instr) (is : List Instr) :
    bytes (i :: is) = i.op.size + bytes is := by
  simp [bytes]

@[simp] theorem bytes_append (is js : List Instr) : bytes (is ++ js) = bytes is + bytes js := by
  simp [bytes]

/-- The operands are as many as the operation wants, and each is small enough for its width. -/
def Fits (i : Instr) : Prop :=
  List.Forall₂ (fun width n => n ≤ maxOperand width) i.op.widths i.operands

end Instr

/-! ### Reading operands back -/

theorem getElem?_encodeOperand (n width k : Nat) (h : k < width) :
    (encodeOperand width n)[k]? = some (n / 256 ^ (width - (k + 1)) % 256).toUInt8 := by
  induction width generalizing k with
  | zero => omega
  | succ width ih =>
    cases k with
    | zero =>
      have hbyte : ((n : Int) / 256 ^ width % 256) = ((n / 256 ^ width % 256 : Nat) : Int) := by
        simp
      rw [encodeOperand_succ, List.getElem?_cons_zero, hbyte, Int.toNat_natCast, Nat.add_sub_cancel]
    | succ k =>
      rw [encodeOperand_succ, List.getElem?_cons_succ, ih k (by omega), Nat.add_sub_add_right]

namespace Code

/-- The first `j` bytes of an operand hold its high digits to the base 256. -/
theorem readOperand_encode {code : Code} {offset width n : Nat}
    (h : ∀ k < width, code[offset + k]? = (encodeOperand width n)[k]?) {j : Nat} (hj : j ≤ width) :
    code.readOperand offset j = some (n / 256 ^ (width - j) % 256 ^ j) := by
  induction j with
  | zero => simp [readOperand, Nat.mod_one]
  | succ j ih =>
    have hlow : code[offset + j]? = some (n / 256 ^ (width - (j + 1)) % 256).toUInt8 := by
      rw [h j hj, getElem?_encodeOperand n width j hj]
    have hhigh : n / 256 ^ (width - j) = n / 256 ^ (width - (j + 1)) / 256 := by
      rw [Nat.div_div_eq_div_mul, ← Nat.pow_succ, show (width - (j + 1)).succ = width - j by omega]
    simp only [readOperand, ih (by omega), hlow, hhigh, Option.bind_eq_bind, Option.bind_some,
      Option.pure_def]
    congr 1
    rw [Nat.pow_succ', Nat.mod_mul, Nat.add_comm]
    congr 1
    simp [Nat.toUInt8]

theorem readOperands_encode {code : Code} {widths ns : List Nat}
    (hfit : List.Forall₂ (fun width n => n ≤ maxOperand width) widths ns) {offset : Nat}
    (h : ∀ k < widths.foldr (· + ·) 0,
      code[offset + k]? = (encodeOperands widths (ns.map Int.ofNat))[k]?) :
    code.readOperands offset widths = some ns := by
  induction hfit generalizing offset with
  | nil => rfl
  | @cons width n widths ns hn _ ih =>
    simp only [List.map_cons, encodeOperands, List.foldr_cons] at h
    have hfirst : code.readOperand offset width = some n := by
      rw [readOperand_encode (n := n) _ (Nat.le_refl width)]
      · have hpos : 0 < 256 ^ width := Nat.pow_pos (by decide)
        have hlt : n < 256 ^ width := by
          change n ≤ 256 ^ width - 1 at hn
          omega
        simp [Nat.mod_eq_of_lt hlt]
      · intro k hk
        rw [h k (by omega), List.getElem?_append_left (by simpa using hk)]
        rfl
    have hrest : code.readOperands (offset + width) widths = some ns := by
      apply ih
      intro k hk
      rw [Nat.add_assoc, h (width + k) (by omega), List.getElem?_append_right (by simp)]
      simp
    simp [readOperands, hfirst, hrest]

/-! ### Finding instructions -/

@[simp] theorem size_ofInstrs (is : List Instr) : (ofInstrs is).size = Instr.bytes is := by
  simp [ofInstrs, Instr.bytes]

/-- The bytes of an instruction stand at its offset. -/
theorem getElem?_ofInstrs (before after : List Instr) (i : Instr) {k : Nat} (h : k < i.op.size) :
    (ofInstrs (before ++ i :: after))[Instr.bytes before + k]? = i.encode[k]? := by
  have hlen : (before.flatMap Instr.encode).length = Instr.bytes before := by
    simp [Instr.bytes, List.length_flatMap]
  rw [ofInstrs, List.getElem?_toArray, List.flatMap_append, List.flatMap_cons,
    List.getElem?_append_right (by omega), hlen, Nat.add_sub_cancel_left,
    List.getElem?_append_left (by simpa using h)]

/-- An instruction whose operands fit is found at its offset. -/
theorem fetch_ofInstrs (before after : List Instr) {i : Instr} (h : i.Fits) :
    (ofInstrs (before ++ i :: after)).fetch (Instr.bytes before) = some (.instr i) := by
  have hop : (ofInstrs (before ++ i :: after))[Instr.bytes before]? = some i.op.toByte := by
    rw [← Nat.add_zero (Instr.bytes before), getElem?_ofInstrs before after i i.op.size_pos]
    rfl
  have hoperands : (ofInstrs (before ++ i :: after)).readOperands (Instr.bytes before + 1) i.op.widths =
      some i.operands := by
    apply readOperands_encode h
    intro k hk
    have hsize : 1 + k < i.op.size := by
      simp only [Opcode.size]
      omega
    rw [Nat.add_assoc, getElem?_ofInstrs before after i hsize, Nat.add_comm 1 k]
    rfl
  simp [fetch, hop, Opcode.ofByte?_toByte, hoperands]

/-- There is a byte wherever something is found. -/
theorem exists_byte_of_fetch {code : Code} {offset : Nat} {x : Fetched}
    (h : code.fetch offset = some x) : ∃ b, code[offset]? = some b := by
  unfold fetch at h
  split at h
  · cases h
  · next b hb => exact ⟨b, hb⟩

/-- Instructions with their offsets, the first of which is given. -/
def located (offset : Nat) : List Instr → List (Nat × Instr)
  | [] => []
  | i :: is => (offset, i) :: located (offset + i.op.size) is

theorem mem_located {offset o : Nat} {is : List Instr} {i : Instr} :
    (o, i) ∈ located offset is ↔
      ∃ before after, is = before ++ i :: after ∧ o = offset + Instr.bytes before := by
  induction is generalizing offset with
  | nil => simp [located]
  | cons j is ih =>
    rw [located, List.mem_cons, ih]
    constructor
    · rintro (h | ⟨before, after, rfl, rfl⟩)
      · obtain ⟨rfl, rfl⟩ := Prod.mk.inj h
        exact ⟨[], is, rfl, rfl⟩
      · refine ⟨j :: before, after, rfl, ?_⟩
        rw [Instr.bytes_cons, Nat.add_assoc]
    · rintro ⟨before, after, h, rfl⟩
      cases before with
      | nil =>
        obtain ⟨rfl, rfl⟩ := List.cons.inj h
        exact .inl rfl
      | cons k before =>
        obtain ⟨rfl, rfl⟩ := List.cons.inj h
        refine .inr ⟨before, after, rfl, ?_⟩
        rw [Instr.bytes_cons, Nat.add_assoc]

/-- What a walk through the instructions finds. -/
def found (p : Nat × Instr) : Nat × Fetched := (p.1, .instr p.2)

theorem walkFrom_ofInstrs (before after : List Instr) (hfit : ∀ i ∈ after, i.Fits)
    (acc : List (Nat × Fetched)) :
    (ofInstrs (before ++ after)).walkFrom acc (Instr.bytes before) =
      acc.reverse ++ (located (Instr.bytes before) after).map found := by
  induction after generalizing before acc with
  | nil =>
    rw [walkFrom]
    simp [located]
  | cons i after ih =>
    have hsize := i.op.size_pos
    have hinside : Instr.bytes before < (ofInstrs (before ++ i :: after)).size := by
      simp only [size_ofInstrs, Instr.bytes_append, Instr.bytes_cons]
      omega
    have hrest := ih (before ++ [i]) (fun j hj => hfit j (List.mem_cons_of_mem i hj))
      ((Instr.bytes before, .instr i) :: acc)
    simp only [List.append_assoc, List.singleton_append, Instr.bytes_append, Instr.bytes_cons,
      Instr.bytes_nil, Nat.add_zero] at hrest
    rw [walkFrom, dif_pos hinside, fetch_ofInstrs before after (hfit i List.mem_cons_self)]
    simp [hrest, located, found]

/-- A walk through encoded instructions whose operands fit finds them all, in order. -/
theorem walk_ofInstrs {is : List Instr} (hfit : ∀ i ∈ is, i.Fits) :
    (ofInstrs is).walk = (located 0 is).map found :=
  walkFrom_ofInstrs [] is hfit []

theorem mem_walk_ofInstrs {is : List Instr} (hfit : ∀ i ∈ is, i.Fits) {offset : Nat} {x : Fetched} :
    (offset, x) ∈ (ofInstrs is).walk ↔
      ∃ before i after, is = before ++ i :: after ∧ offset = Instr.bytes before ∧ x = .instr i := by
  rw [walk_ofInstrs hfit, List.mem_map]
  constructor
  · rintro ⟨⟨o, i⟩, hi, heq⟩
    obtain ⟨rfl, rfl⟩ := Prod.mk.inj heq
    obtain ⟨before, after, rfl, rfl⟩ := mem_located.1 hi
    exact ⟨before, i, after, rfl, by simp, rfl⟩
  · rintro ⟨before, i, after, rfl, rfl, rfl⟩
    exact ⟨(Instr.bytes before, i), mem_located.2 ⟨before, after, rfl, by simp⟩, rfl⟩

end Code

end StackScript
