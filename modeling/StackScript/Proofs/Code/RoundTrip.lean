import Mathlib.Algebra.Order.Ring.Int
import StackScript.Proofs.Code.Layout

/-!
# Encoding and decoding

Any integers can be given as the operands of an operation. What is kept of them
is what can be read back: an operand loses its high bytes, a missing one is zero,
and a surplus one is lost. So a walk through encoded operations finds each of
them at its offset with the operands that were kept. Conversely, a code in which
a walk finds nothing but instructions consists of the bytes of these instructions.

## Main definitions

* `Opcode.kept`: the instruction that is kept of an operation with any operands.

## Main results

* `Opcode.encode_kept`: an operation and what is kept of it have the same bytes.
* `Code.encode_of_walk`: a code that can be decoded is what it decodes to, encoded again.
* `Code.walk_encode`: decoding undoes encoding.
-/

namespace StackScript

/-! ### Operands that are written -/

/-- The last byte of an operand is its lowest one. -/
theorem encodeOperand_concat (width : Nat) (n : Int) :
    encodeOperand (width + 1) n = encodeOperand width (n / 256) ++ [(n % 256).toNat.toUInt8] := by
  induction width with
  | zero => simp [encodeOperand]
  | succ width ih =>
    have hhigh : n / 256 ^ (width + 1) = n / 256 / 256 ^ width := by
      rw [Int.ediv_ediv_of_nonneg (by decide), pow_succ']
    rw [encodeOperand_succ, ih, encodeOperand_succ, hhigh, List.cons_append]

/-- Only the low bytes of an integer are written. -/
theorem encodeOperand_emod (width : Nat) (n : Int) :
    encodeOperand width (n % 256 ^ width) = encodeOperand width n := by
  induction width generalizing n with
  | zero => rfl
  | succ width ih =>
    have hlow : n % 256 ^ (width + 1) % 256 = n % 256 :=
      Int.emod_emod_of_dvd n (dvd_pow_self 256 (Nat.succ_ne_zero width))
    have hhigh : n % 256 ^ (width + 1) / 256 = n / 256 % 256 ^ width := by
      rw [Int.emod_def, Int.emod_def (n / 256), Int.ediv_ediv_of_nonneg (by decide), ← pow_succ',
        pow_succ', mul_assoc]
      omega
    rw [encodeOperand_concat, encodeOperand_concat, hlow, hhigh, ih]

/-- What can be read back of operands: each modulo the numbers that its width holds. A missing one is
zero, and a surplus one is lost. -/
def keptOperands (widths : List Nat) (ns : List Int) : List Nat :=
  widths.mapIdx fun k width => (ns.getD k 0 % 256 ^ width).toNat

theorem keptOperands_cons (width : Nat) (widths : List Nat) (ns : List Int) :
    keptOperands (width :: widths) ns =
      (ns.headD 0 % 256 ^ width).toNat :: keptOperands widths ns.tail := by
  cases ns <;> simp [keptOperands, List.mapIdx_cons]

theorem encodeOperands_cons (width : Nat) (widths : List Nat) (ns : List Int) :
    encodeOperands (width :: widths) ns =
      encodeOperand width (ns.headD 0) ++ encodeOperands widths ns.tail := by
  cases ns <;> rfl

theorem ofNat_kept (width : Nat) (n : Int) :
    Int.ofNat (n % 256 ^ width).toNat = n % 256 ^ width :=
  Int.toNat_of_nonneg (Int.emod_nonneg n (pow_ne_zero width (by decide)))

theorem encodeOperands_kept (widths : List Nat) (ns : List Int) :
    encodeOperands widths ((keptOperands widths ns).map Int.ofNat) = encodeOperands widths ns := by
  induction widths generalizing ns with
  | nil => rfl
  | cons width widths ih =>
    rw [keptOperands_cons, List.map_cons, encodeOperands_cons, encodeOperands_cons,
      List.headD_cons, List.tail_cons, ih, ofNat_kept, encodeOperand_emod]

theorem natCast_maxOperand (width : Nat) : (maxOperand width : Int) = 256 ^ width - 1 := by
  rw [maxOperand, Nat.pow_eq, Nat.cast_sub (Nat.one_le_pow _ _ (by decide)), Nat.cast_pow]
  rfl

/-- An operand that its width can hold is kept as it is. -/
theorem kept_of_le {width : Nat} {n : Int} (hn : 0 ≤ n) (hmax : n ≤ maxOperand width) :
    n % 256 ^ width = n := by
  rw [natCast_maxOperand] at hmax
  exact Int.emod_eq_of_lt hn (Int.lt_of_le_sub_one hmax)

theorem keptOperands_fit (widths : List Nat) (ns : List Int) :
    List.Forall₂ (fun width n => n ≤ maxOperand width) widths (keptOperands widths ns) := by
  induction widths generalizing ns with
  | nil => exact .nil
  | cons width widths ih =>
    rw [keptOperands_cons]
    refine .cons ?_ (ih ns.tail)
    have hlt : ns.headD 0 % 256 ^ width < 256 ^ width :=
      Int.emod_lt_of_pos _ (pow_pos (by decide) width)
    rw [← ofNat_kept] at hlt
    rw [← Int.ofNat_le, natCast_maxOperand]
    exact Int.le_sub_one_of_lt hlt

/-! ### Operations with any operands -/

namespace Opcode

/-- No other byte is the operation. -/
theorem toByte_of_ofByte? {b : UInt8} {op : Opcode} (h : ofByte? b = some op) : op.toByte = b := by
  have htable : ∀ k : Fin table.size, table[k].toByte = k.val.toUInt8 := by decide
  obtain ⟨hlt, rfl⟩ := Array.getElem?_eq_some_iff.1 h
  exact (htable ⟨b.toNat, hlt⟩).trans b.ofNat_toNat

/-- What is kept of an operation with any integers as operands. -/
def kept (op : Opcode) (ns : List Int) : Instr := ⟨op, keptOperands op.widths ns⟩

theorem kept_fits (op : Opcode) (ns : List Int) : (op.kept ns).Fits := keptOperands_fit op.widths ns

/-- An operation and what is kept of it have the same bytes. -/
theorem encode_kept (op : Opcode) (ns : List Int) : (op.kept ns).encode = op.encode ns := by
  rw [Instr.encode, kept, encode, encode, encodeOperands_kept]

theorem getElem?_kept {op : Opcode} {ns : List Int} {k width : Nat} {n : Int}
    (hwidth : op.widths[k]? = some width) (hoperand : ns[k]? = some n) (hn : 0 ≤ n)
    (hmax : n ≤ maxOperand width) : (op.kept ns).operands[k]? = some n.toNat := by
  have hget : ns.getD k 0 = n := by rw [List.getD_eq_getElem?_getD, hoperand, Option.getD_some]
  rw [kept, keptOperands, List.getElem?_mapIdx, hwidth, Option.map_some, hget, kept_of_le hn hmax]

end Opcode

/-! ### Operands that are read -/

namespace Code

variable {code : Code} {offset : Nat}

/-- The byte at an offset is the first of those from there on. -/
theorem drop_eq_cons {b : UInt8} (h : code[offset]? = some b) :
    code.toList.drop offset = b :: code.toList.drop (offset + 1) := by
  obtain ⟨hlt, hget⟩ := List.getElem?_eq_some_iff.1 ((Array.getElem?_toList ..).trans h)
  rw [List.drop_eq_getElem_cons hlt, hget]

/-- An operand that is read is written with the bytes that were read. -/
theorem encodeOperand_of_read {width n : Nat} (h : code.readOperand offset width = some n) :
    encodeOperand width n ++ code.toList.drop (offset + width) = code.toList.drop offset := by
  induction width generalizing n with
  | zero => rfl
  | succ width ih =>
    obtain ⟨high, hhigh, h⟩ := Option.bind_eq_some_iff.1 h
    obtain ⟨low, hlow, h⟩ := Option.bind_eq_some_iff.1 h
    obtain rfl := Option.some.inj h
    have hlt : low.toNat < 256 := low.toNat_lt
    have hquot : ((256 * high + low.toNat : Nat) : Int) / 256 = high := by omega
    have hrem : (((256 * high + low.toNat : Nat) : Int) % 256).toNat = low.toNat := by omega
    rw [encodeOperand_concat, hquot, hrem, List.append_assoc, ← ih hhigh, drop_eq_cons hlow]
    simp [Nat.add_assoc]

theorem encodeOperands_of_read {widths ns : List Nat}
    (h : code.readOperands offset widths = some ns) :
    encodeOperands widths (ns.map Int.ofNat) ++
      code.toList.drop (offset + widths.foldr (· + ·) 0) = code.toList.drop offset := by
  induction widths generalizing offset ns with
  | nil =>
    obtain rfl := Option.some.inj h
    rfl
  | cons width widths ih =>
    obtain ⟨n, hn, h⟩ := Option.bind_eq_some_iff.1 h
    obtain ⟨ns, hns, h⟩ := Option.bind_eq_some_iff.1 h
    obtain rfl := Option.some.inj h
    rw [List.map_cons, encodeOperands, List.foldr_cons, ← Nat.add_assoc, List.append_assoc, ih hns]
    exact encodeOperand_of_read hn

/-- An instruction that is found is written with the bytes at its offset. -/
theorem encode_of_fetch {i : Instr} (h : code.fetch offset = some (.instr i)) :
    i.encode ++ code.toList.drop (offset + i.op.size) = code.toList.drop offset := by
  unfold fetch at h
  split at h
  · cases h
  next b hb =>
  split at h
  · cases h
  next op hop =>
  split at h
  · cases h
  next operands hoperands =>
  obtain rfl := Fetched.instr.inj (Option.some.inj h)
  have hbyte : op.toByte = b := Opcode.toByte_of_ofByte? hop
  rw [drop_eq_cons hb, ← encodeOperands_of_read hoperands, Instr.encode, Opcode.encode, hbyte,
    Opcode.size, Nat.add_assoc]
  rfl

/-! ### Walks -/

/-- Something stands at every offset inside the code. -/
theorem fetch_ne_none (h : offset < code.size) : code.fetch offset ≠ none := by
  unfold fetch
  rw [Array.getElem?_eq_getElem h]
  dsimp only
  split
  · exact Option.some_ne_none _
  · split <;> exact Option.some_ne_none _

/-- What was found before comes first. -/
theorem prefix_walkFrom (code : Code) (acc : List (Nat × Fetched)) (offset : Nat) :
    acc.reverse <+: code.walkFrom acc offset := by
  fun_induction walkFrom code acc offset with
  | case1 | case5 => exact List.prefix_rfl
  | case2 acc offset _ b _ ih | case4 acc offset _ i _ ih =>
    rw [List.reverse_cons] at ih
    exact (List.prefix_append _ _).trans ih
  | case3 acc offset _ op => simp

/-- The first of the instructions is what was found last. -/
theorem exists_found {acc items : List (Nat × Fetched)} {x : Nat × Fetched} {is : List (Nat × Instr)}
    (hstart : (x :: acc).reverse <+: items) (h : items = acc.reverse ++ is.map found) :
    ∃ p rest, is = p :: rest ∧ found p = x := by
  rw [h, List.reverse_cons, List.prefix_append_right_inj] at hstart
  cases is with
  | nil => simp at hstart
  | cons p rest => exact ⟨p, rest, rfl, by simpa [eq_comm] using hstart⟩

/-- Where nothing but instructions is found, these have the bytes from there on. -/
theorem encode_of_walkFrom (acc : List (Nat × Fetched)) {is : List (Nat × Instr)}
    (h : code.walkFrom acc offset = acc.reverse ++ is.map found) :
    (is.flatMap fun p => p.2.encode) = code.toList.drop offset := by
  fun_induction walkFrom code acc offset generalizing is with
  | case1 acc offset hlt hfetch => exact absurd hfetch (fetch_ne_none hlt)
  | case2 acc offset hlt b hfetch ih =>
    obtain ⟨p, rest, -, hp⟩ := exists_found (code.prefix_walkFrom _ _) h
    cases hp
  | case3 acc offset hlt op hfetch =>
    obtain ⟨p, rest, -, hp⟩ := exists_found List.prefix_rfl h
    cases hp
  | case4 acc offset hlt i hfetch ih =>
    obtain ⟨p, rest, rfl, hp⟩ := exists_found (code.prefix_walkFrom _ _) h
    obtain ⟨rfl, hi⟩ := Prod.mk.inj hp
    obtain rfl := Fetched.instr.inj hi
    have hrest : (rest.flatMap fun p => p.2.encode) =
        code.toList.drop (p.1 + p.2.op.size) :=
      ih (by simpa [found] using h)
    rw [List.flatMap_cons, hrest]
    exact encode_of_fetch hfetch
  | case5 acc offset hge =>
    have hnil : is = [] := by simpa using h
    have hend : code.toList.drop offset = [] := by simpa using hge
    rw [hnil, hend, List.flatMap_nil]

/-- A code that can be decoded is what it decodes to, encoded again. -/
theorem encode_of_walk {is : List (Nat × Instr)} (h : code.walk = is.map found) :
    (is.flatMap fun p => p.2.encode) = code.toList :=
  encode_of_walkFrom [] h

/-- Decoding undoes encoding. A walk through operations that were encoded with any integers as
operands finds what was kept of them at their offsets, and an operand that its width can hold is
kept as it is. A code in which a walk finds nothing but instructions is what these are encoded to. -/
theorem walk_encode :
    (∀ ops : List (Opcode × List Int),
      walk (ops.flatMap fun o => o.1.encode o.2).toArray =
        (located 0 (ops.map fun o => o.1.kept o.2)).map found) ∧
    (∀ (op : Opcode) (ns : List Int) (k width : Nat) (n : Int), op.widths[k]? = some width →
      ns[k]? = some n → 0 ≤ n → n ≤ maxOperand width → (op.kept ns).operands[k]? = some n.toNat) ∧
    ∀ (code : Code) (is : List (Nat × Instr)), code.walk = is.map found →
      (is.flatMap fun p => p.2.op.encode (p.2.operands.map Int.ofNat)) = code.toList := by
  refine ⟨?_, fun op ns k width n => Opcode.getElem?_kept, fun code is => encode_of_walk⟩
  intro ops
  have hfits : ∀ i ∈ ops.map fun o => o.1.kept o.2, i.Fits := by
    intro i hi
    obtain ⟨o, -, rfl⟩ := List.mem_map.1 hi
    exact o.1.kept_fits o.2
  rw [← walk_ofInstrs hfits, ofInstrs, List.flatMap_map]
  simp only [Opcode.encode_kept]

/-- A negative operand, one that is too large, a surplus one and a missing one; and two instructions
that are found in given bytes. -/
theorem walk_encode_wrapped :
    walk #[0, 255, 255, 29, 0, 7, 255, 24, 0, 0] =
      [(0, .instr ⟨.const, [65535]⟩), (3, .instr ⟨.closure, [7, 255]⟩), (7, .instr ⟨.jump, [0]⟩)] ∧
    (Opcode.closure.kept [65543, 255, 9]).operands[1]? = some 255 ∧
    (walk #[24, 1, 2, 5] = [(0, ⟨.jump, [258]⟩), (3, ⟨.add, []⟩)].map found ∧
      Opcode.jump.encode [258] ++ Opcode.add.encode [] = [24, 1, 2, 5]) := by
  have hkept : [Opcode.const.kept [-1], Opcode.closure.kept [65543, 255, 9], Opcode.jump.kept []] =
      [⟨.const, [65535]⟩, ⟨.closure, [7, 255]⟩, ⟨.jump, [0]⟩] := by
    decide
  have hbytes : Opcode.const.encode [-1] ++ (Opcode.closure.encode [65543, 255, 9] ++
      (Opcode.jump.encode [] ++ [])) = [0, 255, 255, 29, 0, 7, 255, 24, 0, 0] := by
    decide
  have hwrapped := walk_encode.1 [(.const, [-1]), (.closure, [65543, 255, 9]), (.jump, [])]
  simp only [List.map_cons, List.map_nil, List.flatMap_cons, List.flatMap_nil, hkept, hbytes]
    at hwrapped
  have hjump : walk #[24, 1, 2, 5] = [(0, ⟨.jump, [258]⟩), (3, ⟨.add, []⟩)].map found :=
    walk_encode.1 [(.jump, [258]), (.add, [])]
  exact ⟨hwrapped, walk_encode.2.1 .closure [65543, 255, 9] 1 1 255 rfl rfl (by decide) (by decide),
    hjump, walk_encode.2.2 #[24, 1, 2, 5] _ hjump⟩

end Code

end StackScript
