import StackScript.Proofs.Code.RoundTrip

/-!
# Reading any bytes as code

Any bytes are whole instructions and undefined bytes one after another, up to
their end or to an instruction whose operands reach past it. What is read is said
here of the bytes alone: an instruction has the bytes that it is encoded to, and
a byte that is no operation stands for itself. A walk through a code finds the
same, wherever the code comes from.

## Main definitions

* `Code.Row`: an instruction or an undefined byte, with its offset.
* `Code.Reads`: the rows that bytes are read as.
* `Code.EndsInside`: the bytes end inside the operands of an instruction.

## Main results

* `Code.walk_cases`: every code is read to its end or ends inside an instruction.
* `Code.Reads.not_endsInside`: never both.
-/

namespace StackScript

namespace Code

/-- What is read at an offset. -/
inductive Row
  /-- A whole instruction. -/
  | instr (offset : Nat) (i : Instr)
  /-- A byte that is no operation. -/
  | undefined (offset : Nat) (b : UInt8)
  deriving DecidableEq, Repr

/-- The bytes, the first of which has the offset, are read as the rows. -/
inductive Reads : Nat → Bytes → List Row → Prop
  | nil (offset : Nat) : Reads offset [] []
  | instr {offset : Nat} {i : Instr} {rest : Bytes} {rows : List Row} : i.Fits →
    Reads (offset + i.op.size) rest rows →
    Reads offset (i.encode ++ rest) (.instr offset i :: rows)
  | undefined {offset : Nat} {b : UInt8} {rest : Bytes} {rows : List Row} :
    Opcode.ofByte? b = none → Reads (offset + 1) rest rows →
    Reads offset (b :: rest) (.undefined offset b :: rows)

/-- The bytes are read up to an operation that has too few bytes after it for its operands. -/
def EndsInside (bytes : Bytes) : Prop :=
  ∃ rows whole op part, Reads 0 whole rows ∧ bytes = whole ++ Opcode.toByte op :: part ∧
    part.length + 1 < op.size

/-- A row as a walk finds it. -/
def Row.found : Row → Nat × Fetched
  | .instr offset i => (offset, .instr i)
  | .undefined offset b => (offset, .undefined b)

/-! ### Operands -/

variable {code : Code} {offset width : Nat}

/-- An operand is read wherever there are enough bytes. -/
theorem readOperand_isSome (h : offset + width ≤ code.size) :
    ∃ n, code.readOperand offset width = some n := by
  induction width with
  | zero => exact ⟨0, rfl⟩
  | succ width ih =>
    obtain ⟨high, hhigh⟩ := ih (by omega)
    have hlow : code[offset + width]? = some code[offset + width] := Array.getElem?_eq_getElem (by omega)
    exact ⟨256 * high + code[offset + width].toNat, by rw [readOperand, hhigh, hlow]; rfl⟩

theorem readOperands_isSome {widths : List Nat} (h : offset + widths.foldr (· + ·) 0 ≤ code.size) :
    ∃ ns, code.readOperands offset widths = some ns := by
  induction widths generalizing offset with
  | nil => exact ⟨[], rfl⟩
  | cons width widths ih =>
    rw [List.foldr_cons, ← Nat.add_assoc] at h
    obtain ⟨n, hn⟩ := readOperand_isSome (Nat.le_of_add_right_le h)
    obtain ⟨ns, hns⟩ := ih h
    exact ⟨n :: ns, by rw [readOperands, hn, hns]; rfl⟩

/-- An operand that is read fits in its width. -/
theorem readOperand_le {n : Nat} (h : code.readOperand offset width = some n) :
    n ≤ maxOperand width := by
  suffices hlt : n < 256 ^ width from Nat.le_sub_one_of_lt hlt
  induction width generalizing n with
  | zero =>
    obtain rfl := Option.some.inj h
    exact Nat.one_pos
  | succ width ih =>
    obtain ⟨high, hhigh, h⟩ := Option.bind_eq_some_iff.1 h
    obtain ⟨low, -, h⟩ := Option.bind_eq_some_iff.1 h
    obtain rfl := Option.some.inj h
    have hlow : low.toNat < 256 := low.toNat_lt
    have hlt := ih hhigh
    rw [Nat.pow_succ]
    omega

theorem readOperands_fit {widths ns : List Nat} (h : code.readOperands offset widths = some ns) :
    List.Forall₂ (fun width n => n ≤ maxOperand width) widths ns := by
  induction widths generalizing offset ns with
  | nil =>
    obtain rfl := Option.some.inj h
    exact .nil
  | cons width widths ih =>
    obtain ⟨n, hn, h⟩ := Option.bind_eq_some_iff.1 h
    obtain ⟨ns, hns, h⟩ := Option.bind_eq_some_iff.1 h
    obtain rfl := Option.some.inj h
    exact .cons (readOperand_le hn) (ih hns)

/-! ### What is found at an offset -/

theorem fits_of_fetch {i : Instr} (h : code.fetch offset = some (.instr i)) : i.Fits := by
  unfold fetch at h
  split at h
  · cases h
  split at h
  · cases h
  split at h
  · cases h
  next operands hoperands =>
  obtain rfl := Fetched.instr.inj (Option.some.inj h)
  exact readOperands_fit hoperands

/-- A truncated instruction has too few bytes after it. -/
theorem short_of_fetch {op : Opcode} (h : code.fetch offset = some (.truncated op)) :
    ∃ part, code.toList.drop offset = op.toByte :: part ∧ part.length + 1 < op.size := by
  unfold fetch at h
  split at h
  · cases h
  next b hb =>
  split at h
  · cases h
  next op' hop =>
  split at h
  swap
  · cases h
  next hoperands =>
  obtain rfl := Fetched.truncated.inj (Option.some.inj h)
  refine ⟨_, by rw [drop_eq_cons hb, Opcode.toByte_of_ofByte? hop], ?_⟩
  have hshort : code.size < offset + 1 + op'.widths.foldr (· + ·) 0 := by
    by_contra hle
    obtain ⟨ns, hns⟩ := readOperands_isSome (Nat.not_lt.1 hle)
    rw [hoperands] at hns
    cases hns
  rw [List.length_drop, Array.length_toList, Opcode.size]
  have hlt := (Array.getElem?_eq_some_iff.1 hb).1
  omega

theorem undefined_of_fetch {b : UInt8} (h : code.fetch offset = some (.undefined b)) :
    Opcode.ofByte? b = none ∧ code.toList.drop offset = b :: code.toList.drop (offset + 1) := by
  unfold fetch at h
  split at h
  · cases h
  next b' hb =>
  split at h
  · next hop =>
    obtain rfl := Fetched.undefined.inj (Option.some.inj h)
    exact ⟨hop, drop_eq_cons hb⟩
  · split at h <;> cases h

theorem getElem?_of_drop (bytes : Bytes) {rest : Bytes} (h : code.toList.drop offset = bytes ++ rest) {k : Nat}
    (hk : k < bytes.length) : code[offset + k]? = bytes[k]? := by
  rw [← Array.getElem?_toList, ← List.getElem?_drop, h, List.getElem?_append_left hk]

/-- An instruction is read where its bytes are. -/
theorem read_of_encode {i : Instr} {rest : Bytes} (hi : i.Fits)
    (h : code.toList.drop offset = i.encode ++ rest) :
    code[offset]? = some i.op.toByte ∧
      code.readOperands (offset + 1) i.op.widths = some i.operands := by
  have hlength : i.encode.length = i.op.size := i.length_encode
  have hpos := i.op.size_pos
  refine ⟨getElem?_of_drop _ h (k := 0) (by omega), readOperands_encode hi fun k hk => ?_⟩
  have hsize : 1 + k < i.encode.length := by
    rw [hlength, Opcode.size]
    omega
  rw [Nat.add_assoc, getElem?_of_drop _ h hsize, Nat.add_comm 1 k]
  rfl

theorem fetch_of_encode {i : Instr} {rest : Bytes} (hi : i.Fits)
    (h : code.toList.drop offset = i.encode ++ rest) : code.fetch offset = some (.instr i) := by
  obtain ⟨hop, hoperands⟩ := read_of_encode hi h
  rw [fetch, hop]
  simp only [Opcode.ofByte?_toByte, hoperands]

theorem drop_of_encode {i : Instr} {rest : Bytes} (h : code.toList.drop offset = i.encode ++ rest) :
    code.toList.drop (offset + i.op.size) = rest := by
  rw [← List.drop_drop, h, ← i.length_encode, List.drop_left]

/-- The operands of an operation with too few bytes after it are not read. -/
theorem read_of_short {op : Opcode} {part : Bytes}
    (h : code.toList.drop offset = op.toByte :: part) (hshort : part.length + 1 < op.size) :
    code[offset]? = some op.toByte ∧ code.readOperands (offset + 1) op.widths = none := by
  refine ⟨getElem?_of_drop [op.toByte] h (k := 0) Nat.one_pos, ?_⟩
  cases hread : code.readOperands (offset + 1) op.widths with
  | none => rfl
  | some ns =>
    have hlength := congrArg List.length (encodeOperands_of_read hread)
    have hpart := congrArg List.length h
    rw [Opcode.size] at hshort
    simp only [List.length_append, length_encodeOperands, List.length_drop, List.length_cons,
      Array.length_toList] at hlength hpart
    omega

theorem fetch_of_short {op : Opcode} {part : Bytes}
    (h : code.toList.drop offset = op.toByte :: part) (hshort : part.length + 1 < op.size) :
    code.fetch offset = some (.truncated op) := by
  obtain ⟨hop, hoperands⟩ := read_of_short h hshort
  rw [fetch, hop]
  simp only [Opcode.ofByte?_toByte, hoperands]

/-! ### Walks -/

/-- A walk finds the rows that the bytes are read as, and goes on after them. -/
theorem Reads.walkFrom {whole rest : Bytes} {rows : List Row} (h : Reads offset whole rows)
    (hcode : code.toList.drop offset = whole ++ rest) (acc : List (Nat × Fetched)) :
    code.walkFrom acc offset =
      code.walkFrom ((rows.map Row.found).reverse ++ acc) (offset + whole.length) := by
  -- What is found first is put deepest into the accumulator, so the rows are reversed there.
  induction h generalizing acc with
  | nil offset => rfl
  | @instr offset i whole rows hi hrest ih =>
    rw [List.append_assoc] at hcode
    have hfetch := fetch_of_encode hi hcode
    have hlt : offset < code.size := (Array.getElem?_eq_some_iff.1 (read_of_encode hi hcode).1).1
    rw [Code.walkFrom, dif_pos hlt, hfetch]
    simp only
    rw [ih (drop_of_encode hcode), List.length_append, i.length_encode, Nat.add_assoc,
      List.map_cons,
      List.reverse_cons, List.append_assoc]
    rfl
  | @undefined offset b whole rows hb hrest ih =>
    have hbyte : code[offset]? = some b :=
      getElem?_of_drop [b] hcode (k := 0) Nat.one_pos
    have hlt : offset < code.size := (Array.getElem?_eq_some_iff.1 hbyte).1
    have hfetch : code.fetch offset = some (.undefined b) := by
      rw [fetch, hbyte]
      simp only [hb]
    have hdrop : code.toList.drop (offset + 1) = whole ++ rest := by
      rw [← List.drop_drop, hcode]
      rfl
    rw [Code.walkFrom, dif_pos hlt, hfetch]
    simp only
    rw [ih hdrop, List.length_cons, Nat.add_assoc, Nat.add_comm 1, List.map_cons,
      List.reverse_cons, List.append_assoc]
    rfl

/-- A walk through bytes that are read to their end finds the rows. -/
theorem Reads.walk {rows : List Row} (h : Reads 0 code.toList rows) :
    code.walk = rows.map Row.found := by
  rw [Code.walk, h.walkFrom (List.append_nil _).symm, Code.walkFrom, dif_neg (by simp)]
  simp

/-- A walk from an offset finds rows, up to the end or to a truncated instruction. -/
theorem walkFrom_cases (code : Code) (acc : List (Nat × Fetched)) (offset : Nat) :
    (∃ rows, Reads offset (code.toList.drop offset) rows ∧
      code.walkFrom acc offset = acc.reverse ++ rows.map Row.found) ∨
    ∃ rows whole op part, Reads offset whole rows ∧
      code.toList.drop offset = whole ++ Opcode.toByte op :: part ∧ part.length + 1 < op.size ∧
      code.walkFrom acc offset =
        acc.reverse ++ (rows.map Row.found ++ [(offset + whole.length, .truncated op)]) := by
  fun_induction Code.walkFrom code acc offset with
  | case1 acc offset hlt hfetch => exact absurd hfetch (fetch_ne_none hlt)
  | case2 acc offset hlt b hfetch ih =>
    obtain ⟨hb, hdrop⟩ := undefined_of_fetch hfetch
    rw [hdrop]
    obtain ⟨rows, hrows, hwalk⟩ | ⟨rows, whole, op, part, hrows, hrest, hshort, hwalk⟩ := ih
    · exact .inl ⟨_, .undefined hb hrows, by rw [hwalk]; simp [Row.found]⟩
    · refine .inr ⟨_, _, op, part, .undefined hb hrows, by rw [hrest]; rfl, hshort, ?_⟩
      rw [hwalk]
      simp [Row.found, Nat.add_assoc, Nat.add_comm 1]
  | case3 acc offset hlt op hfetch =>
    obtain ⟨part, hdrop, hshort⟩ := short_of_fetch hfetch
    exact .inr ⟨[], [], op, part, .nil offset, hdrop, hshort, by simp⟩
  | case4 acc offset hlt i hfetch ih =>
    have hdrop := (encode_of_fetch hfetch).symm
    rw [hdrop]
    obtain ⟨rows, hrows, hwalk⟩ | ⟨rows, whole, op, part, hrows, hrest, hshort, hwalk⟩ := ih
    · exact .inl ⟨_, .instr (fits_of_fetch hfetch) hrows, by rw [hwalk]; simp [Row.found]⟩
    · refine .inr ⟨_, _, op, part, .instr (fits_of_fetch hfetch) hrows,
        by rw [hrest, List.append_assoc], hshort, ?_⟩
      rw [hwalk]
      simp [Row.found, Nat.add_assoc]
  | case5 acc offset hge =>
    have hend : code.toList.drop offset = [] := by simpa using hge
    exact .inl ⟨[], by rw [hend]; exact .nil offset, by simp⟩

/-- Every code is read to its end, or it ends inside an instruction. -/
theorem walk_cases (code : Code) :
    (∃ rows, Reads 0 code.toList rows ∧ code.walk = rows.map Row.found) ∨
    EndsInside code.toList ∧ ∃ rows : List Row, ∃ offset op,
      code.walk = rows.map Row.found ++ [(offset, .truncated op)] := by
  obtain ⟨rows, hrows, hwalk⟩ | ⟨rows, whole, op, part, hrows, hcode, hshort, hwalk⟩ :=
    walkFrom_cases code [] 0
  · exact .inl ⟨rows, hrows, hwalk⟩
  · exact .inr ⟨⟨rows, whole, op, part, hrows, hcode, hshort⟩, rows, _, op, hwalk⟩

/-- A code that is read to its end does not end inside an instruction. -/
theorem Reads.not_endsInside {bytes : Bytes} {rows : List Row} (h : Reads 0 bytes rows) :
    ¬EndsInside bytes := by
  rintro ⟨rows', whole, op, part, hrows', rfl, hshort⟩
  have hwalk : Code.walk (whole ++ op.toByte :: part).toArray = rows.map Row.found := Reads.walk h
  rw [Code.walk, hrows'.walkFrom rfl, Nat.zero_add, Code.walkFrom,
    dif_pos (by simp), fetch_of_short (List.drop_left ..) hshort] at hwalk
  have hmem : (whole.length, Fetched.truncated op) ∈ rows.map Row.found := by
    rw [← hwalk]
    simp
  obtain ⟨row, -, hrow⟩ := List.mem_map.1 hmem
  cases row <;> cases hrow

end Code

end StackScript
