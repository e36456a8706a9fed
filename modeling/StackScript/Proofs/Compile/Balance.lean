import StackScript.Proofs.Compile.Scheme
import StackScript.Proofs.Tree.Induction

/-!
# The depth of the stack in compiled code

Every instruction takes values from the stack and gives values back. In the code
of an expression each offset has one depth, on whatever path it is reached, and
the depth at the end is one more than at the start. A statement ends at the depth
at which it starts. An instruction that does not go on to the next one leaves the
depth after it open, which is why a branch that ends in a return fits its
sibling.

Jumps go forward, to an instruction or to the end of the stretch that they
belong to; those of a statement never go to its end.

## Main definitions

* `Instr.Flows`: an instruction agrees with the depths around it.
* `Balanced`, `Settled`: a stretch of code has a depth at each offset.

## Main results

* `tree_balanced`: expressions and statements are balanced.
-/

namespace StackScript

namespace Instr

/-- The number of values that the instruction takes from the stack. -/
def takes (i : Instr) : Nat :=
  match i.op, i.operands with
  | .pop, _ | .neg, _ | .not, _ | .setGlobal, _ | .setLocal, _ | .jumpIfFalse, _
  | .returnValue, _ => 1
  | .add, _ | .sub, _ | .mul, _ | .div, _ | .equal, _ | .notEqual, _ | .greater, _
  | .index, _ => 2
  | .array, [n] => n
  | .hash, [n] => 2 * n
  | .call, [n] => n + 1
  | .closure, [_, n] => n
  | _, _ => 0

/-- The number of values that the instruction gives to the stack, those that a call returns
included. -/
def gives (i : Instr) : Nat :=
  match i.op with
  | .pop | .setGlobal | .setLocal | .jump | .jumpIfFalse | .returnValue | .ret => 0
  | _ => 1

theorem gives_le (i : Instr) : i.gives ≤ 1 := by
  unfold gives
  split <;> decide

/-- The next instruction may be executed after this one. -/
def Falls (i : Instr) : Prop := i.op ≠ .jump ∧ i.op ≠ .returnValue ∧ i.op ≠ .ret

/-- Where the instruction may jump to. -/
def target? (i : Instr) : Option Nat :=
  match i.op, i.operands with
  | .jump, [t] | .jumpIfFalse, [t] => some t
  | _, _ => none

/-- The instruction finds the values it takes, and the depth is right wherever it goes on. -/
structure Flows (depth : Nat → Nat) (landing : Nat → Prop) (offset : Nat) (i : Instr) : Prop where
  takes : i.takes ≤ depth offset
  falls : i.Falls → depth (offset + i.op.size) = depth offset - i.takes + i.gives
  jumps : ∀ t, i.target? = some t → offset < t ∧ landing t ∧ depth t = depth offset - i.takes

end Instr

open Instr

/-- All instructions of a stretch agree with the depths. -/
def Flowing (depth : Nat → Nat) (landing : Nat → Prop) (offset : Nat) (seg : List Instr) : Prop :=
  ∀ before i after, seg = before ++ i :: after → i.Flows depth landing (offset + bytes before)

namespace Flowing

variable {depth depth' : Nat → Nat} {landing landing' : Nat → Prop} {offset : Nat}
  {s t : List Instr}

theorem nil : Flowing depth landing offset [] := by
  intro before i after h
  simp at h

theorem one {i : Instr} (h : i.Flows depth landing offset) : Flowing depth landing offset [i] := by
  intro before j after heq
  obtain ⟨rfl, rfl, rfl⟩ : before = [] ∧ j = i ∧ after = [] := by
    cases before <;> simp_all
  exact h

theorem append (hs : Flowing depth landing offset s)
    (ht : Flowing depth landing (offset + bytes s) t) : Flowing depth landing offset (s ++ t) := by
  intro before i after heq
  rcases List.append_eq_append_iff.1 heq with ⟨mid, rfl, hrest⟩ | ⟨mid, rfl, hrest⟩
  · rw [bytes_append, ← Nat.add_assoc]
    exact ht mid i after hrest
  · cases mid with
    | nil =>
      rw [List.append_nil] at *
      exact ht [] i after hrest.symm
    | cons j mid =>
      obtain ⟨rfl, -⟩ := List.cons.inj hrest
      exact hs before i mid rfl

theorem left (h : Flowing depth landing offset (s ++ t)) : Flowing depth landing offset s := by
  rintro before i after rfl
  exact h before i (after ++ t) (by simp)

theorem right (h : Flowing depth landing offset (s ++ t)) :
    Flowing depth landing (offset + bytes s) t := by
  rintro before i after rfl
  have := h (s ++ before) i after (by simp)
  rwa [bytes_append, ← Nat.add_assoc] at this

/-- Only the depths in the stretch matter if no jump leaves it. -/
theorem congr (h : Flowing depth landing offset s)
    (hdepth : ∀ x, offset ≤ x → x ≤ offset + bytes s → depth' x = depth x)
    (hlanding : ∀ x, landing x → landing' x ∧ offset ≤ x ∧ x ≤ offset + bytes s) :
    Flowing depth' landing' offset s := by
  rintro before i after rfl
  obtain ⟨htakes, hfalls, hjumps⟩ := h before i after rfl
  simp only [bytes_append, bytes_cons] at hdepth hlanding
  have hhere : depth' (offset + bytes before) = depth (offset + bytes before) :=
    hdepth _ (by omega) (by omega)
  have hnext : depth' (offset + bytes before + i.op.size) = depth (offset + bytes before + i.op.size) :=
    hdepth _ (by omega) (by omega)
  refine ⟨by rw [hhere]; exact htakes, ?_, ?_⟩
  · intro hi
    rw [hhere, hnext, hfalls hi]
  · intro x hx
    obtain ⟨hlt, hland, hdx⟩ := hjumps x hx
    obtain ⟨hland', hlo, hhi⟩ := hlanding x hland
    exact ⟨hlt, hland', by rw [hhere, hdepth x hlo hhi, hdx]⟩

end Flowing

/-- The offset of an instruction of the stretch, or its end. -/
def Lands (offset : Nat) (seg : List Instr) (t : Nat) : Prop :=
  ∃ s u, seg = s ++ u ∧ t = offset + bytes s

/-- The offset of an instruction of the stretch. -/
def LandsInside (offset : Nat) (seg : List Instr) (t : Nat) : Prop :=
  ∃ s i u, seg = s ++ i :: u ∧ t = offset + bytes s

theorem Lands.bounds {offset : Nat} {seg : List Instr} {t : Nat} (h : Lands offset seg t) :
    offset ≤ t ∧ t ≤ offset + bytes seg := by
  obtain ⟨s, u, rfl, rfl⟩ := h
  rw [bytes_append]
  omega

theorem LandsInside.lands {offset : Nat} {seg : List Instr} {t : Nat} (h : LandsInside offset seg t) :
    Lands offset seg t := by
  obtain ⟨s, i, u, rfl, rfl⟩ := h
  exact ⟨s, i :: u, rfl, rfl⟩

theorem LandsInside.lt {offset : Nat} {seg : List Instr} {t : Nat} (h : LandsInside offset seg t) :
    t < offset + bytes seg := by
  obtain ⟨s, i, u, rfl, rfl⟩ := h
  have := i.op.size_pos
  rw [bytes_append, bytes_cons]
  omega

/-- Where one may land in a part, one may land in the whole. -/
theorem Lands.extend {offset t : Nat} {seg : List Instr} (before after : List Instr)
    (h : Lands (offset + bytes before) seg t) : Lands offset (before ++ (seg ++ after)) t := by
  obtain ⟨s, u, rfl, rfl⟩ := h
  exact ⟨before ++ s, u ++ after, by simp, by simp [Nat.add_assoc]⟩

theorem LandsInside.extend {offset t : Nat} {seg : List Instr} (before after : List Instr)
    (h : LandsInside (offset + bytes before) seg t) :
    LandsInside offset (before ++ (seg ++ after)) t := by
  obtain ⟨s, i, u, rfl, rfl⟩ := h
  exact ⟨before ++ s, i, u ++ after, by simp, by simp [Nat.add_assoc]⟩

/-- The end of a stretch is the start of what follows it. -/
theorem Lands.inside {offset t : Nat} {seg : List Instr} (h : Lands offset seg t) (i : Instr) :
    LandsInside offset (seg ++ [i]) t := by
  obtain ⟨s, u, rfl, rfl⟩ := h
  cases u with
  | nil => exact ⟨s, i, [], by simp, rfl⟩
  | cons j u => exact ⟨s, j, u ++ [i], by simp, rfl⟩

theorem LandsInside.of_concat {offset t : Nat} {seg : List Instr} {i : Instr}
    (h : LandsInside offset (seg ++ [i]) t) : Lands offset seg t := by
  obtain ⟨s, j, u, heq, rfl⟩ := h
  rcases List.append_eq_append_iff.1 heq with ⟨w, rfl, hw⟩ | ⟨w, rfl, -⟩
  · obtain rfl : w = [] := by cases w <;> simp_all
    exact ⟨seg, [], by simp, by simp⟩
  · exact ⟨s, w, rfl, rfl⟩

/-- The stretch takes the stack from one depth to another, with a depth at each offset. -/
def Balanced (offset : Nat) (seg : List Instr) (d d' : Nat) : Prop :=
  ∃ depth : Nat → Nat, depth offset = d ∧ depth (offset + bytes seg) = d' ∧
    Flowing depth (Lands offset seg) offset seg

/-- A balanced stretch in which no jump goes to the end. -/
def Settled (offset : Nat) (seg : List Instr) (d d' : Nat) : Prop :=
  ∃ depth : Nat → Nat, depth offset = d ∧ depth (offset + bytes seg) = d' ∧
    Flowing depth (LandsInside offset seg) offset seg

/-! ### Building balanced stretches -/

namespace Balanced

variable {offset d d' d'' : Nat} {s t : List Instr} {i : Instr}

theorem nil : Balanced offset [] d d := ⟨fun _ => d, rfl, rfl, .nil⟩

/-- An instruction that goes on to the next one only. -/
theorem one (htarget : i.target? = none) (htakes : i.takes ≤ d) (hd : d' = d - i.takes + i.gives) :
    Balanced offset [i] d d' := by
  have hsize : i.op.size ≠ 0 := Nat.ne_of_gt i.op.size_pos
  refine ⟨fun x => if x = offset then d else d', if_pos rfl, by simp [hsize], .one ?_⟩
  refine ⟨by simpa using htakes, ?_, ?_⟩
  · intro _
    simp [hsize, hd]
  · intro t ht
    rw [htarget] at ht
    cases ht

/-- Two depth functions that agree where the stretches meet. -/
private def glue (mid : Nat) (before after : Nat → Nat) (x : Nat) : Nat :=
  if x < mid then before x else after x

private theorem glue_before {mid : Nat} {before after : Nat → Nat} (h : before mid = after mid)
    {x : Nat} (hx : x ≤ mid) : glue mid before after x = before x := by
  rcases Nat.lt_or_eq_of_le hx with hlt | rfl
  · exact if_pos hlt
  · rw [glue, if_neg (Nat.lt_irrefl x), h]

private theorem glue_after {mid : Nat} {before after : Nat → Nat} {x : Nat} (hx : mid ≤ x) :
    glue mid before after x = after x :=
  if_neg (Nat.not_lt.2 hx)

/-- Stretches one after the other, where the jumps of each stay in it. -/
private theorem glue_flowing {depth depth' : Nat → Nat} {landing landing₁ landing₂ : Nat → Prop}
    (hmid : depth (offset + bytes s) = depth' (offset + bytes s))
    (hs : Flowing depth landing₁ offset s) (ht : Flowing depth' landing₂ (offset + bytes s) t)
    (h₁ : ∀ x, landing₁ x → landing x ∧ offset ≤ x ∧ x ≤ offset + bytes s)
    (h₂ : ∀ x, landing₂ x → landing x ∧ offset + bytes s ≤ x ∧ x ≤ offset + bytes s + bytes t) :
    Flowing (glue (offset + bytes s) depth depth') landing offset (s ++ t) := by
  refine (hs.congr ?_ h₁).append (ht.congr ?_ h₂)
  · intro x _ hx
    exact glue_before hmid hx
  · intro x hx _
    exact glue_after hx

theorem append (hs : Balanced offset s d d') (ht : Balanced (offset + bytes s) t d' d'') :
    Balanced offset (s ++ t) d d'' := by
  obtain ⟨depth, rfl, hmid, hflow⟩ := hs
  obtain ⟨depth', hmid', rfl, hflow'⟩ := ht
  have hsame := hmid.trans hmid'.symm
  refine ⟨glue (offset + bytes s) depth depth', glue_before hsame (by omega), ?_,
    glue_flowing hsame hflow hflow' ?_ ?_⟩
  · rw [bytes_append, ← Nat.add_assoc]
    exact glue_after (by omega)
  · intro x hx
    exact ⟨hx.extend [] t, hx.bounds⟩
  · intro x hx
    exact ⟨by simpa using hx.extend s [], hx.bounds⟩

end Balanced

namespace Settled

variable {offset d d' d'' : Nat} {s t : List Instr} {i : Instr}

theorem nil : Settled offset [] d d := ⟨fun _ => d, rfl, rfl, .nil⟩

theorem balanced (h : Settled offset s d d') : Balanced offset s d d' := by
  obtain ⟨depth, hstart, hend, hflow⟩ := h
  exact ⟨depth, hstart, hend, hflow.congr (fun _ _ _ => rfl) fun x hx => ⟨hx.lands, hx.lands.bounds⟩⟩

theorem append (hs : Settled offset s d d') (ht : Settled (offset + bytes s) t d' d'') :
    Settled offset (s ++ t) d d'' := by
  obtain ⟨depth, rfl, hmid, hflow⟩ := hs
  obtain ⟨depth', hmid', rfl, hflow'⟩ := ht
  have hsame := hmid.trans hmid'.symm
  refine ⟨Balanced.glue (offset + bytes s) depth depth', Balanced.glue_before hsame (by omega), ?_,
    Balanced.glue_flowing hsame hflow hflow' ?_ ?_⟩
  · rw [bytes_append, ← Nat.add_assoc]
    exact Balanced.glue_after (by omega)
  · intro x hx
    exact ⟨hx.extend [] t, hx.lands.bounds⟩
  · intro x hx
    exact ⟨by simpa using hx.extend s [], hx.lands.bounds⟩

/-- A balanced stretch is settled by an instruction after it that does not jump. The depth after it
is free if it does not go on. -/
theorem snoc (hs : Balanced offset s d d') (htarget : i.target? = none) (htakes : i.takes ≤ d')
    (hd : i.Falls → d'' = d' - i.takes + i.gives) : Settled offset (s ++ [i]) d d'' := by
  obtain ⟨depth, rfl, rfl, hflow⟩ := hs
  have hsize := i.op.size_pos
  refine ⟨Balanced.glue (offset + bytes s + 1) depth fun _ => d'', ?_, ?_, ?_⟩
  · exact if_pos (by omega)
  · rw [bytes_append, bytes_cons, bytes_nil]
    exact if_neg (by omega)
  refine (hflow.congr ?_ ?_).append (.one ⟨?_, ?_, ?_⟩)
  · intro x _ hx
    exact if_pos (by omega)
  · intro x hx
    exact ⟨hx.inside i, hx.bounds⟩
  · rw [Balanced.glue, if_pos (by omega)]
    exact htakes
  · intro hfalls
    rw [Balanced.glue, Balanced.glue, if_neg (by omega), if_pos (by omega), hd hfalls]
  · intro t ht
    rw [htarget] at ht
    cases ht

end Settled

/-- The two branches of a condition start and end at the same depth. -/
theorem Balanced.cond {offset d yesAt elseAt endAt : Nat} {s t u : List Instr}
    (hs : Balanced offset s d (d + 1)) (ht : Balanced yesAt t d (d + 1))
    (hu : Balanced elseAt u d (d + 1))
    (hyesAt : yesAt = offset + bytes s + Opcode.jumpIfFalse.size)
    (helseAt : elseAt = yesAt + bytes t + Opcode.jump.size) (hendAt : endAt = elseAt + bytes u) :
    Balanced offset (s ++ ⟨.jumpIfFalse, [elseAt]⟩ :: (t ++ ⟨.jump, [endAt]⟩ :: u)) d (d + 1) := by
  have hsize : Opcode.jumpIfFalse.size = 3 := rfl
  have hsize' : Opcode.jump.size = 3 := rfl
  rw [hsize] at hyesAt
  rw [hsize'] at helseAt
  obtain ⟨depth₁, hs₀, hs₁, hflow₁⟩ := hs
  obtain ⟨depth₂, ht₀, ht₁, hflow₂⟩ := ht
  obtain ⟨depth₃, hu₀, hu₁, hflow₃⟩ := hu
  -- Each part keeps its own depths; a jump belongs to the part before it.
  obtain ⟨depth, h₁, h₂, h₃⟩ : ∃ depth : Nat → Nat,
      (∀ x ≤ offset + bytes s, depth x = depth₁ x) ∧
      (∀ x, yesAt ≤ x → x ≤ yesAt + bytes t → depth x = depth₂ x) ∧
      ∀ x, elseAt ≤ x → depth x = depth₃ x := by
    refine ⟨glue yesAt depth₁ (glue elseAt depth₂ depth₃), ?_, ?_, ?_⟩
    · intro x hx
      exact if_pos (by omega)
    · intro x hx hx'
      rw [glue_after hx]
      exact if_pos (by omega)
    · intro x hx
      rw [glue_after (by omega), glue_after hx]
  have htest : depth (offset + bytes s) = d + 1 := (h₁ _ (Nat.le_refl _)).trans hs₁
  have hyes : depth yesAt = d := (h₂ _ (Nat.le_refl _) (by omega)).trans ht₀
  have hyes' : depth (yesAt + bytes t) = d + 1 := (h₂ _ (by omega) (Nat.le_refl _)).trans ht₁
  have hno : depth elseAt = d := (h₃ _ (Nat.le_refl _)).trans hu₀
  have hno' : depth endAt = d + 1 := (h₃ _ (by omega)).trans (hendAt ▸ hu₁)
  have hat : offset + bytes (s ++ [⟨.jumpIfFalse, [elseAt]⟩]) = yesAt := by
    simp [hsize, hyesAt, Nat.add_assoc]
  have hat' : offset + bytes (s ++ ⟨.jumpIfFalse, [elseAt]⟩ :: (t ++ [⟨.jump, [endAt]⟩])) =
      elseAt := by
    simp only [bytes_append, bytes_cons, bytes_nil, hsize, hsize']
    omega
  have hend : offset + bytes (s ++ ⟨.jumpIfFalse, [elseAt]⟩ :: (t ++ ⟨.jump, [endAt]⟩ :: u)) =
      endAt := by
    simp only [bytes_append, bytes_cons, hsize, hsize']
    omega
  refine ⟨depth, (h₁ _ (by omega)).trans hs₀, by rw [hend, hno'], ?_⟩
  refine .append (t := [_] ++ (t ++ ([_] ++ u))) (hflow₁.congr ?_ ?_) (.append (.one ⟨?_, ?_, ?_⟩)
    (.append ?_ (.append (.one ⟨Nat.zero_le _, ?_, ?_⟩) ?_)))
  · intro x _ hx
    exact h₁ x hx
  · intro x hx
    exact ⟨hx.extend [] _, hx.bounds⟩
  · rw [htest]
    exact Nat.le_add_left 1 d
  · intro _
    rw [htest, hsize, ← hyesAt, hyes]
    rfl
  · intro x hx
    obtain rfl : elseAt = x := by simpa [target?] using hx
    refine ⟨by omega, ⟨s ++ ⟨.jumpIfFalse, [elseAt]⟩ :: (t ++ [⟨.jump, [endAt]⟩]), u, by simp,
      hat'.symm⟩, ?_⟩
    rw [htest, hno]
    rfl
  · rw [Nat.add_assoc, ← bytes_append, hat]
    refine hflow₂.congr h₂ fun x hx => ⟨?_, hx.bounds⟩
    rw [← hat] at hx
    simpa using hx.extend _ (⟨.jump, [endAt]⟩ :: u)
  · intro hfalls
    exact absurd rfl hfalls.1
  · intro x hx
    obtain rfl : endAt = x := by simpa [target?] using hx
    rw [Nat.add_assoc offset, ← bytes_append, hat]
    refine ⟨by omega, ⟨_, [], (List.append_nil _).symm, hend.symm⟩, ?_⟩
    rw [hyes', hno']
    rfl
  · have hlast : offset + bytes s + bytes [⟨.jumpIfFalse, [elseAt]⟩] + bytes t +
        bytes [⟨.jump, [endAt]⟩] = elseAt := by
      simp only [bytes_cons, bytes_nil, hsize, hsize']
      omega
    rw [hlast]
    refine hflow₃.congr (fun x hx _ => h₃ x hx) fun x hx => ⟨?_, hx.bounds⟩
    rw [← hat'] at hx
    simpa using hx.extend _ []

/-! ### The ends of branches and bodies -/

namespace Settled

variable {offset d d' : Nat} {s : List Instr} {i : Instr}

/-- Without its last pop a stretch keeps one value more. -/
theorem dropPop (h : Settled offset (s ++ [i]) d d') (hi : i.op = .pop) :
    Balanced offset s d (d' + 1) := by
  obtain ⟨depth, hstart, hend, hflow⟩ := h
  obtain ⟨htakes, hfalls, -⟩ := hflow.right [] i [] rfl
  have htakes' : i.takes = 1 := by simp [takes, hi]
  have hgives : i.gives = 0 := by simp [gives, hi]
  have hnext := hfalls (by simp [Falls, hi])
  rw [htakes'] at htakes hnext
  rw [hgives] at hnext
  rw [bytes_append, bytes_cons, bytes_nil, Nat.add_zero, ← Nat.add_assoc] at hend
  simp only [bytes_nil, Nat.add_zero] at htakes hnext
  refine ⟨depth, hstart, by omega, hflow.left.congr (fun _ _ _ => rfl) ?_⟩
  intro x hx
  exact ⟨hx.of_concat, hx.of_concat.bounds⟩

/-- The depth after a last return may be any. -/
theorem afterReturn (h : Settled offset (s ++ [i]) d d') (hi : i.Returns) (d'' : Nat) :
    Settled offset (s ++ [i]) d d'' := by
  obtain ⟨depth, hstart, -, hflow⟩ := h
  have hend : offset + bytes (s ++ [i]) = offset + bytes s + i.op.size := by
    simp [Nat.add_assoc]
  have hsize := i.op.size_pos
  have hstay : i.target? = none ∧ ¬ i.Falls := by
    rcases hi with hi | hi <;> simp [target?, Falls, hi]
  refine ⟨fun x => if x = offset + bytes (s ++ [i]) then d'' else depth x, ?_, if_pos rfl, ?_⟩
  · exact (if_neg (by omega)).trans hstart
  rintro before j after heq
  obtain ⟨htakes, hfalls, hjumps⟩ := hflow before j after heq
  have hbytes : bytes (s ++ [i]) = bytes before + (j.op.size + bytes after) := by
    rw [heq, bytes_append, bytes_cons]
  have hjsize := j.op.size_pos
  have hhere : offset + bytes before ≠ offset + bytes (s ++ [i]) := by omega
  refine ⟨by rwa [if_neg hhere], ?_, ?_⟩
  · intro hj
    rw [if_neg hhere]
    rw [if_neg, hfalls hj]
    intro hlast
    have hafter : bytes after = 0 := by omega
    obtain rfl : after = [] := by
      cases after with
      | nil => rfl
      | cons k after =>
        have := k.op.size_pos
        rw [bytes_cons] at hafter
        omega
    obtain ⟨-, hij⟩ := List.append_inj' heq rfl
    obtain rfl : i = j := by simpa using hij
    exact hstay.2 hj
  · intro t ht
    obtain ⟨hlt, hland, hdepth⟩ := hjumps t ht
    refine ⟨hlt, hland, ?_⟩
    rw [if_neg (Nat.ne_of_lt hland.lt), if_neg hhere, hdepth]

/-- A branch leaves one value. -/
theorem keepValue (h : Settled offset s d d) : Balanced offset (Instr.keepValue s) d (d + 1) := by
  rcases List.eq_nil_or_concat s with rfl | ⟨s, i, rfl⟩
  · exact .one rfl (Nat.zero_le d) rfl
  · rw [List.concat_eq_append] at h ⊢
    simp only [Instr.keepValue, List.getLast?_append, List.getLast?_singleton, Option.some_or]
    split
    · next hpop =>
      rw [List.dropLast_concat]
      exact h.dropPop hpop
    · split
      · next hret => exact (h.afterReturn hret (d + 1)).balanced
      · exact h.balanced.append (.one rfl (Nat.zero_le d) rfl)

/-- A function's body ends in a return, and at its start nothing is on the stack. -/
theorem close (h : Settled offset s d d) : Settled offset (Instr.close s) d d := by
  rcases List.eq_nil_or_concat s with rfl | ⟨s, i, rfl⟩
  · exact snoc (s := []) .nil rfl (Nat.zero_le d) fun h => absurd rfl h.2.2
  · rw [List.concat_eq_append] at h ⊢
    simp only [Instr.close, List.getLast?_append, List.getLast?_singleton, Option.some_or]
    split
    · next hpop =>
      rw [List.dropLast_concat]
      exact snoc (h.dropPop hpop) rfl (Nat.le_add_left 1 d) fun h => absurd rfl h.2.1
    · split
      · exact h
      · exact snoc h.balanced rfl (Nat.zero_le d) fun h => absurd rfl h.2.2

end Settled

/-- The code of a function ends in a return. -/
theorem Instr.close_ends (s : List Instr) : ∃ t i, Instr.close s = t ++ [i] ∧ i.Returns := by
  rcases List.eq_nil_or_concat s with rfl | ⟨s, i, rfl⟩
  · exact ⟨[], _, rfl, .inr rfl⟩
  · rw [List.concat_eq_append]
    simp only [Instr.close, List.getLast?_append, List.getLast?_singleton, Option.some_or]
    split
    · exact ⟨_, _, rfl, .inl rfl⟩
    · split
      · next hret => exact ⟨s, i, rfl, hret⟩
      · exact ⟨_, _, rfl, .inr rfl⟩

/-! ### The scheme -/

namespace Emission

/-- Whatever is emitted leaves `n` more values on the stack. -/
def Leaves (p : Emission) (n : Nat) : Prop :=
  ∀ offset σ seg σ', p offset σ seg σ' → ∀ d, Balanced offset seg d (d + n)

/-- Whatever is emitted leaves the stack as it was, and no jump goes to its end. -/
def Settles (p : Emission) : Prop :=
  ∀ offset σ seg σ', p offset σ seg σ' → ∀ d, Settled offset seg d d

variable {p q r : Emission} {m n : Nat}

theorem Leaves.seq (hp : p.Leaves m) (hq : q.Leaves n) : (p.seq q).Leaves (m + n) := by
  rintro offset σ _ σ' ⟨s, τ, t, hs, ht, rfl⟩ d
  rw [← Nat.add_assoc]
  exact (hp _ _ _ _ hs d).append (hq _ _ _ _ ht (d + m))

theorem seq_assoc (p q r : Emission) : (p.seq q).seq r = p.seq (q.seq r) := by
  funext offset σ seg σ'
  apply propext
  constructor
  · rintro ⟨_, τ, u, ⟨s, τ', t, hs, ht, rfl⟩, hu, rfl⟩
    rw [bytes_append, ← Nat.add_assoc] at hu
    exact ⟨s, τ', t ++ u, hs, ⟨t, τ, u, ht, hu, rfl⟩, List.append_assoc s t u⟩
  · rintro ⟨s, τ, _, hs, ⟨t, τ', u, ht, hu, rfl⟩, rfl⟩
    rw [Nat.add_assoc, ← bytes_append] at hu
    exact ⟨s ++ t, τ', u, ⟨s, τ, t, hs, ht, rfl⟩, hu, (List.append_assoc s t u).symm⟩

theorem nothing_seq (p : Emission) : nothing.seq p = p := by
  funext offset σ seg σ'
  apply propext
  constructor
  · rintro ⟨_, _, t, ⟨rfl, rfl⟩, ht, rfl⟩
    exact ht
  · intro hp
    exact ⟨[], σ, seg, ⟨rfl, rfl⟩, hp, rfl⟩

theorem all_append (ps qs : List Emission) : all (ps ++ qs) = (all ps).seq (all qs) := by
  induction ps with
  | nil => exact (nothing_seq _).symm
  | cons p ps ih =>
    change p.seq (all (ps ++ qs)) = (p.seq (all ps)).seq (all qs)
    rw [ih, seq_assoc]

/-- An instruction after what it takes. -/
theorem Leaves.operate (hp : p.Leaves n) {i : Instr} (htarget : i.target? = none)
    (htakes : i.takes = n) (hgives : i.gives = 1) : (p.seq (.one i)).Leaves 1 := by
  rintro offset σ _ σ' ⟨s, τ, t, hs, ⟨rfl, -⟩, rfl⟩ d
  refine (hp _ _ _ _ hs d).append (.one htarget (by omega) ?_)
  rw [htakes, hgives, Nat.add_sub_cancel]

theorem Leaves.operator (hp : p.Leaves n) {op : Option Opcode}
    (hop : ∀ code ∈ op, (⟨code, []⟩ : Instr).target? = none ∧ (⟨code, []⟩ : Instr).takes = n ∧
      (⟨code, []⟩ : Instr).gives = 1) : (p.seq (.operator op)).Leaves 1 := by
  rintro offset σ _ σ' ⟨s, τ, t, hs, ⟨code, rfl, rfl, rfl⟩, rfl⟩ d
  obtain ⟨htarget, htakes, hgives⟩ := hop code rfl
  exact hp.operate htarget htakes hgives _ _ _ _ ⟨s, _, _, hs, ⟨rfl, rfl⟩, rfl⟩ d

theorem Leaves.given (hp : p.Leaves n) (P : Prop) : (Emission.given P p).Leaves n :=
  fun _ _ _ _ h => hp _ _ _ _ h.2

theorem Leaves.all {ps : List Emission} (h : ∀ p ∈ ps, p.Leaves n) :
    (Emission.all ps).Leaves (ps.length * n) := by
  induction ps with
  | nil =>
    rintro offset σ _ σ' ⟨rfl, -⟩ d
    rw [List.length_nil, Nat.zero_mul]
    exact .nil
  | cons p ps ih =>
    rw [List.forall_mem_cons] at h
    rw [List.length_cons, Nat.succ_mul, Nat.add_comm]
    exact h.1.seq (ih h.2)

/-- An instruction that pushes a value of its own. -/
theorem leaves_one {i : Instr} (htarget : i.target? = none) (htakes : i.takes = 0)
    (hgives : i.gives = 1) : (Emission.one i).Leaves 1 := by
  rintro offset σ _ σ' ⟨rfl, -⟩ d
  exact .one htarget (by omega) (by omega)

theorem leaves_const (v : Value) : (const v).Leaves 1 := by
  rintro offset σ _ σ' ⟨-, rfl, -⟩ d
  exact .one rfl (Nat.zero_le d) rfl

theorem balanced_load (place : Place) (offset d : Nat) : Balanced offset [place.load] d (d + 1) := by
  cases place <;> exact .one rfl (Nat.zero_le d) rfl

theorem leaves_ident (name : Bytes) : (ident name).Leaves 1 := by
  rintro offset σ _ σ' ⟨place, -, rfl, -⟩ d
  exact balanced_load place offset d

theorem balanced_loads (symbols : List Symbol) (offset d : Nat) :
    Balanced offset (symbols.map (·.place.load)) d (d + symbols.length) := by
  induction symbols generalizing offset d with
  | nil => exact .nil
  | cons s symbols ih =>
    rw [List.length_cons, Nat.add_comm symbols.length, ← Nat.add_assoc]
    exact (balanced_load s.place offset d).append (ih _ _)

theorem leaves_function (name : Bytes) (params : List Ident) (body : Emission) :
    (function name params body).Leaves 1 := by
  rintro offset σ _ σ' ⟨s, τ, table, outer, -, -, -, -, -, rfl, -⟩ d
  refine (balanced_loads _ offset d).append (.one rfl ?_ ?_)
  · exact Nat.le_add_left _ d
  · simp [takes, gives]

theorem Settles.branch (hp : p.Settles) : (Emission.branch p).Leaves 1 := by
  rintro offset σ _ σ' ⟨s, hs, rfl⟩ d
  exact (hp _ _ _ _ hs d).keepValue

theorem Leaves.cond (hp : p.Leaves 1) (hq : q.Leaves 1) (hr : r.Leaves 1) :
    (Emission.cond p q r).Leaves 1 := by
  rintro offset σ _ σ' ⟨s, σ₁, t, σ₂, u, yesAt, elseAt, endAt, hs, ht, hu, hyes, helse, hend, -, rfl⟩ d
  exact .cond (hp _ _ _ _ hs d) (hq _ _ _ _ ht d) (hr _ _ _ _ hu d) hyes helse hend

theorem Settles.all {ps : List Emission} (h : ∀ p ∈ ps, p.Settles) : (Emission.all ps).Settles := by
  induction ps with
  | nil =>
    rintro offset σ _ σ' ⟨rfl, -⟩ d
    exact .nil
  | cons p ps ih =>
    rw [List.forall_mem_cons] at h
    rintro offset σ _ σ' ⟨s, τ, t, hs, ht, rfl⟩ d
    exact (h.1 _ _ _ _ hs d).append (ih h.2 _ _ _ _ ht d)

/-- A statement ends in an instruction that uses its value. -/
theorem Leaves.settle (hp : p.Leaves n) {i : Instr} (htarget : i.target? = none)
    (htakes : i.takes = n) (hgives : i.gives = 0) : (p.seq (.one i)).Settles := by
  rintro offset σ _ σ' ⟨s, τ, t, hs, ⟨rfl, -⟩, rfl⟩ d
  refine .snoc (hp _ _ _ _ hs d) htarget (by omega) fun _ => ?_
  rw [htakes, hgives, Nat.add_sub_cancel, Nat.add_zero]

theorem Leaves.bind (hp : p.Leaves 1) (name : Bytes) : (Emission.bind name p).Settles := by
  rintro offset σ _ σ' ⟨-, s, hs, rfl⟩ d
  cases (σ.table.define name).1 <;>
    exact .snoc (hp _ _ _ _ hs d) rfl (Nat.le_add_left 1 d) fun _ => rfl

end Emission

theorem UnaryOp.opcode?_takes (op : UnaryOp) : ∀ code ∈ op.opcode?,
    (⟨code, []⟩ : Instr).target? = none ∧ (⟨code, []⟩ : Instr).takes = 1 ∧
      (⟨code, []⟩ : Instr).gives = 1 := by
  rintro code hcode
  cases op <;> cases hcode <;> exact ⟨rfl, rfl, rfl⟩

theorem BinaryOp.opcode?_takes (op : BinaryOp) : ∀ code ∈ op.opcode?,
    (⟨code, []⟩ : Instr).target? = none ∧ (⟨code, []⟩ : Instr).takes = 2 ∧
      (⟨code, []⟩ : Instr).gives = 1 := by
  rintro code hcode
  cases op <;> cases hcode <;> exact ⟨rfl, rfl, rfl⟩

theorem body_settles {body : List Stmt} (h : ∀ s ∈ body, s.Emits.Settles) :
    (Emission.all (body.map Stmt.Emits)).Settles := by
  apply Emission.Settles.all
  simpa using h

theorem items_leave {items : List Expr} (h : ∀ e ∈ items, e.Emits.Leaves 1) :
    (Emission.all (items.map Expr.Emits)).Leaves items.length := by
  have hall : (Emission.all (items.map Expr.Emits)).Leaves ((items.map Expr.Emits).length * 1) :=
    .all (by simpa using h)
  simpa using hall

theorem pairs_leave {pairs : List (Expr × Expr)}
    (h : ∀ p ∈ pairs, p.1.Emits.Leaves 1 ∧ p.2.Emits.Leaves 1) :
    (Emission.all (pairs.map fun p => p.1.Emits.seq p.2.Emits)).Leaves (2 * pairs.length) := by
  have hpair : ∀ q ∈ pairs.map fun p => p.1.Emits.seq p.2.Emits, Emission.Leaves q 2 := by
    intro q hq
    obtain ⟨p, hp, rfl⟩ := List.mem_map.1 hq
    exact (h p hp).1.seq (h p hp).2
  have hall := Emission.Leaves.all hpair
  rwa [List.length_map, Nat.mul_comm] at hall

theorem else_leaves {no : Option Block} (h : ∀ s ∈ Block.elseBody no, s.Emits.Settles) :
    (emitsElse no).Leaves 1 := by
  cases no with
  | none => exact Emission.leaves_one rfl rfl rfl
  | some b =>
    rw [emitsElse, Block.emits_eq]
    exact (body_settles h).branch

/-- Expressions leave one value and statements none. -/
theorem tree_balanced : TreeSteps (fun e => e.Emits.Leaves 1) (fun s => s.Emits.Settles) where
  ident id := Emission.leaves_ident id.name
  int loc literal value := Emission.leaves_const (.int value)
  string loc value := Emission.leaves_const (.string value)
  bool loc value := by cases value <;> exact Emission.leaves_one rfl rfl rfl
  unary loc op right hright := hright.operator op.opcode?_takes
  binary loc op left right hleft hright := by
    rw [Expr.Emits]
    split
    · rw [← Emission.seq_assoc]
      exact (hright.seq hleft).operator op.opcode?_takes
    · rw [← Emission.seq_assoc]
      exact (hleft.seq hright).operator op.opcode?_takes
  cond loc test yes no htest hyes hno := by
    rw [Expr.Emits, Block.emits_eq]
    exact htest.cond (body_settles hyes).branch (else_leaves hno)
  function loc name params body _ := by
    rw [Expr.Emits]
    exact (Emission.leaves_function name params body.Emits).given _
  call loc callee args hcallee hargs := by
    rw [Expr.Emits, emitsItems_eq, ← Emission.seq_assoc]
    exact ((hcallee.seq (items_leave hargs)).operate rfl (Nat.add_comm _ _) rfl).given _
  array loc items hitems := by
    rw [Expr.Emits, emitsItems_eq]
    exact ((items_leave hitems).operate rfl rfl rfl).given _
  hash loc pairs hpairs := by
    rw [Expr.Emits, emitsPairs_inOrder]
    have h := pairs_leave fun p hp => hpairs p (Expr.mem_inOrder.1 hp)
    rw [Expr.length_inOrder] at h
    exact (h.operate rfl rfl rfl).given _
  index loc left index hleft hindex := by
    rw [Expr.Emits, ← Emission.seq_assoc]
    exact (hleft.seq hindex).operate rfl rfl rfl
  missing := by
    intro _ _ _ _ h
    cases h
  bind loc id value hvalue := hvalue.bind id.name
  retNone loc := by
    rintro offset σ _ σ' ⟨rfl, -⟩ d
    exact .snoc (s := []) .nil rfl (Nat.zero_le d) fun _ => rfl
  ret loc value hvalue := hvalue.settle rfl rfl rfl
  expr loc value hvalue := hvalue.settle rfl rfl rfl
  block body hbody := by
    rw [Stmt.Emits, Block.emits_eq]
    exact body_settles hbody
  missingStmt := by
    intro _ _ _ _ h
    cases h

end StackScript
