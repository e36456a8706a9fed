import StackScript.Proofs.Compile.Faults
import StackScript.Proofs.Compile.Outcome
import StackScript.Proofs.Session.Meaning
import StackScript.Text.Lower

/-!
# The sources that are refused

A source without faults is refused only because of a name that is not known, or
because a number is beyond the range of an operand. If no number is, it is
refused exactly if some name is used where it is not known: it is not that of a
builtin function, nor one of the session's global names, nor bound so far in the
program or in a function around the place.

## Main results

* `Session.compile_refused_iff`: which sources are refused, and with which fault.
-/

namespace StackScript

namespace Session

variable {s : Session} {source : Bytes}

/-- The names of a session are known to begin with. -/
theorem Reachable.describes [Casing] (hs : s.Reachable) :
    ∃ G, (∀ x, x ∈ G ↔ x ∈ s.table.globalNames) ∧
      (⟨G, []⟩ : Names).Describes s.copies.context.tables := by
  obtain ⟨G, st, hrep⟩ := hs.represents
  have hslot (k : Nat) : s.table.slot k = .global k := by
    rw [Table.slot, hrep.names.enclosed]
    rfl
  rw [context_copies]
  refine ⟨G, ?_, hrep.names, trivial⟩
  intro x
  constructor
  · intro hx
    obtain ⟨k, hk⟩ := hrep.names.lists.find?_slot hx
    exact ⟨k, hslot k ▸ hk⟩
  · rintro ⟨k, hk⟩
    exact hrep.names.lists.mem ((hslot k).symm ▸ hk)

/-- A source without faults is compiled if all names are known where they are used, or else it is
refused because of the first one that is not, or because of a number out of range. -/
theorem Reachable.compile_ends [Casing] (hs : s.Reachable)
    (hparse : (Program.parse source).errors = []) :
    ∃ G, (∀ x, x ∈ G ↔ x ∈ s.table.globalNames) ∧
      let program := (Program.parse source).program
      ((∃ r, s.compile source = .ok r) ∧
        (⟨G, []⟩ : Names).firstUnknown program.mentions = none ∨
      ∃ err c, s.compile source = .error (.compile err) ∧
        program.compile s.copies = .error err c ∧
        Compile.Faulty ⟨G, []⟩ program.mentions program.Overloaded err c) := by
  obtain ⟨G, hG, hnames⟩ := hs.describes
  refine ⟨G, hG, ?_⟩
  have hsat := Program.compile_sat (Program.whole_parse hparse) hnames
  rw [compile_of_parse hparse, compileProgram]
  unfold Compile.Sat at hsat
  split at hsat
  · next c hok =>
    rw [hok]
    exact .inl ⟨⟨_, rfl⟩, hsat⟩
  · next err c herror =>
    rw [herror]
    exact .inr ⟨err, c, rfl, herror, hsat⟩

/-- A source without faults is refused only because of a name that is not known or because a number
is out of range. If none is, it is refused exactly if some name is used where it is not known, and
then because of the first one. -/
theorem compile_refused_iff [Casing] (hs : s.Reachable)
    (hparse : (Program.parse source).errors = []) :
    ∃ G, (∀ x, x ∈ G ↔ x ∈ s.table.globalNames) ∧
      let program := (Program.parse source).program
      let names : Names := ⟨G, []⟩
      (∀ e, s.compile source = .error e → ∃ err, e = .compile err ∧
        ((∃ id, names.firstUnknown program.mentions = some id ∧
          err = ⟨.undefinedVariable id.name, id.loc.pos⟩) ∨
        ∃ what c, err.cause = .operandOverflow what ∧
          program.compile s.copies = .error err c ∧
          Compile.Exceeds program.Overloaded err c)) ∧
      ((∀ what pos, s.compile source ≠ .error (.compile ⟨.operandOverflow what, pos⟩)) →
        ((∃ e, s.compile source = .error e) ↔ ∃ before id rest,
          program.mentions = before ++ .use id :: rest ∧ ¬(names.after before).Knows id.name) ∧
        ∀ id, names.firstUnknown program.mentions = some id →
          s.compile source = .error (.compile ⟨.undefinedVariable id.name, id.loc.pos⟩)) := by
  obtain ⟨G, hG, hends⟩ := hs.compile_ends hparse
  refine ⟨G, hG, ?_, ?_⟩
  · intro e he
    obtain ⟨⟨r, hok⟩, -⟩ | ⟨err, c, herror, hcompile, hfaulty⟩ := hends
    · rw [hok] at he
      cases he
    · rw [herror] at he
      cases he
      refine ⟨err, rfl, hfaulty.imp_right fun hexceeds => ?_⟩
      obtain ⟨what, hwhat⟩ := hexceeds.exists_cause
      exact ⟨what, c, hwhat, hcompile, hexceeds⟩
  · intro hlimits
    rw [← Names.firstUnknown_ne_none]
    obtain ⟨⟨r, hok⟩, hknown⟩ | ⟨err, c, herror, -, hfaulty⟩ := hends
    · rw [hok, hknown]
      refine ⟨⟨?_, fun h => absurd rfl h⟩, ?_⟩
      · rintro ⟨e, he⟩
        cases he
      · intro id hid
        cases hid
    · obtain ⟨id, hid, rfl⟩ | hexceeds := hfaulty
      · rw [hid]
        refine ⟨⟨fun _ => Option.some_ne_none id, fun _ => ⟨_, herror⟩⟩, ?_⟩
        intro id' hid'
        cases hid'
        exact herror
      · obtain ⟨what, hwhat⟩ := hexceeds.exists_cause
        obtain ⟨cause, pos⟩ := err
        subst hwhat
        exact absurd herror (hlimits what pos)

/-- The right operand comes first, so it is the one that is refused. -/
theorem compile_refused_iff_less :
    (∀ what pos, (new ⟨64, 4, 3, 0, 0, []⟩ false).compile "a < b" ≠
      .error (.compile ⟨.operandOverflow what, pos⟩)) ∧
    (new ⟨64, 4, 3, 0, 0, []⟩ false).compile "a < b" =
      .error (.compile ⟨.undefinedVariable "b", ⟨4, 1, 5⟩⟩) := by
  have hparse : (Program.parse "a < b").errors = [] := by decide +kernel
  have hident (id : Ident) :
      Compile.Fails (Expr.ident id).compile fun e => ∀ what, e.cause ≠ .operandOverflow what := by
    rw [Expr.compile]
    refine .bind (.modifyGet _) fun place? => ?_
    cases place? with
    | some place => cases place <;> exact .modifyGet _
    | none => exact .fail fun _ h => by cases h
  have hfails : Compile.Fails (Program.parse "a < b").program.compile
      fun e => ∀ what, e.cause ≠ .operandOverflow what := by
    have hscan : Token.scan "a < b" = ([⟨.ident, "a", ⟨0, 1, 1⟩⟩, ⟨.less, "<", ⟨2, 1, 3⟩⟩,
        ⟨.ident, "b", ⟨4, 1, 5⟩⟩], ⟨.eof, "", ⟨5, 1, 5⟩⟩) := by
      decide +kernel
    rw [Program.parse, hscan]
    exact .bind (.bind (.bind (hident _) fun _ => .bind (hident _) fun _ => .modifyGet _)
      fun _ => .modifyGet _) fun _ => .pure _
  have hlimits : ∀ what pos, (new ⟨64, 4, 3, 0, 0, []⟩ false).compile "a < b" ≠
      .error (.compile ⟨.operandOverflow what, pos⟩) := by
    intro what pos herror
    rw [compile_of_parse hparse, compileProgram] at herror
    split at herror
    · cases herror
    · next hcompile =>
      cases herror
      exact hfails _ _ _ hcompile what rfl
  obtain ⟨G, hG, -, hiff⟩ := compile_refused_iff (.new ⟨64, 4, 3, 0, 0, []⟩ false) hparse
  have hempty : G = [] := by
    refine List.eq_nil_iff_forall_not_mem.2 fun x hx => ?_
    obtain ⟨k, hk⟩ := (hG x).1 hx
    change Table.global.find? x = some (.global k) at hk
    rw [Table.global_find?] at hk
    obtain ⟨b, -, hb⟩ := Option.map_eq_some_iff.1 hk
    cases hb
  subst hempty
  have hfirst : (⟨[], []⟩ : Names).firstUnknown (Program.parse "a < b").program.mentions =
      some ⟨.token ⟨4, 1, 5⟩, "b"⟩ := by decide +kernel
  exact ⟨hlimits, (hiff hlimits).2 _ hfirst⟩

end Session

end StackScript
