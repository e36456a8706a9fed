import StackScript.Proofs.Session.Evaluation
import StackScript.Proofs.Tree.Recognition
import StackScript.Text.Lower

/-!
# What lasts in a session

Whatever a session is asked, and whether or not it fails, names and constants are
only added: a global name keeps its slot, and a constant its number. The values
in the global store may hold closures in arrays, in hashes and among the values
that other closures have captured. All of them are of functions that are still
among the constants.

## Main definitions

* `Session.Later`: what may become of a session.
* `Value.Within`: a value that is found in another at some depth.

## Main results

* `Value.Every.within`: what is said of every closure is said of those at any depth.
* `Session.Later.grows`: names and constants are only added.
* `Session.Reachable.lasting`: the invariant of sessions.
-/

namespace StackScript

/-! ### Values at any depth -/

/-- The first value is the second, or is found in it at some depth. -/
inductive Value.Within : Value → Value → Prop
  | refl (v : Value) : Within v v
  | array {v w : Value} {items : List Value} : w ∈ items → Within v w → Within v (.array items)
  | key {v : Value} {e : Entry} {entries : List Entry} : e ∈ entries → Within v e.2.1 →
    Within v (.hash entries)
  | value {v : Value} {e : Entry} {entries : List Entry} : e ∈ entries → Within v e.2.2 →
    Within v (.hash entries)
  | captured {v w : Value} {id : Nat} {fn : Option Function} {free : List Value} : w ∈ free →
    Within v w → Within v (.closure id fn free)

/-- What is said of every closure in a value is said of every closure in its parts. -/
theorem Value.Every.within {C : Nat → Function → List Value → Prop} {v w : Value}
    (hw : w.Every C) (h : v.Within w) : v.Every C := by
  induction h with
  | refl => exact hw
  | array hmem _ ih =>
    cases hw with
    | array hitems => exact ih (hitems _ hmem)
  | key hmem _ ih =>
    cases hw with
    | hash hkeys _ => exact ih (hkeys _ hmem)
  | value hmem _ ih =>
    cases hw with
    | hash _ hvalues => exact ih (hvalues _ hmem)
  | captured hmem _ ih =>
    cases hw with
    | closure _ hfree => exact ih (hfree _ hmem)

namespace Session

/-! ### Later sessions -/

/-- What requests may make of a session, however long the runs are. -/
inductive Later [Casing] (s : Session) : Session → Prop
  | refl : Later s s
  | perform {t : Session} (fuel : Nat) (r : Request) : Later s t → Later s (t.perform fuel r).2

variable {s t : Session}

theorem Reachable.later [Casing] (hs : s.Reachable) (h : s.Later t) : t.Reachable := by
  induction h with
  | refl => exact hs
  | perform fuel r _ ih => exact .perform fuel r ih

theorem eval_grows [Casing] (fuel : Nat) (hs : s.context.Ok) (source : Bytes) :
    s.context.Grows (s.eval fuel source).2.context := by
  cases hcompile : s.compile source with
  | error e =>
    rw [eval_of_error hcompile]
    exact .refl _
  | ok code =>
    obtain ⟨bytecode, table⟩ := code
    obtain ⟨_, _, _, _, hgrows, _⟩ := compile_spec hs hcompile
    rw [eval_of_compile hcompile]
    exact hgrows

/-- A request only adds names and constants. -/
theorem perform_grows [Casing] (fuel : Nat) (hs : s.context.Ok) (r : Request) :
    s.context.Grows (s.perform fuel r).2.context := by
  obtain heq | ⟨source, heq⟩ := s.perform_cases fuel r
  · rw [heq]
    exact .refl _
  · rw [heq]
    exact eval_grows fuel hs source

/-- Names and constants are only added. -/
theorem Later.grows [Casing] (hs : s.Reachable) (h : s.Later t) : s.context.Grows t.context := by
  induction h with
  | refl => exact .refl _
  | perform fuel r hlater ih =>
    exact ih.trans (perform_grows fuel (hs.later hlater).context_ok r)

/-! ### The invariant -/

/-- Global names have slots of their own, below the number of definitions. -/
theorem global_slots (hs : s.context.Ok) :
    (∀ x k, s.table.find? x = some (.global k) → k < s.table.definitions) ∧
      ∀ x y k, s.table.find? x = some (.global k) → s.table.find? y = some (.global k) → x = y := by
  obtain ⟨hsound, henclosed, -⟩ : Chain [s.table] := hs.chain
  have hslot (k : Nat) : s.table.slot k = .global k := by
    simp [Table.slot, henclosed]
  constructor
  · intro x k hx
    exact (hsound.valid x _ hx).2
  · intro x y k hx hy
    rw [← hslot] at hx hy
    exact hsound.injective x y k hx hy

/-- What holds of a session whatever it was asked, also if it failed. Global names have slots of
their own, and keep them; constants are only added at the end; and a closure that is found at any
depth in the global store is of a function among the constants, and has captured a value for every
number that the code of the function reads. -/
theorem Reachable.lasting [Casing] (hs : s.Reachable) :
    (∀ x k, s.table.find? x = some (.global k) → k < s.table.definitions) ∧
    (∀ x y k, s.table.find? x = some (.global k) → s.table.find? y = some (.global k) → x = y) ∧
    (∀ fuel r, s.constants.toList <+: (s.perform fuel r).2.constants.toList) ∧
    (∀ t, s.Later t → ∀ x k, s.table.find? x = some (.global k) →
      t.table.find? x = some (.global k)) ∧
    ∀ v ∈ s.globals, ∀ w : Value, w.Within v → w ≠ .noClosure ∧
      ∀ id fn free, w = .closure id fn free → ∃ f, fn = some f ∧
        .function (some f) ∈ s.constants ∧
        ∀ offset k, (offset, .instr ⟨.getFree, [k]⟩) ∈ f.code.walk → k < free.length := by
  obtain ⟨hbelow, hdistinct⟩ := global_slots hs.context_ok
  obtain ⟨-, henclosed, -⟩ : Chain [s.table] := hs.context_ok.chain
  refine ⟨hbelow, hdistinct, ?_, ?_, ?_⟩
  · intro fuel r
    exact (perform_grows fuel hs.context_ok r).constants
  · intro t hlater x k hx
    exact (hlater.grows hs).table.global henclosed hx
  · intro v hv w hwithin
    have hevery : w.Every (ClosureOk s.constants) := (hs.ok.globals v hv).within hwithin
    constructor
    · rintro rfl
      cases hevery
    · rintro id fn free rfl
      cases hevery with
      | @closure _ f _ hclosure _ => exact ⟨f, rfl, hclosure.1, hclosure.2⟩

/-- A session that has bound a name and has a function among its constants. The name keeps its
slot, and the next request leaves the constants where they are. -/
theorem lasting_let :
    ∃ s : Session, s.Reachable ∧ s.table.find? "f" = some (.global 0) ∧
      (∃ f, s.constants[1]? = some (.function (some f))) ∧
      (∀ fuel r, s.constants.toList <+: (s.perform fuel r).2.constants.toList) ∧
      ∀ t, s.Later t → t.table.find? "f" = some (.global 0) := by
  have hname : Builtin.ofName? "f" = none := by decide +kernel
  obtain ⟨hdefine, hfind⟩ := define_copies_new ⟨64, 4, 3, 0, 0, []⟩ false hname
  have hscan : Token.scan "let f = [fn() { 1 }]" =
      ([⟨.letKw, "let", ⟨0, 1, 1⟩⟩, ⟨.ident, "f", ⟨4, 1, 5⟩⟩, ⟨.assign, "=", ⟨6, 1, 7⟩⟩,
        ⟨.lbracket, "[", ⟨8, 1, 9⟩⟩, ⟨.function, "fn", ⟨9, 1, 10⟩⟩, ⟨.lparen, "(", ⟨11, 1, 12⟩⟩,
        ⟨.rparen, ")", ⟨12, 1, 13⟩⟩, ⟨.lbrace, [123], ⟨14, 1, 15⟩⟩, ⟨.int, [49], ⟨16, 1, 17⟩⟩,
        ⟨.rbrace, [125], ⟨18, 1, 19⟩⟩, ⟨.rbracket, "]", ⟨19, 1, 20⟩⟩],
        ⟨.eof, "", ⟨20, 1, 20⟩⟩) := by
    decide +kernel
  obtain ⟨span, loc, idLoc, arrayLoc, fnLoc, blockLoc, stmtLoc, intLoc, hparse⟩ :
      ∃ span loc idLoc arrayLoc fnLoc blockLoc stmtLoc intLoc,
        Program.parse "let f = [fn() { 1 }]" = ⟨⟨span, [.bind loc ⟨idLoc, "f"⟩ (.array arrayLoc
          [.function fnLoc [] [] (.mk blockLoc [.expr stmtLoc (.int intLoc [49] 1)])])]⟩, []⟩ := by
    rw [Program.parse_eq, hscan]
    refine ⟨_, _, _, _, _, _, _, _, (Parse.tokens_of_derives rfl (.statement (.bind rfl rfl rfl
      (.lower_le (.array rfl (.someItems (.lower_le (.function rfl rfl .nil rfl (.block rfl
        (.statement (.expr (.lower_le (.int rfl ?_) ?_) (.bare ?_ ?_)) .done) rfl)) ?_)
          .noMoreItems) rfl) ?_) (.bare ?_ ?_)) .done)).trans rfl⟩
    all_goals decide
  obtain ⟨bytecode, table, hcompile, hbound, hconstant⟩ : ∃ bytecode table,
      (new ⟨64, 4, 3, 0, 0, []⟩ false).compile "let f = [fn() { 1 }]" = .ok (bytecode, table) ∧
        table.find? "f" = some (.global 0) ∧
        ∃ f, bytecode.constants[1]? = some (.function (some f)) := by
    rw [compile_eq, hparse]
    simp only [List.isEmpty_nil, if_true, compileProgram, Program.compile, compileBody,
      Stmt.compile, bind, EStateM.bind, hdefine]
    exact ⟨_, _, rfl, hfind, _, rfl⟩
  obtain ⟨s, hs⟩ : ∃ s, s = ((new ⟨64, 4, 3, 0, 0, []⟩ false).perform 9
      (.eval "let f = [fn() { 1 }]")).2 := ⟨_, rfl⟩
  have hreachable : s.Reachable := hs ▸ .perform 9 _ (.new _ _)
  change s = ((new ⟨64, 4, 3, 0, 0, []⟩ false).eval 9 _).2 at hs
  rw [eval_of_compile hcompile] at hs
  have hbound' : s.table.find? "f" = some (.global 0) := by rw [hs]; exact hbound
  obtain ⟨-, -, hconstants, hlater, -⟩ := hreachable.lasting
  refine ⟨s, hreachable, hbound', ?_, hconstants, fun t ht => hlater t ht "f" 0 hbound'⟩
  rw [hs]
  exact hconstant

end Session

end StackScript
