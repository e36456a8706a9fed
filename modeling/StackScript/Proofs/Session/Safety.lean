import StackScript.Proofs.Compile.Faults
import StackScript.Proofs.Session.Evaluation

/-!
# Sessions answer every request

Whatever a session is asked, one request after another, it answers each. A
source has a value or one of the faults of the language: it cannot be read, it
cannot be compiled, or its run ends in a fault that is not due to its code. A
global variable has no place in the store only if there are more names than
places.

## Main definitions

* `EvalError.Static`, `EvalError.Ordinary`: the faults of the language.
* `Session.Request.Admits`: what may be answered to a request.

## Main results

* `Listing.exists_ofCode`: compiled code can be listed.
* `Session.requests_answered`: every request is answered.
-/

namespace StackScript

/-! ### Listings -/

namespace Listing

variable {α β : Type} {x : Write α} {f : α → Write β}

/-- The step of a listing does not end in a fault. -/
def Succeeds (x : Write α) : Prop := ∀ l, ∃ a l', x l = .ok a l'

theorem Succeeds.bind (hx : Succeeds x) (hf : ∀ a, Succeeds (f a)) : Succeeds (x >>= f) := by
  intro l
  obtain ⟨a, l₁, hxl⟩ := hx l
  obtain ⟨b, l₂, hfl⟩ := hf a l₁
  refine ⟨b, l₂, ?_⟩
  change EStateM.bind x f l = _
  rw [EStateM.bind, hxl]
  exact hfl

theorem Succeeds.pure (a : α) : Succeeds (Pure.pure a : Write α) := fun l => ⟨a, l, rfl⟩

theorem Succeeds.get : Succeeds (get : Write Listing) := fun l => ⟨l, l, rfl⟩

theorem write_succeeds (s : Bytes) : Succeeds (write s) := fun _ => ⟨(), _, rfl⟩

theorem header_succeeds (s : Bytes) : Succeeds (header s) := by
  refine .bind .get fun l => ?_
  dsimp only
  split
  · exact write_succeeds _
  · exact .bind (write_succeeds _) fun _ => write_succeeds _

/-- Instructions can be listed. -/
theorem lines_succeeds (pool : Option (Array Value)) {found : List (Nat × Code.Fetched)}
    (h : ∀ e ∈ found, ∃ i, e.2 = .instr i) : Succeeds (lines pool found) := by
  induction found with
  | nil => exact .pure ()
  | cons e rest ih =>
    obtain ⟨⟨i, hi⟩, hrest⟩ := List.forall_mem_cons.1 h
    obtain ⟨offset, x⟩ := e
    obtain rfl : x = .instr i := hi
    exact .bind (write_succeeds _) fun _ => ih hrest

theorem function_succeeds (pool : Option (Array Value)) (label : Bytes) {f : Function}
    (h : ∀ e ∈ f.code.walk, ∃ i, e.2 = .instr i) : Succeeds (function pool label (some f)) := by
  refine .bind .get fun l => ?_
  split
  · exact .pure ()
  · exact .bind (fun l => ⟨(), _, rfl⟩) fun _ => .bind (header_succeeds _) fun _ =>
      lines_succeeds pool h

theorem functions_succeeds (pool : Option (Array Value)) (number : Nat) {vs : List Value}
    (h : ∀ f, .function (some f) ∈ vs → ∀ e ∈ f.code.walk, ∃ i, e.2 = .instr i) :
    Succeeds (functions pool number vs) := by
  induction vs generalizing number with
  | nil => exact .pure ()
  | cons v rest ih =>
    have hrest := ih (number + 1) fun f hf => h f (.tail _ hf)
    unfold functions
    split
    · next hnil => cases hnil
    · next f _ heq =>
      obtain ⟨rfl, rfl⟩ := List.cons.inj heq
      exact .bind (function_succeeds pool _ (h f (.head _))) fun _ => hrest
    · next heq =>
      obtain ⟨rfl, rfl⟩ := List.cons.inj heq
      exact hrest

/-- Code that consists of instructions can be listed. -/
theorem exists_ofCode {code : Code} {constants : Array Value}
    (hmain : ∀ e ∈ code.walk, ∃ i, e.2 = .instr i)
    (hfunctions : ∀ f, .function (some f) ∈ constants → ∀ e ∈ f.code.walk, ∃ i, e.2 = .instr i) :
    ∃ text, ofCode code constants = .ok text := by
  have hprogram : Succeeds (program (some constants) code) :=
    .bind (header_succeeds _) fun _ => .bind (lines_succeeds _ hmain) fun _ =>
      functions_succeeds _ _ fun f hf => hfunctions f (Array.mem_toList_iff.1 hf)
  obtain ⟨_, l, hl⟩ := hprogram .empty
  exact ⟨l.text, by rw [ofCode, hl]⟩

end Listing

/-- Encoded instructions are found again, and nothing else. -/
theorem Code.walk_instr {is : List Instr} (hfits : ∀ i ∈ is, i.Fits) :
    ∀ e ∈ (Code.ofInstrs is).walk, ∃ i, e.2 = .instr i := by
  rintro ⟨offset, x⟩ he
  obtain ⟨_, i, _, -, -, rfl⟩ := (Code.mem_walk_ofInstrs hfits).1 he
  exact ⟨i, rfl⟩

/-! ### Requests -/

/-- The fault of a source that cannot be read or compiled. -/
def EvalError.Static : EvalError → Prop
  | .parse _ => True
  | .compile e => e.cause ≠ .unorderedKey
  | _ => False

/-- The fault of a source when there are `names` global names and `store` places for them. -/
def EvalError.Ordinary (names store : Nat) : EvalError → Prop
  | .runtime e => e.fault.Known names store
  | e => e.Static

namespace Session

/-- What may be answered to a request, with the session after it. A value needs no more than to be
one. -/
def Request.Admits (after : Session) : Request → Answer → Prop
  | .eval _, .reply r | .evalAsync _ .served, .reply r =>
    ∀ e, r.result = .error e → e.Ordinary after.table.globalNames.ncard after.config.globalsSize
  | .evalAsync _ .canceled, .reply r =>
    r.result.isOk = false ∧ ∀ e, r.result = .error e → e = .canceled
  | .evalAsync _ .refused, .busy => True
  | .compile _, .bytecode r => ∀ e, r = .error e → e.Static
  | .disassemble _, .listing r => ∀ e, r = .error e → e.Static
  | _, _ => False

variable {s : Session} {source : Bytes} {bytecode : Bytecode} {table : Table} {e : EvalError}

theorem static_of_compile (h : s.compile source = .error e) : e.Static := by
  rw [compile_eq] at h
  split at h
  · rw [compileProgram] at h
    split at h
    · cases h
    · next hcompile =>
      cases h
      exact Program.ordered_of_error hcompile
  · cases h
    trivial

theorem listing_of_compile (hs : s.Ok) (h : s.compile source = .ok (bytecode, table)) :
    ∃ text, s.listing source = .ok text := by
  obtain ⟨is, hcode, -, hok, -, hlegal, -⟩ := compile_spec hs.context h
  have hmain : ∀ e ∈ bytecode.code.walk, ∃ i, e.2 = .instr i := by
    rw [hcode]
    exact Code.walk_instr fun i hi =>
      (hlegal i hi).fits hok.globals (Nat.zero_le _) (Nat.zero_le _)
  have hfunctions : ∀ f, .function (some f) ∈ bytecode.constants →
      ∀ e ∈ f.code.walk, ∃ i, e.2 = .instr i := by
    intro f hf
    obtain ⟨hlocals, is, free, -, hfcode, hfree, hflegal, -⟩ := (hok.pool _ hf).formed
    rw [hfcode]
    exact Code.walk_instr fun i hi => (hflegal i hi).fits hok.globals hlocals hfree
  obtain ⟨text, htext⟩ := Listing.exists_ofCode hmain hfunctions
  refine ⟨text, ?_⟩
  simp only [listing, listingOf, h, bind, Except.bind, htext]

theorem static_of_listing (hs : s.Ok) (h : s.listing source = .error e) : e.Static := by
  cases hcompile : s.compile source with
  | error e' =>
    rw [listing, hcompile] at h
    cases h
    exact static_of_compile hcompile
  | ok result =>
    obtain ⟨text, htext⟩ := listing_of_compile hs hcompile
    rw [htext] at h
    cases h

/-- An evaluation that is given enough instructions ends in a value or in a fault of the
language. -/
theorem eval_ordinary [Casing] (hs : s.Ok) (source : Bytes) :
    ∃ n, ∀ fuel, n ≤ fuel → s.eval fuel source = s.eval n source ∧
      ∀ e, (s.eval n source).1.result = .error e →
        e.Ordinary (s.eval n source).2.table.globalNames.ncard s.config.globalsSize := by
  cases hcompile : s.compile source with
  | error e =>
    refine ⟨0, fun fuel _ => ?_⟩
    rw [eval_of_error hcompile, eval_of_error hcompile]
    refine ⟨rfl, ?_⟩
    rintro _ ⟨⟩
    have hstatic := static_of_compile hcompile
    cases e with
    | parse errors => exact hstatic
    | compile e => exact hstatic
    | _ => exact hstatic.elim
  | ok result =>
    obtain ⟨bytecode, table⟩ := result
    obtain ⟨_, _, _, hcontext, _⟩ := compile_spec hs.context hcompile
    obtain ⟨n, -, -, hrun⟩ := start_halts hs hcompile
    have hended := (start_ok hs hcompile).runFor (pool_ok hcontext) n
    have hfinished : ((s.start bytecode).runFor n).1 ≠ .unfinished := (hrun n (Nat.le_refl n)).1
    refine ⟨n, fun fuel hfuel => ⟨(hrun fuel hfuel).2.2, ?_⟩⟩
    rw [eval_of_compile hcompile]
    intro e he
    change resultOf _ ((s.start bytecode).runFor n).1 = .error e at he
    cases hending : ((s.start bytecode).runFor n).1 with
    | finished => rw [hending] at he; cases he
    | unfinished => exact absurd hending hfinished
    | stopped stop =>
      cases stop with
      | crash => exact absurd hending hended.safe
      | fault fault =>
        rw [hending] at he
        cases he
        have hknown := hended.known fault hending
        change fault.fault.Known table.definitions s.globals.size at hknown
        rw [hs.store, ← Table.ncard_globalNames hcontext.chain] at hknown
        exact hknown

theorem config_eval [Casing] (fuel : Nat) (s : Session) (source : Bytes) :
    (s.eval fuel source).2.config = s.config := by
  rw [eval_eq]
  split <;> rfl

/-- A request that is given enough instructions has an answer that more of them do not change. -/
theorem perform_admits [Casing] (hs : s.Ok) (r : Request) :
    ∃ n, ∀ fuel, n ≤ fuel → s.perform fuel r = s.perform n r ∧
      r.Admits (s.perform n r).2 (s.perform n r).1 := by
  have hrun (source : Bytes) : ∃ n, ∀ fuel, n ≤ fuel →
      s.perform fuel (.eval source) = s.perform n (.eval source) ∧
        (Request.eval source).Admits (s.perform n (.eval source)).2 (s.perform n (.eval source)).1 := by
    obtain ⟨n, hn⟩ := eval_ordinary hs source
    refine ⟨n, fun fuel hfuel => ?_⟩
    obtain ⟨heq, hordinary⟩ := hn fuel hfuel
    refine ⟨?_, ?_⟩
    · rw [perform, perform, heq]
    · intro e he
      have hconfig := config_eval n s source
      change e.Ordinary (s.eval n source).2.table.globalNames.ncard
        (s.eval n source).2.config.globalsSize
      rw [hconfig]
      exact hordinary e he
  cases r with
  | eval source => exact hrun source
  | evalAsync source fate =>
    cases fate with
    | served => exact hrun source
    | canceled =>
      refine ⟨0, fun fuel _ => ⟨rfl, rfl, ?_⟩⟩
      rintro _ ⟨⟩
      rfl
    | refused => exact ⟨0, fun fuel _ => ⟨rfl, trivial⟩⟩
  | compile source =>
    refine ⟨0, fun fuel _ => ⟨rfl, ?_⟩⟩
    rw [perform_compile]
    intro e he
    cases hcompile : s.compile source with
    | error e' =>
      rw [hcompile] at he
      cases he
      exact static_of_compile hcompile
    | ok result => rw [hcompile] at he; cases he
  | disassemble source =>
    refine ⟨0, fun fuel _ => ⟨rfl, ?_⟩⟩
    rw [perform_disassemble]
    intro e he
    exact static_of_listing hs he

/-- Whatever a session is asked, with whatever settings, it answers every request, and with nothing
but a value or a fault of the language. -/
theorem requests_answered [Casing] (config : Config) (tracing : Bool) (requests : List Request) :
    ∃ n, ∀ fuel, n ≤ fuel →
      ((new config tracing).performAll fuel requests).map (·.1) = requests ∧
      ∀ step ∈ (new config tracing).performAll fuel requests, step.1.Admits step.2.2 step.2.1 := by
  -- The induction is on the requests and for any session that earlier ones have led to.
  suffices hall : ∀ s : Session, s.Reachable → ∃ n, ∀ fuel, n ≤ fuel →
      (s.performAll fuel requests).map (·.1) = requests ∧
      ∀ step ∈ s.performAll fuel requests, step.1.Admits step.2.2 step.2.1 from
    hall _ (.new config tracing)
  induction requests with
  | nil => exact fun s _ => ⟨0, fun fuel _ => by simp [performAll]⟩
  | cons r rest ih =>
    intro s hs
    obtain ⟨n, hn⟩ := perform_admits hs.ok r
    obtain ⟨k, hk⟩ := ih _ (.perform n r hs)
    refine ⟨max n k, fun fuel hfuel => ?_⟩
    obtain ⟨heq, hadmits⟩ := hn fuel (Nat.le_trans (Nat.le_max_left n k) hfuel)
    obtain ⟨hrequests, hrest⟩ := hk fuel (Nat.le_trans (Nat.le_max_right n k) hfuel)
    have hsteps : s.performAll fuel (r :: rest) =
        (r, (s.perform n r).1, (s.perform n r).2) :: (s.perform n r).2.performAll fuel rest := by
      rw [← heq]
      rfl
    rw [hsteps]
    refine ⟨?_, List.forall_mem_cons.2 ⟨hadmits, hrest⟩⟩
    rw [List.map_cons, hrequests]

end Session

end StackScript
