import StackScript.Proofs.Machine.Insertion
import StackScript.Proofs.Machine.Passage
import StackScript.Proofs.Session.StackDiscipline
import StackScript.Proofs.Session.StringLiterals
import StackScript.Proofs.Tree.Recognition
import StackScript.Text.Lower

/-!
# Hash literals

The pairs of a hash literal are evaluated by the texts of their keys, whatever
order they are written in, and the hash is built of them in that order. Of two
pairs whose keys have one digest the one with the greater text stays. This need not
be the one that is written later, unless their texts are in the order in which
they are written, as they are if keys with one digest are written alike.

## Main definitions

* `Machine.Gathers`: a call has evaluated the pairs of a hash literal.

## Main results

* `Machine.Ok.gathers`: the values of a hash literal before its hash is built.
* `Session.hash_literal_by_text`: the hash of a literal is that of its pairs by their texts.
-/

namespace StackScript

/-- The code of pairs is that of their keys and values in turn. -/
theorem Emission.all_pairs (pairs : List (Expr × Expr)) :
    Emission.all (pairs.map fun p => p.1.Emits.seq p.2.Emits) =
      Emission.all ((pairs.flatMap fun p => [p.1, p.2]).map Expr.Emits) := by
  induction pairs with
  | nil => rfl
  | cons p pairs ih =>
    change (p.1.Emits.seq p.2.Emits).seq (Emission.all (pairs.map _)) =
      p.1.Emits.seq (p.2.Emits.seq (Emission.all ((pairs.flatMap _).map Expr.Emits)))
    rw [ih, Emission.seq_assoc]

/-- What holds of the values of keys and values in turn holds of the pairs. -/
theorem exists_pairs {R : Expr → Value → Prop} {pairs : List (Expr × Expr)} {values : List Value}
    (h : List.Forall₂ R (pairs.flatMap fun p => [p.1, p.2]) values) :
    ∃ sorted : List ((Expr × Expr) × Value × Value), sorted.map (·.1) = pairs ∧
      values = (sorted.map (·.2)).flatMap (fun v => [v.1, v.2]) ∧
      ∀ p ∈ sorted, R p.1.1 p.2.1 ∧ R p.1.2 p.2.2 := by
  induction pairs generalizing values with
  | nil =>
    obtain rfl := List.forall₂_nil_left_iff.1 h
    exact ⟨[], rfl, rfl, nofun⟩
  | cons p pairs ih =>
    obtain ⟨k, _, hk, htail, rfl⟩ := List.forall₂_cons_left_iff.1 h
    obtain ⟨v, values, hv, hrest, rfl⟩ := List.forall₂_cons_left_iff.1 htail
    obtain ⟨sorted, rfl, rfl, hsorted⟩ := ih hrest
    refine ⟨(p, k, v) :: sorted, rfl, rfl, ?_⟩
    intro q hq
    obtain rfl | hq := List.mem_cons.1 hq
    · exact ⟨hk, hv⟩
    · exact hsorted q hq

namespace Machine

open Instr

/-- Between the instructions with the numbers `j` and `k` of the run the keys and values of a
literal's pairs have been evaluated, with these results. -/
def Gathers [Casing] (m : Machine) (pairs : List (Expr × Expr)) (j k : Nat)
    (evaluated : List ((Expr × Expr) × Value × Value)) : Prop :=
  evaluated.map (·.1) = pairs ∧ ∀ p ∈ evaluated,
    (∃ a b, j ≤ a ∧ b ≤ k ∧ m.Evaluates p.1.1 a b p.2.1) ∧
    ∃ a b, j ≤ a ∧ b ≤ k ∧ m.Evaluates p.1.2 a b p.2.2

variable {P : Array Value} {G : Nat} {m mj mk : Machine} {j k : Nat} {is : List Instr} {loc : Loc}
  {pairs : List (Expr × Expr)} {stop : Nat}

/-- A call that starts a hash literal and comes to the instruction that builds the hash has
evaluated the pairs, and the values are on the stack by the texts of the keys. -/
theorem Ok.gathers [Casing] (h : m.Ok P G) (hpool : PoolOk P G) (htidy : m.Tidy P)
    (hlaid : mj.frame.fn.code.Laid is) (hsame : m.SameActivation j k)
    (hj : m.dispatch j = some mj) (hk : m.dispatch k = some mk)
    (hholds : mj.frame.fn.code.Holds (.hash loc pairs) mj.frame.next stop)
    (hstop : mk.frame.next + Opcode.hash.size = stop) :
    mk.frame.fn.code.fetch mk.frame.next = some (.instr ⟨.hash, [pairs.length]⟩) ∧
      ∃ evaluated below, m.Gathers pairs j k evaluated ∧ below.length = mj.live.length ∧
        mk.live = below ++ ((Expr.byText evaluated).map (·.2)).flatMap fun v => [v.1, v.2] := by
  obtain ⟨before, seg, after, σ, τ, hcode, hemits, hstart, rfl⟩ := hholds
  rw [Expr.Emits, emitsPairs_inOrder, Emission.all_pairs] at hemits
  obtain ⟨-, seg, τ', _, hseg, ⟨rfl, -⟩, rfl⟩ := hemits
  have hnext : mk.frame.next = bytes before + bytes seg := by
    rw [bytes_append, bytes_cons, bytes_nil] at hstop
    simp only at hstop
    omega
  have hsplit : before ++ (seg ++ [⟨.hash, [pairs.length]⟩] ++ after) =
      before ++ (seg ++ (⟨.hash, [pairs.length]⟩ :: after)) := by simp
  rw [hsplit] at hcode
  obtain ⟨l, ml, below, values, -, hsamel, hml, hframe, hlive, hlength, -, hvalues⟩ :=
    h.evaluates_all hpool htidy (hlaid.of_encodes hcode) _ rfl hseg hsame hj hk rfl hstart hnext.ge
  obtain rfl : l = k := by
    refine (Nat.eq_or_lt_of_le hsamel.1).resolve_right ?_
    intro hlt
    have hless := (h.offset_lt hpool hsamel hlt hml hk).2
    rw [hframe, hnext] at hless
    exact Nat.lt_irrefl _ hless
  obtain rfl := Option.some.inj (hml.symm.trans hk)
  obtain ⟨sorted, hsorted, rfl, hevaluates⟩ := exists_pairs hvalues
  obtain ⟨evaluated, hpairs, rfl⟩ := Expr.exists_byText hsorted
  refine ⟨?_, evaluated, below, ⟨hpairs, ?_⟩, hlength, hlive⟩
  · have hfetch := Code.fetch_ofInstrs (before ++ seg) after
      (hcode.fits ⟨.hash, [pairs.length]⟩ (by simp))
    rw [bytes_append, List.append_assoc, ← hcode.eq] at hfetch
    rw [hframe]
    exact hfetch
  · intro p hp
    exact hevaluates p (List.mem_mergeSort.2 hp)

/-- The values of a literal become its hash, if its keys can be filed. -/
theorem Ok.builds [Casing] (h : m.Ok P G) (hpool : PoolOk P G) (htidy : m.Tidy P)
    (hlaid : mj.frame.fn.code.Laid is) (hsame : m.SameActivation j k)
    (hj : m.dispatch j = some mj) (hk : m.dispatch k = some mk)
    (hholds : mj.frame.fn.code.Holds (.hash loc pairs) mj.frame.next stop)
    (hstop : mk.frame.next + Opcode.hash.size = stop) :
    ∃ evaluated below, m.Gathers pairs j k evaluated ∧ below.length = mj.live.length ∧
      (mk.live = below ++ ((Expr.byText evaluated).map (·.2)).flatMap fun v => [v.1, v.2]) ∧
      ((∀ p ∈ evaluated, p.2.1.hashKey? ≠ none) →
        Exec.Sat Machine.step mk
          (fun _ m' => m'.frame = { mk.frame with next := stop } ∧
            m'.live = below ++ [Value.hashOf ((Expr.byText evaluated).map (·.2))])
          fun f _ => f = .instructionLimit mk.limit ∧ 0 < mk.limit ∨
            f = .stackOverflow ∧ pairs = []) := by
  obtain ⟨hfetch, evaluated, below, hgathers, hlength, hlive⟩ :=
    h.gathers hpool htidy hlaid hsame hj hk hholds hstop
  refine ⟨evaluated, below, hgathers, hlength, hlive, ?_⟩
  intro hkeys
  have hkeys' : ∀ v ∈ (Expr.byText evaluated).map (·.2), v.1.hashKey? ≠ none := by
    intro v hv
    obtain ⟨p, hp, rfl⟩ := List.mem_map.1 hv
    exact hkeys p (List.mem_mergeSort.1 hp)
  obtain ⟨entries, hentries, hvalues, hdigests⟩ := Entry.exists_ofPair? hkeys'
  have hflatten : Entry.flatten entries =
      ((Expr.byText evaluated).map (·.2)).flatMap fun v => [v.1, v.2] := by
    rw [← hvalues, List.flatMap_map]
    rfl
  have hcount : entries.length = pairs.length := by
    rw [← hgathers.1, ← List.length_map, hvalues, List.length_map, List.length_map, Expr.byText,
      List.length_mergeSort]
  rw [← hcount] at hfetch
  rw [← hflatten] at hlive
  obtain ⟨hok, -, -⟩ := h.dispatch hpool hk
  refine step_sat hok.fits hfetch ?_ fun hlimit => .inl ⟨rfl, hlimit⟩
  intro m₁ hagrees hfits hlive₁
  refine Exec.hash_sat hfits (hlive₁.trans hlive) hdigests ?_ ?_
  · intro m₂ hagrees₂ _ hlive₂
    refine ⟨?_, ?_⟩
    · rw [hagrees₂.frame, hagrees.frame, ← hstop]
      rfl
    · rw [hlive₂, Value.hashOf, hentries, Entry.foldl_insert]
  · intro hnil _ _
    rw [hnil, List.length_nil] at hcount
    exact .inr ⟨rfl, List.eq_nil_of_length_eq_zero hcount.symm⟩

/-- An instruction that builds a hash does so if there is a pair for it. -/
theorem step_hash [Casing] {entries : List Entry} (hfits : m.Fits)
    (hlive : m.live = Entry.flatten entries) (hkeys : ∀ e ∈ entries, e.2.1.hashKey? = some e.1)
    (hfetch : m.frame.fn.code.fetch m.frame.next = some (.instr ⟨.hash, [entries.length]⟩))
    (hne : entries ≠ []) (hlimit : m.limit = 0) :
    ∃ m', step m = .ok () m' ∧ (m.advance (m.frame.next + 3)).Agrees m' ∧ m'.Fits ∧
      m'.live = [.hash (Entry.file entries)] := by
  refine exists_of_sat (step_sat hfits hfetch (fun m₁ hagrees hfits₁ hlive₁ => ?_) ?_)
  · refine Exec.hash_sat (S := []) hfits₁ (hlive₁.trans hlive) hkeys ?_ fun hnil => absurd hnil hne
    intro m₂ hagrees₂ hfits₂ hlive₂
    exact ⟨hagrees.trans hagrees₂, hfits₂, hlive₂⟩
  · intro hpos
    omega

end Machine

namespace Session

variable {s : Session} {source : Bytes} {bytecode : Bytecode} {table : Table}

/-- Every hash literal of a source stands in its code. When a call has evaluated the pairs of one
from its start, their hash takes the place of the values, unless the stack is full for an empty one
or the instruction is one too many. It is the hash of the pairs by the texts of their keys, which is
that of the pairs as they are written if those with one digest are in the order of their texts. -/
theorem hash_literal_by_text [Casing] (hs : s.Reachable)
    (h : s.compile source = .ok (bytecode, table)) :
    (∀ stmt ∈ (Program.parse source).program.body, ∀ loc pairs,
      Within (.hash loc pairs) (.inr stmt) →
        ∃ code start stop, bytecode.HasCode code ∧ code.Holds (.hash loc pairs) start stop) ∧
    ∀ loc pairs stop j k mj mk, (s.start bytecode).SameActivation j k →
      (s.start bytecode).dispatch j = some mj → (s.start bytecode).dispatch k = some mk →
      mj.frame.fn.code.Holds (.hash loc pairs) mj.frame.next stop →
      mk.frame.next + Opcode.hash.size = stop →
      ∃ evaluated below, (s.start bytecode).Gathers pairs j k evaluated ∧
        below.length = mj.live.length ∧
        (mk.live = below ++ ((Expr.byText evaluated).map (·.2)).flatMap fun v => [v.1, v.2]) ∧
        ((∀ p ∈ evaluated, p.2.1.hashKey? ≠ none) →
          Exec.Sat Machine.step mk
            (fun _ m' => m'.frame = { mk.frame with next := stop } ∧
              m'.live = below ++ [Value.hashOf ((Expr.byText evaluated).map (·.2))])
            fun f _ => f = .instructionLimit mk.limit ∧ 0 < mk.limit ∨
              f = .stackOverflow ∧ pairs = []) ∧
        ((evaluated.Pairwise fun p q => p.2.1.hashKey? = q.2.1.hashKey? →
            Bytes.le p.1.1.render q.1.1.render = true) →
          Value.hashOf ((Expr.byText evaluated).map (·.2)) = Value.hashOf (evaluated.map (·.2))) := by
  obtain ⟨_, _, _, hcontext, _⟩ := compile_spec hs.context_ok h
  constructor
  · intro stmt hstmt loc pairs hwithin
    exact exists_holds hs.context_ok h hstmt hwithin
  · intro loc pairs stop j k mj mk hsame hj hk hholds hstop
    obtain ⟨is, hlaid⟩ := laid_of_hasCode hs.context_ok h (hasCode_frame hs.ok h hj)
    obtain ⟨evaluated, below, hgathers, hlength, hlive, hbuilds⟩ :=
      (start_ok hs.ok h).builds (pool_ok hcontext) (start_tidy s bytecode) hlaid hsame hj hk hholds
        hstop
    exact ⟨evaluated, below, hgathers, hlength, hlive, hbuilds, Value.hashOf_byText⟩

/-- The program `{2: 10, 1 + 1: 20}`, where a number is written in two ways as a key. -/
theorem parse_twice : ∃ span loc loc' l₁ l₂ l₃ l₄ l₅ l₆, Program.parse "{2: 10, 1 + 1: 20}" =
    ⟨⟨span, [.expr loc (.hash loc' [(.int l₁ [50] 2, .int l₂ [49, 48] 10),
      (.binary l₃ .add (.int l₄ [49] 1) (.int l₅ [49] 1), .int l₆ [50, 48] 20)])]⟩, []⟩ := by
  have hscan : Token.scan "{2: 10, 1 + 1: 20}" =
      ([⟨.lbrace, [123], ⟨0, 1, 1⟩⟩, ⟨.int, [50], ⟨1, 1, 2⟩⟩, ⟨.colon, ":", ⟨2, 1, 3⟩⟩,
        ⟨.int, [49, 48], ⟨4, 1, 5⟩⟩, ⟨.comma, ",", ⟨6, 1, 7⟩⟩, ⟨.int, [49], ⟨8, 1, 9⟩⟩,
        ⟨.plus, "+", ⟨10, 1, 11⟩⟩, ⟨.int, [49], ⟨12, 1, 13⟩⟩, ⟨.colon, ":", ⟨13, 1, 14⟩⟩,
        ⟨.int, [50, 48], ⟨15, 1, 16⟩⟩, ⟨.rbrace, [125], ⟨17, 1, 18⟩⟩],
        ⟨.eof, "", ⟨18, 1, 18⟩⟩) := by
    decide +kernel
  rw [Program.parse_eq, hscan]
  refine ⟨_, _, _, _, _, _, _, _, _, (Parse.tokens_of_derives rfl (.statement (.expr (.lower_le
    (.hash rfl (.morePairs (.lower_le (.int rfl ?_) ?_) rfl (.lower_le (.int rfl ?_) ?_) rfl
      (.lastPair (.lower_le (.binary (.lower_le (.int rfl ?_) ?_) .add (.lower_le (.int rfl ?_) ?_))
        ?_) rfl (.lower_le (.int rfl ?_) ?_))) rfl) ?_) (.bare ?_ ?_)) .done)).trans rfl⟩
  all_goals decide

/-- The text of the second key is the smaller one. The hash is built by the seventh instruction. -/
theorem compile_twice [Casing] :
    ∃ bytecode table loc loc' pairs,
      (Program.parse "{2: 10, 1 + 1: 20}").program.body = [.expr loc (.hash loc' pairs)] ∧
      pairs ≠ [] ∧
      (new ⟨64, 4, 3, 0, 0, []⟩ false).compile "{2: 10, 1 + 1: 20}" = .ok (bytecode, table) ∧
      bytecode.code.size = 20 ∧
      (((new ⟨64, 4, 3, 0, 0, []⟩ false).start bytecode).dispatch 0).map
        (fun m => (m.frame.next, m.callers, m.live)) = some (0, #[], []) ∧
      (((new ⟨64, 4, 3, 0, 0, []⟩ false).start bytecode).dispatch 6).map
        (fun m => (m.frame.next, m.callers, m.limit, m.live, m.sp, m.stack.size)) =
          some (16, #[], 0, [.int 2, .int 20, .int 2, .int 10], 4, 64) ∧
      bytecode.code.fetch 16 = some (.instr ⟨.hash, [2]⟩) ∧
      bytecode.code.fetch 19 = some (.instr ⟨.pop, []⟩) := by
  obtain ⟨span, loc, loc', l₁, l₂, l₃, l₄, l₅, l₆, hparse⟩ := parse_twice
  have hsorted : Expr.inOrder [(.int l₁ [50] 2, .int l₂ [49, 48] 10),
      (.binary l₃ .add (.int l₄ [49] 1) (.int l₅ [49] 1), .int l₆ [50, 48] 20)] =
      [(.binary l₃ .add (.int l₄ [49] 1) (.int l₅ [49] 1), .int l₆ [50, 48] 20),
        (.int l₁ [50] 2, .int l₂ [49, 48] 10)] := by
    have hle : Bytes.le (Expr.int l₁ [50] 2).render
        (Expr.binary l₃ .add (.int l₄ [49] 1) (.int l₅ [49] 1)).render = false := by
      simp only [Expr.render]
      decide +kernel
    simp [Expr.inOrder, List.mergeSort, hle]
  obtain ⟨table, hcompile⟩ : ∃ table,
      (new ⟨64, 4, 3, 0, 0, []⟩ false).compile "{2: 10, 1 + 1: 20}" =
        .ok (⟨.ofInstrs [⟨.const, [0]⟩, ⟨.const, [1]⟩, ⟨.add, []⟩, ⟨.const, [2]⟩, ⟨.const, [3]⟩,
          ⟨.const, [4]⟩, ⟨.hash, [2]⟩, ⟨.pop, []⟩], #[.int 1, .int 1, .int 20, .int 2, .int 10]⟩,
          table) := by
    rw [compile_eq, hparse]
    simp only [List.isEmpty_nil, if_true, compileProgram, Program.compile, compileBody,
      Stmt.compile, Expr.compile, Compile.compilePairs_eq, List.reverse_nil, List.nil_append,
      Expr.mergeSort_keyed, hsorted]
    exact ⟨_, rfl⟩
  exact ⟨_, table, loc, loc', _, congrArg (·.program.body) hparse, List.cons_ne_nil _ _, hcompile,
    rfl, rfl, rfl, rfl, rfl⟩

/-- The literal with a number that is written in two ways is evaluated by the texts of its keys. -/
theorem hash_literal_by_text_twice :
    ∃ bytecode table mk evaluated,
      (new ⟨64, 4, 3, 0, 0, []⟩ false).compile "{2: 10, 1 + 1: 20}" = .ok (bytecode, table) ∧
      ((new ⟨64, 4, 3, 0, 0, []⟩ false).start bytecode).dispatch 6 = some mk ∧
      (Expr.byText evaluated).map (·.2) = [(.int 2, .int 20), (.int 2, .int 10)] ∧
      Exec.Sat Machine.step mk
        (fun _ m' => m'.live = [Value.hashOf ((Expr.byText evaluated).map (·.2))])
        fun _ _ => False := by
  obtain ⟨bytecode, table, loc, loc', pairs, hparse, hpairs, hcompile, hsize, hfirst, hlast, -⟩ :=
    compile_twice
  have hreachable : Reachable (new ⟨64, 4, 3, 0, 0, []⟩ false) := .new ⟨64, 4, 3, 0, 0, []⟩ false
  obtain ⟨mj, hj, hmj⟩ := Option.map_eq_some_iff.1 hfirst
  obtain ⟨mk, hk, hmk⟩ := Option.map_eq_some_iff.1 hlast
  simp only [Prod.mk.injEq] at hmj hmk
  obtain ⟨hstart, hcallersj, hlivej⟩ := hmj
  obtain ⟨hnext, hcallersk, hlimit, hlivek, -⟩ := hmk
  have hsame : ((new ⟨64, 4, 3, 0, 0, []⟩ false).start bytecode).SameActivation 0 6 := by
    refine ⟨Nat.zero_le 6, mj, mk, hj, hk, ?_, ?_⟩
    · rw [Machine.frames, Machine.frames, hcallersj, hcallersk]
      rfl
    · intro i mi _ _ _
      rw [Machine.frames, hcallersj]
      exact Nat.succ_le_succ (Nat.zero_le _)
  have hholds : mj.frame.fn.code.Holds (.hash loc' pairs) mj.frame.next 19 := by
    obtain ⟨is, hlaid, hemits⟩ := laid_main hreachable.context_ok hcompile
    obtain ⟨next, hframe⟩ := frame_main hreachable.ok hcompile hj hcallersj
    rw [Program.Emits, hparse] at hemits
    obtain ⟨_, τ, _, ⟨seg, τ', _, hseg, ⟨rfl, -⟩, rfl⟩, ⟨rfl, -⟩, rfl⟩ := hemits
    rw [List.append_nil] at hlaid
    have hbytes : 20 = Instr.bytes seg + 1 := by
      rw [← hsize, hlaid.eq, Code.size_ofInstrs, Instr.bytes_append]
      rfl
    refine ⟨[], seg, [⟨.pop, []⟩], _, τ', ?_, hseg, hstart, ?_⟩
    · rw [hframe]
      exact hlaid.toEncodes
    · rw [Instr.bytes_nil]
      omega
  obtain ⟨evaluated, below, -, hbelow, hlive, hbuilds, -⟩ :=
    (hash_literal_by_text hreachable hcompile).2 loc' pairs 19 0 6 mj mk hsame hj hk hholds
      (by rw [hnext]; rfl)
  rw [hlivej, List.length_nil, List.length_eq_zero_iff] at hbelow
  subst hbelow
  rw [hlivek, List.nil_append] at hlive
  have hvalues : (Expr.byText evaluated).map (·.2) = [(.int 2, .int 20), (.int 2, .int 10)] := by
    generalize (Expr.byText evaluated).map (·.2) = values at hlive
    rcases values with _ | ⟨⟨a, b⟩, _ | ⟨⟨c, d⟩, _ | ⟨⟨e, f⟩, values⟩⟩⟩ <;>
      simp at hlive
    obtain ⟨rfl, rfl, rfl, rfl⟩ := hlive
    rfl
  have hkeys : ∀ p ∈ evaluated, p.2.1.hashKey? ≠ none := by
    intro p hp
    have hmem : p.2 ∈ (Expr.byText evaluated).map (·.2) :=
      List.mem_map_of_mem (List.mem_mergeSort.2 hp)
    rw [hvalues, List.mem_pair] at hmem
    obtain hp | hp := hmem
    · rw [hp]
      exact Option.some_ne_none _
    · rw [hp]
      exact Option.some_ne_none _
  refine ⟨bytecode, table, mk, evaluated, hcompile, hk, hvalues, (hbuilds hkeys).mono ?_ ?_⟩
  · rintro _ m' ⟨-, hm'⟩
    exact hm'
  · rintro f m' (⟨-, hpos⟩ | ⟨-, hnil⟩)
    · rw [hlimit] at hpos
      exact Nat.lt_irrefl 0 hpos
    · exact hpairs hnil

/-- The hash of a literal need not be that of its pairs as they are written. -/
theorem hash_literal_not_as_written :
    ((new ⟨64, 4, 3, 0, 0, []⟩ false).eval 20 "{2: 10, 1 + 1: 20}").1.result =
        .ok (.hashOf [(.int 2, .int 20), (.int 2, .int 10)]) ∧
      Value.hashOf [(.int 2, .int 20), (.int 2, .int 10)] ≠
        Value.hashOf [(.int 2, .int 10), (.int 2, .int 20)] := by
  have hfile (a b : Int64) : Value.hashOf [(.int 2, .int a), (.int 2, .int b)] =
      .hash (Entry.file [(⟨.int, 2⟩, .int 2, .int a), (⟨.int, 2⟩, .int 2, .int b)]) := by
    rw [Value.hashOf, Entry.foldl_insert]
    rfl
  constructor
  · obtain ⟨bytecode, table, loc, loc', pairs, -, -, hcompile, hsize, -, hlast, hhash, hpop⟩ :=
      compile_twice
    obtain ⟨mk, hk, hmk⟩ := Option.map_eq_some_iff.1 hlast
    simp only [Prod.mk.injEq] at hmk
    obtain ⟨hnext, hcallers, hlimit, hlive, hsp, hroom⟩ := hmk
    obtain ⟨_, hframe⟩ := frame_main (Reachable.new _ _).ok hcompile hk hcallers
    have hcode : mk.frame.fn.code = bytecode.code := by rw [hframe]; rfl
    have hfits : mk.Fits := by
      rw [Machine.Fits, hsp, hroom]
      decide
    have hflat : mk.live = Entry.flatten
        [(⟨.int, 2⟩, .int 2, .int 20), (⟨.int, 2⟩, .int 2, .int 10)] := hlive
    rw [← hcode, ← hnext] at hhash
    obtain ⟨m, hstep, hagrees, hfits', hlive'⟩ :=
      Machine.step_hash hfits hflat (by decide) hhash (List.cons_ne_nil _ _) hlimit
    rw [← hfile] at hlive'
    have hcode' : m.frame.fn.code = bytecode.code := by rw [hagrees.frame]; exact hcode
    have hnext' : m.frame.next = 19 := by rw [hagrees.frame, Machine.advance, hnext]
    obtain ⟨m', hrun, hpopped⟩ := Machine.runFor_pop hfits' (by rw [hcode', hnext']; exact hpop)
      (by rw [hcode', hnext', hsize]) hlive' (hagrees.limit.trans hlimit) (Nat.le_add_left 1 12)
    rw [eval_of_compile hcompile, Machine.runFor_of_dispatch hk 14, Machine.runFor,
      if_pos (Machine.running_of_dispatch hk), hstep]
    simp only [hrun]
    exact congrArg Except.ok hpopped
  · rw [hfile, hfile]
    simp [Entry.file, Entry.keepLast, List.mergeSort, HashKey.le]

end Session

end StackScript
