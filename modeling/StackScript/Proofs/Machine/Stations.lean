import StackScript.Proofs.Compile.Paths
import StackScript.Proofs.Machine.Control

/-!
# The height of the stack along a run

Every function that has not returned stands at an offset of its code, with a
certain number of values above its locals. A function that has called another
one waits for the value that takes the place of the call. Each step moves the
innermost function along a path of its code, enters a function at the start of
its code or leaves one. So the number of values is one with which a path reaches
the offset, for every function and at any time.

The values below the locals of a function stay as they are until it returns.
Then the value it returns takes the place of the closure and of all that came
after it.

## Main definitions

* `Machine.stations`: the frames with the heights at which they stand.
* `Machine.Tidy`: frames that stand as high as paths lead, one above the other.
* `Machine.Answers`: how a call came to its result.

## Main results

* `Machine.Ok.tidy`: a run keeps the frames tidy.
* `Machine.Ok.activation_path`: one call of a function follows a path.
* `Machine.Ok.call_completes`: the result of a call takes its place.
-/

namespace StackScript

/-- The frame stands at a height with which a path reaches its offset. -/
def Frame.Anchored (f : Frame) (height : Nat) : Prop :=
  ∃ d, f.fn.code.Reaches f.next d ∧ f.base + f.fn.locals + d = height

namespace Machine

/-- The frames, from the inside out, each with the height of the stack at which it stands or will
stand again. -/
def heights : Nat → List Frame → List (Frame × Nat)
  | _, [] => []
  | height, f :: callers => (f, height) :: heights f.base callers

@[simp] theorem length_heights (height : Nat) (fs : List Frame) :
    (heights height fs).length = fs.length := by
  induction fs generalizing height with
  | nil => rfl
  | cons f callers ih => rw [heights, List.length_cons, List.length_cons, ih]

/-- The frames of a machine with the heights at which they stand. -/
def stations (m : Machine) : List (Frame × Nat) := heights m.live.length m.frames

/-- What a step does to the stations. -/
inductive Treads : List (Frame × Nat) → List (Frame × Nat) → Prop
  | goes {f : Frame} {h h' n d d' : Nat} {rest : List (Frame × Nat)} :
    f.fn.code.Goes (f.next, d) (n, d') → f.base + f.fn.locals + d = h →
    f.base + f.fn.locals + d' = h' →
    Treads ((f, h) :: rest) (({ f with next := n }, h') :: rest)
  | calls {f g : Frame} {h n d d' : Nat} {rest : List (Frame × Nat)} :
    f.fn.code.Goes (f.next, d) (n, d') → f.base + f.fn.locals + d = h →
    f.base + f.fn.locals + d' = g.base → g.next = 0 →
    Treads ((f, h) :: rest) ((g, g.base + g.fn.locals) :: ({ f with next := n }, g.base) :: rest)
  | returns {a b : Frame × Nat} {rest : List (Frame × Nat)} : Treads (a :: b :: rest) (b :: rest)

variable {P : Array Value} {G : Nat} {m m' : Machine} {i : Instr} {live live' : List Value}
  {f : Frame} {callers fs' : List Frame}

theorem Acts.treads [Casing] (h : Acts i live (f :: callers) live' fs')
    (hwalk : (f.next, .instr i) ∈ f.fn.code.walk) :
    Treads (heights live.length (f :: callers)) (heights live'.length fs') := by
  -- In each case the height above the locals is the depth of the path; a call goes on in the
  -- caller's code once it is answered.
  cases h with
  | @falls S S' args values _ _ hfalls _ hargs hvalues hlocals hlength _ _ =>
    refine .goes (.falls (d := S.length + args.length - (f.base + f.fn.locals)) hwalk hfalls ?_)
      ?_ ?_
    · omega
    · rw [List.length_append]
      omega
    · rw [List.length_append]
      omega
  | @jumps _ args _ _ t ht hargs hlocals =>
    refine .goes (.jumps (d := live'.length + args.length - (f.base + f.fn.locals)) hwalk ht ?_)
      ?_ ?_
    · omega
    · rw [List.length_append]
      omega
    · omega
  | @answers S args b _ _ hi hlocals =>
    subst hi
    have htakes : (⟨.call, [args.length]⟩ : Instr).takes = args.length + 1 := rfl
    have hgives : (⟨.call, [args.length]⟩ : Instr).gives = 1 := rfl
    refine .goes (.falls (d := S.length + (args.length + 1) - (f.base + f.fn.locals)) hwalk
      ⟨nofun, nofun, nofun⟩ ?_) ?_ ?_
    · omega
    · rw [List.length_append, List.length_cons]
      omega
    · rw [List.length_append, List.length_singleton]
      omega
  | @enters S args free id fn _ _ hi hlocals =>
    subst hi
    have htakes : (⟨.call, [args.length]⟩ : Instr).takes = args.length + 1 := rfl
    have hgives : (⟨.call, [args.length]⟩ : Instr).gives = 1 := rfl
    have hheight : (S ++ Value.closure id (some fn) free :: Exec.locals fn args).length =
        S.length + 1 + fn.locals := by
      rw [List.length_append, List.length_cons, Exec.length_locals]
      omega
    rw [hheight]
    refine .calls (g := ⟨fn, id, free, 0, S.length + 1⟩)
      (.falls (d := S.length + (args.length + 1) - (f.base + f.fn.locals)) hwalk
        ⟨nofun, nofun, nofun⟩ ?_) ?_ ?_ rfl
    · omega
    · rw [List.length_append, List.length_cons]
      omega
    · change _ = S.length + 1
      omega
  | @returns S rest v _ caller _ _ hbase =>
    have hheight : (S ++ [v]).length = f.base := by
      rw [List.length_append, List.length_singleton, hbase]
    rw [hheight]
    exact .returns

/-! ### Tidy frames -/

/-- All frames stand as high as paths lead, each above the ones that wait for it, and all but the
outermost one execute functions among the constants. -/
structure Tidy (P : Array Value) (m : Machine) : Prop where
  anchored : ∀ x ∈ m.stations, x.1.Anchored x.2
  nested : m.frames.Pairwise fun a b => b.base < a.base
  called : ∀ f ∈ m.frames.dropLast, .function (some f.fn) ∈ P

theorem Treads.anchored {xs ys : List (Frame × Nat)} (h : Treads xs ys)
    (hxs : ∀ x ∈ xs, x.1.Anchored x.2) : ∀ y ∈ ys, y.1.Anchored y.2 := by
  have hgoes {f : Frame} {h n d d' : Nat} (hf : f.Anchored h)
      (hgoes : f.fn.code.Goes (f.next, d) (n, d')) (hd : f.base + f.fn.locals + d = h) :
      { f with next := n }.Anchored (f.base + f.fn.locals + d') := by
    obtain ⟨d₀, hreaches, hd₀⟩ := hf
    obtain rfl : d₀ = d := by omega
    exact ⟨d', hreaches.tail hgoes, rfl⟩
  cases h with
  | goes hstep hd hd' =>
    rw [List.forall_mem_cons] at hxs ⊢
    refine ⟨?_, hxs.2⟩
    rw [← hd']
    exact hgoes hxs.1 hstep hd
  | @calls f g _ _ _ _ rest hstep hd hd' hg =>
    rw [List.forall_mem_cons] at hxs
    rw [List.forall_mem_cons, List.forall_mem_cons]
    refine ⟨⟨0, ?_, rfl⟩, ?_, hxs.2⟩
    · rw [hg]
      exact .refl
    · rw [← hd']
      exact hgoes hxs.1 hstep hd
  | returns => exact (List.forall_mem_cons.1 hxs).2

theorem Acts.nested [Casing] {fs : List Frame} (h : Acts i live fs live' fs')
    (hfs : fs.Pairwise fun a b => b.base < a.base) : fs'.Pairwise fun a b => b.base < a.base := by
  cases h with
  | falls => exact List.pairwise_cons.2 (List.pairwise_cons.1 hfs)
  | jumps => exact List.pairwise_cons.2 (List.pairwise_cons.1 hfs)
  | answers => exact List.pairwise_cons.2 (List.pairwise_cons.1 hfs)
  | @enters S _ _ _ _ f callers _ hlocals =>
    obtain ⟨hcallers, hrest⟩ := List.pairwise_cons.1 hfs
    refine List.pairwise_cons.2 ⟨?_, List.pairwise_cons.2 ⟨hcallers, hrest⟩⟩
    have hbase : f.base < S.length + 1 := by omega
    rw [List.forall_mem_cons]
    exact ⟨hbase, fun caller hcaller => Nat.lt_trans (hcallers caller hcaller) hbase⟩
  | returns => exact (List.pairwise_cons.1 hfs).2

theorem Moves.called {h h' : Nat} {fs : List Frame} (hmoves : Moves P h fs h' fs')
    (hfs : ∀ f ∈ fs.dropLast, .function (some f.fn) ∈ P) :
    ∀ f ∈ fs'.dropLast, .function (some f.fn) ∈ P := by
  have hgoes {f : Frame} {n : Nat} {callers : List Frame}
      (hfs : ∀ g ∈ (f :: callers).dropLast, Value.function (some g.fn) ∈ P) :
      ∀ g ∈ ({ f with next := n } :: callers).dropLast, Value.function (some g.fn) ∈ P := by
    cases callers with
    | nil => exact nofun
    | cons caller rest =>
      rw [List.dropLast_cons_cons, List.forall_mem_cons] at hfs ⊢
      exact hfs
  cases hmoves with
  | goes => exact hgoes hfs
  | @calls _ g _ _ _ hg =>
    rw [List.dropLast_cons_cons, List.forall_mem_cons]
    exact ⟨hg, hgoes hfs⟩
  | returns =>
    rw [List.dropLast_cons_cons] at hfs
    exact (List.forall_mem_cons.1 hfs).2

/-- A step keeps the frames tidy. -/
theorem Tidy.step [Casing] (htidy : m.Tidy P)
    (hwalk : (m.frame.next, .instr i) ∈ m.frame.fn.code.walk)
    (hacts : Acts i m.live m.frames m'.live m'.frames) (hstepped : Stepped P G m m') : m'.Tidy P :=
  ⟨(hacts.treads hwalk).anchored htidy.anchored, hacts.nested htidy.nested,
    hstepped.moves.called htidy.called⟩

/-- Frames that are tidy at the start of a run are so at each of its instructions. -/
theorem Ok.tidy [Casing] (h : m.Ok P G) (hpool : PoolOk P G) (htidy : m.Tidy P) {n : Nat}
    (hn : m.dispatch n = some m') : m'.Tidy P := by
  induction n generalizing m' with
  | zero =>
    rw [Machine.dispatch] at hn
    split at hn
    · obtain rfl := Option.some.inj hn
      exact htidy
    · cases hn
  | succ n ih =>
    obtain ⟨m₁, hm₁, hnext⟩ := Option.bind_eq_some_iff.1 hn
    obtain ⟨hok, hrunning, -⟩ := h.dispatch hpool hm₁
    obtain ⟨hstepped, -⟩ := hok.next hpool hrunning hnext
    obtain ⟨i, -, hwalk, hacts⟩ := hok.acts hpool hrunning hnext
    exact (ih hm₁).step hwalk hacts hstepped

/-- A tidy machine with callers executes a function among the constants. -/
theorem Tidy.called_frame (htidy : m.Tidy P) (hcallers : m.callers ≠ #[]) :
    .function (some m.frame.fn) ∈ P := by
  refine htidy.called m.frame ?_
  rw [frames]
  cases hrest : m.callers.toList.reverse with
  | nil => exact absurd (by simpa using hrest) hcallers
  | cons caller rest =>
    rw [List.dropLast_cons_cons]
    exact List.mem_cons_self ..

/-! ### Main code -/

/-- A safe machine at the start of main code, with functions that all end in a return. -/
structure Launched (P : Array Value) (G : Nat) (is : List Instr) (m : Machine) : Prop where
  ok : m.Ok P G
  pool : PoolOk P G
  tidy : m.Tidy P
  callers : m.callers = #[]
  live : m.live = []
  next : m.frame.next = 0
  laid : m.frame.fn.code.Laid is
  base : m.frame.base = 0
  locals : m.frame.fn.locals = 0
  functions : ∀ f, .function (some f) ∈ P → ∃ t i, f.code.Laid (t ++ [i]) ∧ i.Returns

theorem frame_eq_of_frames {inner : List Frame} (hframes : m.frames = inner ++ [f])
    (hcallers : m.callers = #[]) : m.frame = f := by
  rw [frames, hcallers] at hframes
  cases inner with
  | nil => exact (List.cons.inj hframes).1
  | cons a inner => simp at hframes

/-- The outermost frame is that of the main code. -/
theorem Launched.frames [Casing] {is : List Instr} {n : Nat} (h : Launched P G is m)
    (hn : m.dispatch n = some m') :
    ∃ inner next, m'.frames = inner ++ [{ m.frame with next := next }] := by
  have hzero : m.dispatch 0 = some m := by
    rw [dispatch, if_pos]
    by_contra hstopped
    rw [dispatch_of_not_running hstopped] at hn
    cases hn
  have hbetween (i : Nat) (mi : Machine) (_ : 0 ≤ i) (_ : i ≤ 0 + n) (_ : m.dispatch i = some mi) :
      m.frames.length ≤ mi.frames.length := by
    rw [Machine.frames, h.callers]
    exact Nat.succ_le_succ (Nat.zero_le _)
  rw [← Nat.zero_add n] at hn
  obtain ⟨inner, next, hframes, -⟩ := h.ok.frame_below h.pool hzero n hn hbetween
  rw [h.callers] at hframes
  exact ⟨inner, next, hframes⟩

/-- A frame without callers is the main one. -/
theorem Launched.frame_main [Casing] {is : List Instr} {n : Nat} (h : Launched P G is m)
    (hn : m.dispatch n = some m') (hcallers : m'.callers = #[]) :
    ∃ next, m'.frame = { m.frame with next := next } := by
  obtain ⟨inner, next, hframes⟩ := h.frames hn
  exact ⟨next, frame_eq_of_frames hframes hcallers⟩

/-! ### The path of a call -/

/-- A step leaves the stations below the current one alone, and moves the current one along a path,
unless the function returns. -/
theorem Treads.below {inner rest ys : List (Frame × Nat)} {h d : Nat}
    (htreads : Treads (inner ++ (f, h) :: rest) ys) (hlength : rest.length < ys.length)
    (hd : f.base + f.fn.locals + d = h) :
    ∃ inner' n d', ys = inner' ++ ({ f with next := n }, f.base + f.fn.locals + d') :: rest ∧
      f.fn.code.Path (f.next, d) (n, d') := by
  cases inner with
  | nil =>
    cases htreads with
    | @goes _ _ _ n d₀ d' _ hstep hd₀ hd' =>
      obtain rfl : d₀ = d := by omega
      exact ⟨[], n, d', by rw [hd']; rfl, .single hstep⟩
    | @calls _ g _ n d₀ d' _ hstep hd₀ hd' _ =>
      obtain rfl : d₀ = d := by omega
      exact ⟨[(g, g.base + g.fn.locals)], n, d', by rw [hd']; rfl, .single hstep⟩
    | returns => exact absurd hlength (Nat.lt_irrefl _)
  | cons a inner =>
    generalize hxs : a :: inner ++ (f, h) :: rest = xs at htreads
    subst hd
    cases htreads with
    | goes =>
      obtain ⟨rfl, rfl⟩ := List.cons.inj hxs
      exact ⟨_ :: inner, f.next, d, rfl, .refl⟩
    | calls =>
      obtain ⟨rfl, rfl⟩ := List.cons.inj hxs
      exact ⟨_ :: _ :: inner, f.next, d, rfl, .refl⟩
    | returns =>
      obtain ⟨rfl, hrest⟩ := List.cons.inj hxs
      exact ⟨inner, f.next, d, hrest.symm, .refl⟩

/-- As long as a function has not returned, its station is among the stations, further on along a
path. -/
theorem Ok.station_below [Casing] (h : m.Ok P G) (hpool : PoolOk P G) {j d : Nat} {mj : Machine}
    (hj : m.dispatch j = some mj)
    (hd : mj.frame.base + mj.frame.fn.locals + d = mj.live.length) (l : Nat)
    (hl : m.dispatch (j + l) = some m')
    (hbetween : ∀ i mi, j ≤ i → i ≤ j + l → m.dispatch i = some mi →
      mj.frames.length ≤ mi.frames.length) :
    ∃ inner n d', m'.stations = inner ++
        ({ mj.frame with next := n }, mj.frame.base + mj.frame.fn.locals + d') ::
          heights mj.frame.base mj.callers.toList.reverse ∧
      mj.frame.fn.code.Path (mj.frame.next, d) (n, d') := by
  induction l generalizing m' with
  | zero =>
    rw [Nat.add_zero, hj] at hl
    obtain rfl := Option.some.inj hl
    exact ⟨[], mj.frame.next, d, by rw [hd]; rfl, .refl⟩
  | succ l ih =>
    obtain ⟨m₁, hm₁, hnext⟩ := Option.bind_eq_some_iff.1 hl
    obtain ⟨hok, hrunning, -⟩ := h.dispatch hpool hm₁
    obtain ⟨i, -, hwalk, hacts⟩ := hok.acts hpool hrunning hnext
    obtain ⟨inner, n, d', hstations, hpath⟩ := ih hm₁ fun i mi hi hil => hbetween i mi hi (by omega)
    have hdepth := hbetween (j + (l + 1)) m' (by omega) (Nat.le_refl _) hl
    have htreads : Treads m₁.stations m'.stations := hacts.treads hwalk
    rw [hstations] at htreads
    have hlength : (heights mj.frame.base mj.callers.toList.reverse).length < m'.stations.length := by
      rw [stations, length_heights, length_heights]
      exact hdepth
    obtain ⟨inner', n', d'', hstations', hpath'⟩ := htreads.below hlength rfl
    exact ⟨inner', n', d'', hstations', hpath.trans hpath'⟩

/-- The instructions that one call of a function executes follow a path of its code. -/
theorem Ok.activation_path [Casing] (h : m.Ok P G) (hpool : PoolOk P G) {j k d : Nat}
    {mj mk : Machine}
    (hsame : m.SameActivation j k) (hj : m.dispatch j = some mj) (hk : m.dispatch k = some mk)
    (hd : mj.frame.base + mj.frame.fn.locals + d = mj.live.length) :
    ∃ d', mj.frame.base + mj.frame.fn.locals + d' = mk.live.length ∧
      mj.frame.fn.code.Path (mj.frame.next, d) (mk.frame.next, d') := by
  obtain ⟨hle, mj', mk', hj', hk', hlength, hbetween⟩ := hsame
  obtain rfl := Option.some.inj (hj'.symm.trans hj)
  obtain rfl := Option.some.inj (hk'.symm.trans hk)
  obtain ⟨l, rfl⟩ := Nat.exists_eq_add_of_le hle
  obtain ⟨inner, n, d', hstations, hpath⟩ := h.station_below hpool hj hd l hk hbetween
  have hinner : inner = [] := by
    have hsum := congrArg List.length hstations
    rw [stations, length_heights, hlength] at hsum
    simp only [frames, List.length_cons, List.length_append, length_heights] at hsum
    exact List.eq_nil_of_length_eq_zero (by omega)
  rw [hinner] at hstations
  obtain ⟨hhead, -⟩ := List.cons.inj hstations
  obtain ⟨hframe, hheight⟩ := Prod.mk.inj hhead
  refine ⟨d', hheight.symm, ?_⟩
  rw [hframe]
  exact hpath

/-! ### The result of a call -/

/-- How the call with number `j` of a run came to its result before the instruction with number
`k`: a builtin function computes it at once, a closure hands it over by the last instruction of the
call that begins after `j`. -/
def Answers [Casing] (m : Machine) (j k : Nat) (args : List Value) (result : Value) : Value → Prop
  | .builtin (.known b) => k = j + 1 ∧ result = b.value args
  | .closure _ (some fn) _ => m.SameActivation (j + 1) (k - 1) ∧
    ∃ mr i, m.dispatch (k - 1) = some mr ∧ mr.frame.fn = fn ∧
      fn.code.fetch mr.frame.next = some (.instr i) ∧ i.Hands mr.live result
  | _ => False

/-- The current function goes on, with the same values below its locals, or returns. -/
theorem Acts.head [Casing] (h : Acts i live (f :: callers) live' fs') :
    (∃ inner n, fs' = inner ++ { f with next := n } :: callers ∧
        live'.take f.base = live.take f.base) ∨
      fs' = callers ∧ ∃ S rest v, i.Hands live v ∧ S.length + 1 = f.base ∧ live = S ++ rest ∧
        live' = S ++ [v] := by
  cases h with
  | falls _ _ _ _ hlocals hlength hbelow _ =>
    refine .inl ⟨[], _, rfl, ?_⟩
    rw [List.take_append_of_le_length (by omega), List.take_append_of_le_length (by omega), hbelow]
  | jumps _ _ hlocals =>
    refine .inl ⟨[], _, rfl, ?_⟩
    rw [List.take_append_of_le_length (by omega)]
  | answers _ hlocals =>
    refine .inl ⟨[], _, rfl, ?_⟩
    rw [List.take_append_of_le_length (by omega), List.take_append_of_le_length (by omega)]
  | enters _ hlocals =>
    refine .inl ⟨[_], _, rfl, ?_⟩
    rw [List.take_append_of_le_length (by omega), List.take_append_of_le_length (by omega)]
  | @returns S rest v _ _ _ hhands hbase => exact .inr ⟨rfl, S, rest, v, hhands, hbase, rfl, rfl⟩

/-- A step leaves the values below the locals of a function that has not returned as they are. If
the function returns, the value it hands over takes the place of its closure. -/
theorem Acts.keeps [Casing] {inner rest : List Frame}
    (h : Acts i live (inner ++ f :: rest) live' fs')
    (hnested : (inner ++ f :: rest).Pairwise fun a b => b.base < a.base) :
    (∃ inner' n, fs' = inner' ++ { f with next := n } :: rest ∧
        live'.take f.base = live.take f.base) ∨
      inner = [] ∧ fs' = rest ∧ ∃ v, i.Hands live v ∧ live' = live.take (f.base - 1) ++ [v] := by
  cases inner with
  | nil =>
    obtain hgoes | ⟨hfs, S, rest', v, hhands, hbase, rfl, rfl⟩ := h.head
    · exact .inl hgoes
    · refine .inr ⟨rfl, hfs, v, hhands, ?_⟩
      rw [← hbase, Nat.add_sub_cancel, List.take_left]
  | cons a inner =>
    have hbase : f.base < a.base :=
      (List.pairwise_cons.1 hnested).1 f (List.mem_append_right inner (List.mem_cons_self ..))
    left
    obtain ⟨inner', n, rfl, htake⟩ | ⟨rfl, S, rest', v, -, hS, rfl, rfl⟩ := h.head
    · refine ⟨inner' ++ { a with next := n } :: inner, f.next, by simp, ?_⟩
      have hbelow := congrArg (List.take f.base) htake
      rwa [List.take_take, List.take_take, Nat.min_eq_left (Nat.le_of_lt hbase)] at hbelow
    · refine ⟨inner, f.next, rfl, ?_⟩
      rw [List.take_append_of_le_length (by omega), List.take_append_of_le_length (by omega)]

/-- As long as a function has not returned, the values below its locals are as they were. -/
theorem Ok.values_below [Casing] (h : m.Ok P G) (hpool : PoolOk P G) (htidy : m.Tidy P) {j : Nat}
    {mj : Machine} {rest : List Frame} (hj : m.dispatch j = some mj) (hframes : mj.frames = f :: rest)
    (l : Nat) (hl : m.dispatch (j + l) = some m')
    (hbetween : ∀ i mi, j ≤ i → i ≤ j + l → m.dispatch i = some mi →
      rest.length < mi.frames.length) :
    ∃ inner n, m'.frames = inner ++ { f with next := n } :: rest ∧
      m'.live.take f.base = mj.live.take f.base := by
  induction l generalizing m' with
  | zero =>
    rw [Nat.add_zero, hj] at hl
    obtain rfl := Option.some.inj hl
    exact ⟨[], f.next, hframes, rfl⟩
  | succ l ih =>
    obtain ⟨m₁, hm₁, hnext⟩ := Option.bind_eq_some_iff.1 hl
    obtain ⟨hok, hrunning, -⟩ := h.dispatch hpool hm₁
    obtain ⟨i, -, -, hacts⟩ := hok.acts hpool hrunning hnext
    obtain ⟨inner, n, hframes₁, htake⟩ := ih hm₁ fun i mi hi hil => hbetween i mi hi (by omega)
    have hnested := (h.tidy hpool htidy hm₁).nested
    rw [hframes₁] at hacts hnested
    obtain ⟨inner', n', hframes', htake'⟩ | ⟨-, hreturned, -⟩ := hacts.keeps hnested
    · exact ⟨inner', n', hframes', htake'.trans htake⟩
    · have hlength := hbetween (j + (l + 1)) m' (by omega) (Nat.le_refl _) hl
      rw [hreturned] at hlength
      exact absurd hlength (Nat.lt_irrefl _)

/-- Every instruction before one of a run is followed by another one. -/
theorem dispatch_of_lt [Casing] {j k : Nat} {mk : Machine} (hk : m.dispatch k = some mk)
    (hlt : j < k) :
    ∃ mj m₁, m.dispatch j = some mj ∧ mj.next? = some m₁ ∧ m.dispatch (j + 1) = some m₁ := by
  cases hm₁ : m.dispatch (j + 1) with
  | none =>
    rw [dispatch_none_of_le hm₁ hlt] at hk
    cases hk
  | some m₁ =>
    obtain ⟨mj, hmj, hnext⟩ := Option.bind_eq_some_iff.1 hm₁
    exact ⟨mj, m₁, hmj, hnext, rfl⟩

/-- Between an instruction of a call and its next one, only functions that it called, directly or
not, execute instructions. -/
theorem SameActivation.deeper [Casing] {j k l : Nat} {mj ml : Machine}
    (hsame : m.SameActivation j k)
    (hnone : ∀ l, j < l → l < k → ¬m.SameActivation j l) (hj : m.dispatch j = some mj)
    (hl : m.dispatch l = some ml) (hjl : j < l) (hlk : l < k) :
    mj.frames.length < ml.frames.length := by
  obtain ⟨-, mj', mk, hj', -, -, hbetween⟩ := hsame
  obtain rfl := Option.some.inj (hj'.symm.trans hj)
  have hle := hbetween l ml (Nat.le_of_lt hjl) (Nat.le_of_lt hlk) hl
  refine Nat.lt_of_le_of_ne hle fun heq => hnone l hjl hlk ?_
  exact ⟨Nat.le_of_lt hjl, mj', ml, hj, hl, heq.symm, fun i mi hi hil =>
    hbetween i mi hi (Nat.le_trans hil (Nat.le_of_lt hlk))⟩

/-- When a call is completed, its result stands in the place of the callee and the arguments, and the
function goes on after the call. -/
theorem Ok.call_completes [Casing] (h : m.Ok P G) (hpool : PoolOk P G) (htidy : m.Tidy P)
    {j k n : Nat} {mj mk : Machine} (hsame : m.SameActivation j k) (hlt : j < k)
    (hnone : ∀ l, j < l → l < k → ¬m.SameActivation j l) (hj : m.dispatch j = some mj)
    (hk : m.dispatch k = some mk)
    (hcall : mj.frame.fn.code.fetch mj.frame.next = some (.instr ⟨.call, [n]⟩)) :
    mk.frames = { mj.frame with next := mj.frame.next + Opcode.call.size } ::
        mj.callers.toList.reverse ∧
      ∃ below callee args result, mj.live = below ++ callee :: args ∧ args.length = n ∧
        mk.live = below ++ [result] ∧ m.Answers j k args result callee := by
  obtain ⟨mj', m₁, hj', hnext, hm₁⟩ := dispatch_of_lt hk hlt
  obtain rfl := Option.some.inj (hj'.symm.trans hj)
  obtain ⟨hok, hrunning, -⟩ := h.dispatch hpool hj
  obtain ⟨i, hfetch, -, hacts⟩ := hok.acts hpool hrunning hnext
  obtain rfl : i = ⟨.call, [n]⟩ := Code.Fetched.instr.inj (Option.some.inj (hfetch.symm.trans hcall))
  have hlength : mk.frames.length = mj'.frames.length := by
    obtain ⟨-, mj, mk', hmj, hmk, hlength, -⟩ := hsame
    obtain rfl := Option.some.inj (hmj.symm.trans hj)
    obtain rfl := Option.some.inj (hmk.symm.trans hk)
    exact hlength
  generalize hlive : mj'.live = live at hacts
  generalize hframes : mj'.frames = fs at hacts
  generalize hlive₁ : m₁.live = live₁ at hacts
  generalize hframes₁ : m₁.frames = fs₁ at hacts
  cases hacts with
  | falls _ hop => exact absurd rfl hop
  | jumps ht => cases ht
  | @answers S args b f callers hi _ =>
    obtain rfl : k = j + 1 := by
      by_contra hne
      have hdeeper := hsame.deeper hnone hj hm₁ (Nat.lt_succ_self j) (by omega)
      rw [hframes, hframes₁] at hdeeper
      exact Nat.lt_irrefl _ hdeeper
    obtain rfl := Option.some.inj (hm₁.symm.trans hk)
    obtain ⟨hframe, hcallers⟩ := List.cons.inj hframes
    cases hi
    rw [hframe, hcallers]
    exact ⟨hframes₁, S, _, args, _, rfl, rfl, hlive₁, rfl, rfl⟩
  | @enters S args free id fn f callers hi _ =>
    have hk₁ : j + 1 < k := by
      by_contra hle
      obtain rfl : k = j + 1 := by omega
      obtain rfl := Option.some.inj (hm₁.symm.trans hk)
      rw [hframes, hframes₁] at hlength
      simp only [List.length_cons] at hlength
      omega
    obtain ⟨l, rfl⟩ : ∃ l, k = j + 1 + l + 1 := ⟨k - (j + 2), by omega⟩
    obtain ⟨mr, hmr, hlast⟩ := Option.bind_eq_some_iff.1 hk
    have hbetween : ∀ i mi, j + 1 ≤ i → i ≤ j + 1 + l → m.dispatch i = some mi →
        callers.length + 1 < mi.frames.length := by
      intro i mi hi hil hmi
      have hdeeper := hsame.deeper hnone hj hmi hi (by omega)
      rwa [hframes] at hdeeper
    obtain ⟨inner, n', hframesr, htake⟩ := h.values_below hpool htidy hm₁ hframes₁ l hmr hbetween
    obtain ⟨hokr, hrunningr, -⟩ := h.dispatch hpool hmr
    obtain ⟨i, hfetchr, -, hactsr⟩ := hokr.acts hpool hrunningr hlast
    have hnested := (h.tidy hpool htidy hmr).nested
    rw [hframesr] at hactsr hnested
    obtain ⟨inner', n'', hframesk, -⟩ | ⟨rfl, hreturned, v, hhands, hlivek⟩ := hactsr.keeps hnested
    · rw [hframesk, hframes] at hlength
      simp only [List.length_append, List.length_cons] at hlength
      omega
    · have hframe : mr.frame = ⟨fn, id, free, n', S.length + 1⟩ := (List.cons.inj hframesr).1
      have hsamer : m.SameActivation (j + 1) (j + 1 + l) := by
        refine ⟨Nat.le_add_right _ _, m₁, mr, hm₁, hmr, ?_, ?_⟩
        · rw [hframesr, hframes₁]
          rfl
        · intro i mi hi hil hmi
          rw [hframes₁]
          exact hbetween i mi hi hil hmi
      obtain ⟨hcaller, hcallers⟩ := List.cons.inj hframes
      cases hi
      rw [hcaller, hcallers]
      refine ⟨hreturned, S, _, args, v, rfl, rfl, ?_, hsamer, mr, i, hmr, ?_, ?_, hhands⟩
      · have htake' := congrArg (List.take S.length) htake
        rw [List.take_take, List.take_take, hlive₁, Nat.min_eq_left (Nat.le_succ _),
          List.take_left] at htake'
        rw [hlivek]
        exact congrArg (· ++ [v]) htake'
      · rw [hframe]
      · rw [hframe] at hfetchr ⊢
        exact hfetchr
  | returns hhands =>
    obtain ⟨hop, -⟩ | ⟨hop, -⟩ := hhands
    · cases hop
    · cases hop

end Machine

end StackScript
