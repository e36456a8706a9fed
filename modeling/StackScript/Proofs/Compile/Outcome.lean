import StackScript.Proofs.Compile.Occurrence
import StackScript.Proofs.Compile.Realization
import StackScript.Proofs.Meaning.Scoping
import StackScript.Proofs.Tree.Whole

/-!
# How a compilation ends

The code of a whole tree is drafted until a name is used that is not known, or
until a number does not fit in an operand. While it is drafted, the tables stand
for the names that have been bound so far, so names are refused exactly where
they are not known.

## Main definitions

* `Overloads`: an expression has more parts than can be counted.
* `Compile.Exceeds`: a number is beyond the range of its operand.
* `Compile.Tracks`: a compilation keeps to the mentions of a tree.

## Main results

* `Compile.tree_tracks`: the compilation of a whole tree keeps to its mentions.
* `Program.compile_sat`: how the compilation of a whole program ends.
-/

namespace StackScript

/-- The expression has more parts than an operand can count, which is the given fault. -/
inductive Overloads : Expr → CompileError → Prop
  | array {loc : Loc} {items : List Expr} (h : maxOperand 2 < items.length) :
    Overloads (.array loc items) ⟨.operandOverflow (.array items.length), loc.pos⟩
  | hash {loc : Loc} {pairs : List (Expr × Expr)} (h : maxOperand 2 < pairs.length) :
    Overloads (.hash loc pairs) ⟨.operandOverflow (.hash pairs.length), loc.pos⟩
  | call {loc : Loc} {callee : Expr} {args : List Expr} (h : maxOperand 1 < args.length) :
    Overloads (.call loc callee args) ⟨.operandOverflow (.call args.length), loc.pos⟩
  | params {loc : Loc} {name : Bytes} {params : List Ident} {body : Block}
    (h : maxOperand 1 < params.length) :
    Overloads (.function loc name params body)
      ⟨.operandOverflow (.params params.length), loc.pos⟩

namespace Compile

variable {α β : Type} {x : Compile α} {f : α → Compile β} {c c' : Compiler} {a : α}

variable {Q : α → Compiler → Prop} {R : β → Compiler → Prop} {D E : CompileError → Compiler → Prop}

/-! ### Limits -/

/-- The fault is that a number is beyond the range of its operand: the number of some parts, or one
that the compilation has come to. -/
inductive Exceeds (parts : CompileError → Prop) : CompileError → Compiler → Prop
  | part {e : CompileError} {c : Compiler} (h : parts e) : Exceeds parts e c
  | binding {pos : Pos} {x : Bytes} {k : Nat} {c : Compiler}
    (hslot : c.scope.table.find? x = some (c.scope.table.slot k))
    (h : maxOperand (if c.scope.table.enclosed then 1 else 2) < k) :
    Exceeds parts ⟨.operandOverflow (.binding x), pos⟩ c
  | locals {pos : Pos} {c : Compiler} (h : maxOperand 1 < c.scope.table.definitions) :
    Exceeds parts ⟨.operandOverflow (.locals c.scope.table.definitions), pos⟩ c
  | free {pos : Pos} {c : Compiler} (h : maxOperand 1 < c.scope.table.free.size) :
    Exceeds parts ⟨.operandOverflow (.free c.scope.table.free.size), pos⟩ c
  /-- The constant that was added last. -/
  | constant {pos : Pos} {n : Nat} {c : Compiler} (hn : c.constants.size = n + 1)
    (h : maxOperand 2 < n) : Exceeds parts ⟨.operandOverflow (.constant n), pos⟩ c
  /-- The end of what has been drafted. -/
  | jump {pos : Pos} {c : Compiler} (h : maxOperand 2 < c.scope.draft.size) :
    Exceeds parts ⟨.operandOverflow (.jump c.scope.draft.size), pos⟩ c

variable {parts : CompileError → Prop} {names : Names} {ms ns : List Mention}
  {e : CompileError}

/-! ### Mentions -/

/-- All names used are known, and the tables stand for the names bound then. -/
structure Passed (names : Names) (ms : List Mention) (ts : List Table) : Prop where
  known : names.firstUnknown ms = none
  describes : (names.after ms).Describes ts
  levels : (names.after ms).levels.length = names.levels.length

/-- The fault is that the first unknown name is not known, or that a number is out of range. -/
def Faulty (names : Names) (ms : List Mention) (parts : CompileError → Prop) (e : CompileError)
    (c : Compiler) : Prop :=
  (∃ id, names.firstUnknown ms = some id ∧ e = ⟨.undefinedVariable id.name, id.loc.pos⟩) ∨
    Exceeds parts e c

/-- With tables for the names, the compilation goes through the mentions, and what it fails with
is their fault or that of a number out of range. -/
def Tracks (x : Compile α) (ms : List Mention) (parts : CompileError → Prop) : Prop :=
  ∀ c names, names.Describes c.context.tables →
    Sat x c (fun _ c' => Passed names ms c'.context.tables) (Faulty names ms parts)

theorem Passed.append {ts us : List Table} (h : Passed names ms ts)
    (h' : Passed (names.after ms) ns us) : Passed names (ms ++ ns) us := by
  refine ⟨?_, ?_, ?_⟩
  · rw [Names.firstUnknown_append, h.known, h'.known]
    rfl
  · rw [Names.after_append]
    exact h'.describes
  · rw [Names.after_append]
    exact h'.levels.trans h.levels

theorem Faulty.left (h : Faulty names ms parts e c) (ns : List Mention) :
    Faulty names (ms ++ ns) parts e c := by
  refine h.imp_left ?_
  rintro ⟨id, hid, he⟩
  refine ⟨id, ?_, he⟩
  rw [Names.firstUnknown_append, hid]
  rfl

theorem Faulty.right (hms : names.firstUnknown ms = none)
    (h : Faulty (names.after ms) ns parts e c) : Faulty names (ms ++ ns) parts e c := by
  refine h.imp_left ?_
  rintro ⟨id, hid, he⟩
  refine ⟨id, ?_, he⟩
  rw [Names.firstUnknown_append, hms, hid]
  rfl

namespace Tracks

/-- Go on with more mentions after those that have been passed. -/
theorem resume (hx : Tracks x ns parts) (h : Passed names ms c.context.tables) :
    Sat x c (fun _ c' => Passed names (ms ++ ns) c'.context.tables)
      (Faulty names (ms ++ ns) parts) :=
  (hx c _ h.describes).mono (fun _ _ => h.append) fun _ _ => .right h.known

theorem bind (hx : Tracks x ms parts) (hf : ∀ a, Tracks (f a) ns parts) :
    Tracks (x >>= f) (ms ++ ns) parts := by
  intro c names hnames
  refine (hx c names hnames).bind ?_ fun e c' h => h.left ns
  intro a c' hpassed
  exact (hf a).resume hpassed

/-- Something without mentions comes first. -/
theorem after (hx : Tracks x [] parts) (hf : ∀ a, Tracks (f a) ms parts) :
    Tracks (x >>= f) ms parts :=
  hx.bind hf

/-- Something without mentions comes last. -/
theorem before (hx : Tracks x ms parts) (hf : ∀ a, Tracks (f a) [] parts) :
    Tracks (x >>= f) ms parts := by
  rw [← List.append_nil ms]
  exact hx.bind hf

end Tracks

/-! ### Steps that leave names alone -/

/-- The compilation succeeds, and names and constants stay as they are. -/
def Silent (x : Compile α) : Prop := ∀ c, ∃ a c', x c = .ok a c' ∧ c'.context = c.context

theorem Silent.bind (hx : Silent x) (hf : ∀ a, Silent (f a)) : Silent (x >>= f) := by
  intro c
  obtain ⟨a, c', hxc, hc'⟩ := hx c
  obtain ⟨b, c'', hfc, hc''⟩ := hf a c'
  exact ⟨b, c'', (bind_of_ok hxc).trans hfc, hc''.trans hc'⟩

theorem silent_pure (a : α) : Silent (pure a) := fun c => ⟨a, c, rfl, rfl⟩

theorem silent_modifyDraft (g : Draft → Draft) : Silent (modifyDraft g) := fun _ => ⟨_, _, rfl, rfl⟩

theorem silent_emit (op : Opcode) (operands : List Nat) : Silent (emit op operands) :=
  silent_modifyDraft _

theorem silent_emitJump (op : Opcode) : Silent (emitJump op) := fun _ => ⟨_, _, rfl, rfl⟩

theorem silent_land (number : Nat) : Silent (land number) := silent_modifyDraft _

theorem silent_load (place : Place) : Silent (load place) := by
  cases place <;> exact silent_emit _ _

theorem silent_loadAll (symbols : List Symbol) : Silent (loadAll symbols) := by
  induction symbols with
  | nil => exact silent_pure ()
  | cons s rest ih => exact (silent_load s.place).bind fun _ => ih

theorem passed_nil {ts : List Table} (h : names.Describes ts) : Passed names [] ts := ⟨rfl, h, rfl⟩

theorem Silent.tracks (hx : Silent x) : Tracks x [] parts := by
  intro c names hnames
  obtain ⟨a, c', hxc, hc'⟩ := hx c
  unfold Sat
  rw [hxc]
  refine passed_nil ?_
  rwa [hc']

theorem tracks_emit (op : Opcode) (operands : List Nat) : Tracks (emit op operands) [] parts :=
  (silent_emit op operands).tracks

/-- The number of parts is checked. -/
theorem tracks_check {pos : Pos} {n width : Nat} {what : Quantity}
    (h : maxOperand width < n → parts ⟨.operandOverflow what, pos⟩) :
    Tracks (check pos n width what) [] parts := by
  intro c names hnames
  refine (check_sat fun hover => .inr (.part (h hover))).mono ?_ fun _ _ h => h
  rintro _ _ rfl
  exact passed_nil hnames

theorem constant_sat (pos : Pos) (make : Nat → Value) (c : Compiler) :
    Sat (constant pos make) c (fun _ c' => c'.context.tables = c.context.tables)
      (Exceeds parts) := by
  refine .step rfl (.step rfl (.check rfl fun hover => ?_))
  refine .constant ?_ hover
  rw [Compiler.constants_addConstant, Array.size_push]

theorem tracks_constant (pos : Pos) (make : Nat → Value) : Tracks (constant pos make) [] parts := by
  intro c names hnames
  refine (constant_sat pos make c).mono ?_ fun e c' h => .inr h
  intro n c' htables
  refine passed_nil ?_
  rwa [htables]

/-- The end of what has been drafted must be in range. -/
theorem tracks_jump (pos : Pos) :
    Tracks (do let d ← draft; check pos d.size 2 (.jump d.size)) [] parts := by
  intro c names hnames
  refine .step rfl ((check_sat fun hover => .inr (.jump hover)).mono ?_ fun _ _ h => h)
  rintro _ _ rfl
  exact passed_nil hnames

theorem tracks_operator {op? : Option Opcode} {pos : Pos} {text : Bytes} (hop : op? ≠ none) :
    Tracks (match op? with
      | some code => emit code []
      | none => fail pos (.unknownOperator text)) [] parts := by
  cases op? with
  | some code => exact tracks_emit code []
  | none => exact absurd rfl hop

/-! ### Names -/

theorem lookup_none {name : Bytes} (h : lookup name c = .ok none c') :
    resolve name c.context.tables = none := by
  replace h : c.resolve name = (none, c') := modifyGet_ok h
  cases hres : resolve name c.context.tables with
  | none => rfl
  | some r =>
    obtain ⟨c₁, hc₁, -⟩ := Compiler.resolve_eq_some hres
    rw [hc₁] at h
    cases h

/-- A name is refused if it is not known, and only then. -/
theorem tracks_ident (id : Ident) : Tracks (Expr.ident id).compile [.use id] parts := by
  intro c names hnames
  rw [Expr.compile]
  obtain ⟨place?, c', hlookup⟩ : ∃ place? c', lookup id.name c = .ok place? c' := ⟨_, _, rfl⟩
  refine .step hlookup ?_
  cases place? with
  | none =>
    have hnot := hnames.not_knows (lookup_none hlookup)
    refine .inl ⟨id, ?_, rfl⟩
    exact Names.firstUnknown_eq_some.2 ⟨[], [], rfl, rfl, hnot⟩
  | some place =>
    obtain ⟨hknows, hnames'⟩ := hnames.knows (lookup_ok hlookup).1
    have hpassed : Passed names [.use id] c'.context.tables := by
      refine ⟨?_, hnames', rfl⟩
      rw [Names.firstUnknown, Names.unknown?, if_pos hknows]
      rfl
    exact (silent_load place).tracks.resume hpassed

/-- The name is bound before its value is compiled. -/
theorem tracks_bind (loc : Loc) (id : Ident) {value : Expr}
    (hvalue : Tracks value.compile value.mentions parts) :
    Tracks (Stmt.bind loc id value).compile (.bind id.name :: value.mentions) parts := by
  intro c names hnames
  rw [Stmt.compile]
  obtain ⟨c₁, hdefine⟩ : ∃ c₁, define id.name c = .ok (c.scope.table.define id.name).1 c₁ :=
    ⟨_, rfl⟩
  obtain ⟨-, hcontext, -, -⟩ := define_ok hdefine
  have htable : c₁.scope.table = (c.scope.table.define id.name).2 := congrArg Context.table hcontext
  have hpassed : Passed names [.bind id.name] c₁.context.tables := by
    refine ⟨rfl, ?_, names.length_levels_bind id.name⟩
    rw [hcontext]
    exact hnames.define id.name
  have hstore (op : Opcode) (operands : List Nat) :
      Sat (do value.compile; emit op operands) c₁
        (fun _ c' => Passed names (.bind id.name :: value.mentions) c'.context.tables)
        (Faulty names (.bind id.name :: value.mentions) parts) :=
    (hvalue.before fun _ => tracks_emit op operands).resume hpassed
  obtain ⟨k, hk, -⟩ := c.scope.table.define_slot id.name
  have hslot : c₁.scope.table.find? id.name = some (c₁.scope.table.slot k) := by
    rw [htable, Table.define_find?, if_pos rfl, hk, Table.slot_congr (Table.define_enclosed _ _)]
  have henclosed : c₁.scope.table.enclosed = c.scope.table.enclosed := by
    rw [htable, Table.define_enclosed]
  refine .step hdefine ?_
  rw [hk, Table.slot]
  cases hplace : c.scope.table.enclosed with
  | true | false =>
    refine .check (hstore _ _) fun hover => .inr (.binding hslot ?_)
    rw [henclosed, hplace]
    exact hover

/-- A function is completed inside another one or inside the program. -/
theorem closeFunction_sat (parts : CompileError → Prop) (pos : Pos) (name : Bytes) (params : Nat)
    (hnames : names.Describes c.context.tables) (hlevels : names.levels ≠ []) :
    Sat (closeFunction pos name params) c
      (fun _ c' => (names.next .leave).Describes c'.context.tables) (Exceeds parts) := by
  have houter := hnames.leave hlevels
  cases hscopes : c.outer with
  | nil =>
    change (names.next .leave).Describes (c.outer.map (·.table)) at houter
    rw [hscopes] at houter
    exact absurd rfl houter.ne_nil
  | cons scope outer =>
    obtain ⟨c₁, hleave, hscope, houter', -⟩ :=
      exists_leave ((c.outer_modifyDraft Draft.close).trans hscopes)
    refine .step rfl (.step rfl (.check (.check (.step hleave ?_) .free) .locals))
    obtain ⟨_, c₂, hload, hc₂⟩ := silent_loadAll c.scope.table.free.toList c₁
    refine .step hload ((constant_sat pos _ c₂).bind ?_ fun _ _ h => h)
    intro number c₃ htables
    change (names.next .leave).Describes c₃.context.tables
    have htables' : c₃.context.tables = c.outer.map (·.table) := by
      rw [htables, hc₂, Context.tables, Compiler.context, hscope, houter', hscopes, List.map_cons]
    rw [htables']
    exact houter

theorem tracks_function {loc : Loc} {name : Bytes} {params : List Ident} {body : Block}
    (hbody : Tracks body.compile body.mentions parts)
    (hparams : maxOperand 1 < params.length →
      parts ⟨.operandOverflow (.params params.length), loc.pos⟩) :
    Tracks (Expr.function loc name params body).compile
      (Expr.function loc name params body).mentions parts := by
  rw [Expr.compile, Expr.mentions]
  refine .after (tracks_check hparams) fun _ => ?_
  intro c names hnames
  have hstart : names.firstUnknown [.enter name params] = none := rfl
  obtain ⟨c₀, henter⟩ := exists_enter name params c
  have hnames₀ : (names.enter name params).Describes c₀.context.tables := by
    rw [(enter_ok henter).1]
    exact hnames.enter name params
  refine .step henter ?_
  refine (hbody _ _ hnames₀).bind ?_ fun e c' h => (Faulty.right hstart h).left _
  intro _ c₁ hpassed
  have hinside : ((names.enter name params).after body.mentions).levels.length =
      names.levels.length + 1 := hpassed.levels
  have hlevels : ((names.enter name params).after body.mentions).levels ≠ [] := by
    rw [← List.length_pos_iff, hinside]
    exact Nat.succ_pos _
  refine (closeFunction_sat parts loc.pos name params.length hpassed.describes hlevels).mono ?_ ?_
  · intro _ c₂ hleft
    have hafter : names.after (.enter name params :: (body.mentions ++ [.leave])) =
        ((names.enter name params).after body.mentions).next .leave :=
      (names.enter name params).after_append body.mentions [.leave]
    refine ⟨?_, ?_, ?_⟩
    · have hknown : (names.enter name params).firstUnknown body.mentions = none := hpassed.known
      change (names.enter name params).firstUnknown (body.mentions ++ [.leave]) = none
      rw [Names.firstUnknown_append, hknown]
      rfl
    · rw [hafter]
      exact hleft
    · rw [hafter, Names.next, List.length_tail, hinside]
      rfl
  · exact fun e c₂ h => .inr h

/-! ### Lists of trees -/

theorem tracks_items {items : List Expr} (h : ∀ e ∈ items, Tracks e.compile e.mentions parts) :
    Tracks (compileItems items) (mentionsItems items) parts := by
  induction items with
  | nil => exact (silent_pure ()).tracks
  | cons e rest ih =>
    obtain ⟨he, hrest⟩ := List.forall_mem_cons.1 h
    rw [compileItems, mentionsItems]
    exact he.bind fun _ => ih hrest

theorem tracks_body {body : List Stmt} (h : ∀ s ∈ body, Tracks s.compile s.mentions parts) :
    Tracks (compileBody body) (mentionsBody body) parts := by
  induction body with
  | nil => exact (silent_pure ()).tracks
  | cons s rest ih =>
    obtain ⟨hs, hrest⟩ := List.forall_mem_cons.1 h
    rw [compileBody, mentionsBody]
    exact hs.bind fun _ => ih hrest

theorem tracks_block {b : Block} (h : ∀ s ∈ b.body, Tracks s.compile s.mentions parts) :
    Tracks b.compile b.mentions parts := by
  cases b with
  | mk loc body => exact tracks_body h

theorem tracks_else {no : Option Block}
    (h : ∀ s ∈ Block.elseBody no, Tracks s.compile s.mentions parts) :
    Tracks (compileElse no) (mentionsElse no) parts := by
  cases no with
  | none => exact tracks_emit _ _
  | some b => exact (tracks_block h).before fun _ => (silent_modifyDraft _).tracks

theorem tracks_runAll {pairs : List (Expr × Expr)}
    (hkeys : ∀ p ∈ pairs, Tracks p.1.compile p.1.mentions parts)
    (hvalues : ∀ p ∈ pairs, Tracks p.2.compile p.2.mentions parts) :
    Tracks (runAll (pairs.map fun p => (p.1.render, do p.1.compile; p.2.compile)))
      (pairs.flatMap fun p => p.1.mentions ++ p.2.mentions) parts := by
  induction pairs with
  | nil => exact (silent_pure ()).tracks
  | cons p rest ih =>
    obtain ⟨hkey, hkeys⟩ := List.forall_mem_cons.1 hkeys
    obtain ⟨hvalue, hvalues⟩ := List.forall_mem_cons.1 hvalues
    exact (hkey.bind fun _ => hvalue).bind fun _ => ih hkeys hvalues

/-! ### Trees -/

/-- The compilation of a whole tree keeps to its mentions. -/
theorem tree_tracks {x : Expr ⊕ Stmt} (h : Whole x)
    (hparts : ∀ node e, Within node x → Overloads node e → parts e) :
    Sum.elim (fun e : Expr => Tracks e.compile e.mentions parts)
      (fun s : Stmt => Tracks s.compile s.mentions parts) x := by
  -- By induction on the tree. What is within a part is within the whole, so the faults that the
  -- parts may have are among those of the whole.
  induction h with
  | ident id => exact tracks_ident id
  | int | string => exact (tracks_constant _ _).before fun _ => tracks_emit _ _
  | bool => exact tracks_emit _ _
  | unary loc hop _ ih =>
    have hright := ih fun n e hn => hparts n e (.operand hn)
    exact Tracks.before hright fun _ => tracks_operator hop
  | @binary loc op left right hop _ _ ihleft ihright =>
    have hleft := ihleft fun n e hn => hparts n e (.left hn)
    have hright := ihright fun n e hn => hparts n e (.right hn)
    change Tracks (Expr.compile _) (Expr.mentions _) _
    rw [Expr.compile, Expr.mentions]
    split
    · exact Tracks.bind hright fun _ => Tracks.before hleft fun _ => tracks_operator hop
    · exact Tracks.bind hleft fun _ => Tracks.before hright fun _ => tracks_operator hop
  | @cond loc test yes no _ _ _ ihtest ihyes ihno =>
    have htest := ihtest fun n e hn => hparts n e (.test hn)
    have hyes := tracks_block fun s hs => ihyes s hs fun n e hn => hparts n e (.yes hs hn)
    have hno := tracks_else fun s hs => ihno s hs fun n e hn => hparts n e (.no hs hn)
    change Tracks (Expr.compile _) (Expr.mentions _) _
    rw [Expr.compile, Expr.mentions]
    refine Tracks.bind htest fun _ => .after (silent_emitJump _).tracks fun _ => hyes.bind fun _ => ?_
    refine .after (silent_modifyDraft _).tracks fun _ => .after (silent_emitJump _).tracks fun _ => ?_
    refine .after (silent_land _).tracks fun _ => hno.before fun _ => ?_
    exact .after (silent_land _).tracks fun _ => tracks_jump loc.pos
  | function loc name params _ ih =>
    refine tracks_function (tracks_block fun s hs => ih s hs fun n e hn => ?_) fun hover => ?_
    · exact hparts n e (.function hs hn)
    · exact hparts _ _ .self (.params hover)
  | @call loc callee args _ _ ihcallee ihargs =>
    have hcallee := ihcallee fun n e hn => hparts n e (.callee hn)
    have hargs := tracks_items fun a ha => ihargs a ha fun n e hn => hparts n e (.arg ha hn)
    change Tracks (Expr.compile _) (Expr.mentions _) _
    rw [Expr.compile, Expr.mentions]
    refine .after (tracks_check fun hover => hparts _ _ .self (.call hover)) fun _ => ?_
    exact Tracks.bind hcallee fun _ => hargs.before fun _ => tracks_emit _ _
  | @array loc items _ ih =>
    have hitems := tracks_items fun a ha => ih a ha fun n e hn => hparts n e (.item ha hn)
    change Tracks (Expr.compile _) (Expr.mentions _) _
    rw [Expr.compile, Expr.mentions]
    refine .after (tracks_check fun hover => hparts _ _ .self (.array hover)) fun _ => ?_
    exact hitems.before fun _ => tracks_emit _ _
  | @hash loc pairs hkeys _ ihkeys ihvalues =>
    have hordered : ¬(2 ≤ pairs.length ∧ pairs.any (fun p => !p.1.renderable) = true) := by
      rintro ⟨-, hany⟩
      obtain ⟨p, hp, hhole⟩ := List.any_eq_true.1 hany
      have hkey : p.1.renderable = true := (hkeys p hp).renderable
      simp [hkey] at hhole
    change Tracks (Expr.compile _) (Expr.mentions _) _
    rw [Expr.compile, Expr.mentions, mentionsPairs_inOrder]
    refine .after (tracks_check fun hover => hparts _ _ .self (.hash hover)) fun _ => ?_
    rw [if_neg hordered, compilePairs_eq, List.reverse_nil, List.nil_append, Expr.mergeSort_keyed]
    refine (tracks_runAll ?_ ?_).before fun _ => tracks_emit _ _
    · intro p hp
      exact ihkeys p (Expr.mem_inOrder.1 hp) fun n e hn => hparts n e (.key (Expr.mem_inOrder.1 hp) hn)
    · intro p hp
      exact ihvalues p (Expr.mem_inOrder.1 hp) fun n e hn =>
        hparts n e (.value (Expr.mem_inOrder.1 hp) hn)
  | index loc _ _ ihleft ihindex =>
    have hleft := ihleft fun n e hn => hparts n e (.indexed hn)
    have hindex := ihindex fun n e hn => hparts n e (.index hn)
    exact Tracks.bind hleft fun _ => Tracks.before hindex fun _ => tracks_emit _ _
  | bind loc id _ ih => exact tracks_bind loc id (ih fun n e hn => hparts n e (.bind hn))
  | retNone => exact tracks_emit _ _
  | ret loc _ ih =>
    have hvalue := ih fun n e hn => hparts n e (.ret hn)
    exact Tracks.before hvalue fun _ => tracks_emit _ _
  | expr loc _ ih =>
    have hvalue := ih fun n e hn => hparts n e (.expr hn)
    exact Tracks.before hvalue fun _ => tracks_emit _ _
  | block _ ih => exact tracks_block fun s hs => ih s hs fun n e hn => hparts n e (.block hs hn)

end Compile

/-- The fault is that an expression of the program has more parts than can be counted. -/
def Program.Overloaded (p : Program) (e : CompileError) : Prop :=
  ∃ s ∈ p.body, ∃ node, Within node (.inr s) ∧ Overloads node e

/-- The compilation of a whole program ends at the first name that is not known, unless a number is
out of range before, and succeeds if there is none. -/
theorem Program.compile_sat {p : Program} {names : Names} {c : Compiler}
    (hwhole : ∀ s ∈ p.body, Whole (.inr s)) (hnames : names.Describes c.context.tables) :
    Compile.Sat p.compile c (fun _ _ => names.firstUnknown p.mentions = none)
      (Compile.Faulty names p.mentions p.Overloaded) := by
  have htracks : Compile.Tracks p.compile p.mentions p.Overloaded := by
    refine Compile.tracks_body fun s hs => Compile.tree_tracks (hwhole s hs) ?_
    exact fun node e hnode hover => ⟨s, hs, node, hnode, hover⟩
  exact (htracks c names hnames).mono (fun _ _ h => h.known) fun _ _ h => h

/-- Numbers out of range are reported as such. -/
theorem Compile.Exceeds.exists_cause {p : Program} {e : CompileError} {c : Compiler}
    (h : Exceeds p.Overloaded e c) : ∃ what, e.cause = .operandOverflow what := by
  cases h with
  | part h =>
    obtain ⟨s, -, node, -, hover⟩ := h
    cases hover <;> exact ⟨_, rfl⟩
  | binding | locals | free | constant | jump => exact ⟨_, rfl⟩

end StackScript
