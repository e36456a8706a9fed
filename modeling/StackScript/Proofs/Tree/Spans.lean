import StackScript.Proofs.Tree.Calls
import StackScript.Proofs.Tree.Recovery

/-!
# Where nodes stand

Every node of a tree that was read has its parts inside the stretch of source
that it covers, one after the other, and so has its own position in it. A name
or a literal stands at the token that spells it. This holds of trees with faults
around them as well, since a reader only ever goes forward: what it yields lies
between the token where it started and the token where it stopped.

## Main definitions

* `Node`: the nodes of a tree, of whatever kind, with the parts of each in source order.
* `Node.Nested`: the node and all below it stand where they should.
* `Row`: nodes that stand one after the other between two offsets.

## Main results

* `Parse.laid`: what each reader yields lies between where it starts and where it stops.
* `Program.parse_nested`: the tree of every source is nested.
-/

namespace StackScript

/-- A node of a tree. -/
inductive Node
  | program (p : Program)
  | stmt (s : Stmt)
  | block (b : Block)
  | expr (e : Expr)
  | ident (id : Ident)

namespace Node

/-- Where the node stands. -/
def loc : Node → Loc
  | .program p => ⟨p.pos, p.span⟩
  | .stmt s => s.loc
  | .block b => b.loc
  | .expr e => e.loc
  | .ident id => id.loc

/-- The offset where the node starts. -/
def start (n : Node) : Int := n.loc.span.start.offset

/-- The offset of the last token of the node. -/
def stop (n : Node) : Int := n.loc.span.stop.offset

/-- A key and its value. -/
def pair (p : Expr × Expr) : List Node := [.expr p.1, .expr p.2]

/-- The parts of the node, in the order of the source. -/
def children : Node → List Node
  | .program p => p.body.map .stmt
  | .stmt (.bind _ id value) => [.ident id, .expr value]
  | .stmt (.ret _ value) => value.toList.map .expr
  | .stmt (.expr _ value) => [.expr value]
  | .stmt (.block b) | .block b => b.body.map .stmt
  | .expr (.unary _ _ right) => [.expr right]
  | .expr (.binary _ _ left right) => [.expr left, .expr right]
  | .expr (.cond _ test yes no) => [.expr test, .block yes] ++ no.toList.map .block
  | .expr (.function _ _ params body) => params.map .ident ++ [.block body]
  | .expr (.call _ callee args) => .expr callee :: args.map .expr
  | .expr (.array _ items) => items.map .expr
  | .expr (.hash _ pairs) => pairs.flatMap pair
  | .expr (.index _ left index) => [.expr left, .expr index]
  | .expr (.ident _) | .expr (.int ..) | .expr (.string ..) | .expr (.bool ..) | .expr .missing
  | .stmt .missing | .ident _ => []

/-- One of the tokens is of the kind, has the literal and stands at the place. -/
def AtToken (ts : List Token) (kind : Token.Kind) (literal : Bytes) (loc : Loc) : Prop :=
  ∃ t ∈ ts, t.kind = kind ∧ t.literal = literal ∧ loc = .token t.pos

/-- If the node is a name or a literal, it stands at a token that spells it. -/
def Spelled (ts : List Token) : Node → Prop
  | .ident id | .expr (.ident id) => AtToken ts .ident id.name id.loc
  | .expr (.int loc literal _) => AtToken ts .int literal loc
  | .expr (.string loc value) => AtToken ts .string value loc
  | .expr (.bool loc value) =>
    ∃ t ∈ ts, t.kind = (if value then .trueKw else .falseKw) ∧ loc = .token t.pos
  | _ => True

/-- The node has its position and its parts within its stretch, and the parts do not overlap. -/
structure Orderly (ts : List Token) (n : Node) : Prop where
  start_le_pos : n.start ≤ n.loc.pos.offset
  pos_le_stop : n.loc.pos.offset ≤ n.stop
  start_le_stop : n.start ≤ n.stop
  within : ∀ c ∈ n.children, n.start ≤ c.start ∧ c.stop ≤ n.stop
  apart : n.children.Pairwise fun c c' => c.stop ≤ c'.start
  spelled : n.Spelled ts

/-- The node and all nodes below it are orderly. -/
inductive Nested (ts : List Token) : Node → Prop
  | mk {n : Node} : n.Orderly ts → (∀ c ∈ n.children, c.Nested ts) → n.Nested ts

/-- The node is nested and stands between the two offsets. -/
structure Between (ts : List Token) (lo hi : Int) (n : Node) : Prop where
  nested : n.Nested ts
  lo_le : lo ≤ n.start
  le_hi : n.stop ≤ hi

theorem Nested.orderly {ts : List Token} {n : Node} (h : n.Nested ts) : n.Orderly ts := by
  cases h with
  | mk horderly _ => exact horderly

theorem Nested.children {ts : List Token} {n : Node} (h : n.Nested ts) :
    ∀ c ∈ n.children, c.Nested ts := by
  cases h with
  | mk _ hchildren => exact hchildren

variable {ts : List Token} {lo lo' hi hi' : Int} {n : Node}

theorem Between.mono (h : n.Between ts lo hi) (hlo : lo' ≤ lo) (hhi : hi ≤ hi') :
    n.Between ts lo' hi' :=
  ⟨h.nested, Int.le_trans hlo h.lo_le, Int.le_trans h.le_hi hhi⟩

/-- There is room for a node between the offsets. -/
theorem Between.le (h : n.Between ts lo hi) : lo ≤ hi :=
  Int.le_trans h.lo_le (Int.le_trans h.nested.orderly.start_le_stop h.le_hi)

/-- The name that a function gets from its let does not matter. -/
theorem Between.named {e : Expr} (h : (Node.expr e).Between ts lo hi) (name : Bytes) :
    (Node.expr (e.named name)).Between ts lo hi := by
  cases e with
  | function loc own params body =>
    obtain ⟨⟨horderly, hchildren⟩, hlo, hhi⟩ := h
    exact ⟨⟨⟨horderly.1, horderly.2, horderly.3, horderly.4, horderly.5, trivial⟩, hchildren⟩,
      hlo, hhi⟩
  | _ => exact h

end Node

/-- The nodes stand one after the other between the two offsets. -/
structure Row (ts : List Token) (lo hi : Int) (ns : List Node) : Prop where
  between : ∀ n ∈ ns, n.Between ts lo hi
  apart : ns.Pairwise fun n n' => n.stop ≤ n'.start

namespace Row

variable {ts : List Token} {lo lo' mid hi hi' : Int} {n : Node} {ns : List Node}

theorem nil : Row ts lo hi [] := ⟨List.forall_mem_nil _, .nil⟩

theorem mono (h : Row ts lo hi ns) (hlo : lo' ≤ lo) (hhi : hi ≤ hi') : Row ts lo' hi' ns :=
  ⟨fun n hn => (h.between n hn).mono hlo hhi, h.apart⟩

/-- One more node stands after the others. -/
theorem snoc (h : Row ts lo hi ns) (hn : n.Between ts mid hi') (hlo : lo ≤ mid) (hmid : hi ≤ mid) :
    Row ts lo hi' (ns ++ [n]) where
  between := by
    refine List.forall_mem_append.2 ⟨fun m hm => ?_, List.forall_mem_singleton.2 ?_⟩
    · exact (h.between m hm).mono (Int.le_refl _) (Int.le_trans hmid hn.le)
    · exact hn.mono hlo (Int.le_refl _)
  apart := by
    refine List.pairwise_append.2 ⟨h.apart, List.pairwise_singleton _ _, fun m hm m' hm' => ?_⟩
    obtain rfl := List.mem_singleton.1 hm'
    exact Int.le_trans (h.between m hm).le_hi (Int.le_trans hmid hn.lo_le)

/-- One more node stands before the others. -/
theorem cons (hn : n.Between ts lo mid) (h : Row ts mid hi ns) (hmid : mid ≤ hi) :
    Row ts lo hi (n :: ns) where
  between := List.forall_mem_cons.2
    ⟨hn.mono (Int.le_refl _) hmid, fun m hm => (h.between m hm).mono hn.le (Int.le_refl _)⟩
  apart := List.pairwise_cons.2
    ⟨fun m hm => Int.le_trans hn.le_hi (h.between m hm).lo_le, h.apart⟩

theorem one (hn : n.Between ts lo hi) : Row ts lo hi [n] :=
  ⟨List.forall_mem_singleton.2 hn, List.pairwise_singleton _ _⟩

theorem two {n' : Node} (hn : n.Between ts lo mid) (hn' : n'.Between ts mid hi) :
    Row ts lo hi [n, n'] :=
  (one hn).snoc hn' hn.le (Int.le_refl _)

/-- A row of parts is what a node needs. -/
theorem nested (h : Row ts n.start n.stop n.children) (hstart : n.start ≤ n.loc.pos.offset)
    (hstop : n.loc.pos.offset ≤ n.stop) (hspelled : n.Spelled ts) : n.Nested ts := by
  refine ⟨⟨hstart, hstop, Int.le_trans hstart hstop, fun c hc => ?_, h.apart, hspelled⟩, ?_⟩
  · exact ⟨(h.between c hc).lo_le, (h.between c hc).le_hi⟩
  · exact fun c hc => (h.between c hc).nested

/-- Such a node stands between two offsets if its ends do. -/
theorem between_of_loc {m p q : Pos} (hloc : n.loc = ⟨m, ⟨p, q⟩⟩) (hspelled : n.Spelled ts)
    (h : Row ts p.offset q.offset n.children) (hpm : p.offset ≤ m.offset)
    (hmq : m.offset ≤ q.offset) (hlo : lo ≤ p.offset) (hhi : q.offset ≤ hi) :
    n.Between ts lo hi := by
  have hstart : n.start = p.offset := by rw [Node.start, hloc]
  have hstop : n.stop = q.offset := by rw [Node.stop, hloc]
  have hpos : n.loc.pos.offset = m.offset := by rw [hloc]
  rw [← hstart, ← hstop] at h
  exact ⟨h.nested (by omega) (by omega) hspelled, by omega, by omega⟩

/-- A row reaches from its first node to its last one. -/
theorem tight (h : Row ts lo hi (n :: ns)) :
    Row ts n.start ((n :: ns).getLast (List.cons_ne_nil n ns)).stop (n :: ns) where
  between := by
    intro m hm
    have hnested (m : Node) (hm : m ∈ n :: ns) := (h.between m hm).nested
    refine ⟨hnested m hm, ?_, ?_⟩
    · obtain rfl | hm' := List.mem_cons.1 hm
      · exact Int.le_refl _
      · exact Int.le_trans (hnested n List.mem_cons_self).orderly.start_le_stop
          (List.rel_of_pairwise_cons h.apart hm')
    · have hsplit := List.dropLast_append_getLast (List.cons_ne_nil n ns)
      have hapart := h.apart
      rw [← hsplit] at hm hapart
      obtain hm' | hm' := List.mem_append.1 hm
      · refine Int.le_trans ((List.pairwise_append.1 hapart).2.2 m hm' _ List.mem_cons_self) ?_
        exact (hnested _ (List.getLast_mem _)).orderly.start_le_stop
      · exact Int.le_of_eq (congrArg Node.stop (List.mem_singleton.1 hm'))
  apart := h.apart

/-- A program stretches over the row of its statements. -/
theorem nested_program {body : List Stmt} (h : Row ts lo hi (body.map .stmt)) :
    (Node.program (.ofBody body)).Nested ts := by
  cases body with
  | nil => exact nested .nil (Int.le_refl _) (Int.le_refl _) trivial
  | cons first rest =>
    have hlast : (Node.program (.ofBody (first :: rest))).stop =
        (((first :: rest).map Node.stmt).getLast (List.cons_ne_nil _ _)).stop := by
      rw [List.getLast_map]
      simp only [Node.stop, Node.loc, Program.ofBody, List.head?_cons,
        List.getLast?_eq_some_getLast, List.cons_ne_nil, ne_eq, not_false_eq_true]
    have hfirst : (Node.stmt first).Between ts lo hi := h.between _ List.mem_cons_self
    have htight := h.tight
    refine nested (hlast ▸ htight) hfirst.nested.orderly.start_le_pos ?_ trivial
    rw [hlast]
    exact Int.le_trans hfirst.nested.orderly.pos_le_stop (htight.between _ List.mem_cons_self).le_hi

end Row

namespace Parse

variable {α β : Type}

/-! ### Offsets along a stream -/

/-- The offset of the current token. -/
def Stream.here (s : Stream) : Int := (s.tokens.headD s.eof).pos.offset

/-- The tokens of the stream come in the order of the source. -/
structure Stream.Sorted (s : Stream) : Prop where
  offsets : (s.tokens ++ [s.eof]).Pairwise fun t u => t.pos.offset ≤ u.pos.offset
  eof : s.eof.kind = .eof

section

variable {o s s' : Stream}

theorem Stream.Sorted.forward (ho : o.Sorted) (hs : o.Forward s) : s.Sorted := by
  refine ⟨?_, hs.eof ▸ ho.eof⟩
  obtain ⟨passed, hpassed⟩ := hs.tokens
  have hoffsets := ho.offsets
  rw [← hpassed, List.append_assoc, ← hs.eof] at hoffsets
  exact (List.pairwise_append.1 hoffsets).2.1

/-- Later tokens have greater offsets. -/
theorem Stream.Sorted.here_le (ho : o.Sorted) (hs : o.Forward s) : o.here ≤ s.here := by
  have hmem : s.tokens.headD s.eof ∈ s.tokens ++ [s.eof] := by
    cases s.tokens <;> simp
  obtain ⟨passed, hpassed⟩ := hs.tokens
  cases passed with
  | nil =>
    rw [List.nil_append] at hpassed
    have hhere : o.here = s.here := by rw [Stream.here, Stream.here, hpassed, hs.eof]
    exact Int.le_of_eq hhere
  | cons t passed =>
    have hoffsets := ho.offsets
    rw [← hpassed, List.append_assoc, ← hs.eof] at hoffsets
    rw [Stream.here, Stream.here, ← hpassed]
    exact List.rel_of_pairwise_cons hoffsets (List.mem_append_right _ hmem)

/-- A token that is not the end is one of the tokens. -/
theorem Stream.Sorted.mem_tokens (ho : o.Sorted) (hs : o.Forward s)
    (hkind : (s.tokens.headD s.eof).kind ≠ .eof) : s.tokens.headD s.eof ∈ o.tokens := by
  refine hs.tokens.subset ?_
  cases htokens : s.tokens with
  | nil =>
    rw [htokens, List.headD_nil, hs.eof] at hkind
    exact absurd ho.eof hkind
  | cons t ts => exact List.mem_cons_self

end

/-- What holds of all that the reader yields here, and of the offset where it stops. -/
def Lays (x : Parse α) (s : Stream) (Q : α → Int → Prop) : Prop :=
  ∀ a s', x s = (some a, s') → Q a s'.here

namespace Lays

variable {o s : Stream} {x : Parse α} {Q : α → Int → Prop} {R : β → Int → Prop}

theorem pure {a : α} (h : Q a s.here) : Lays (Pure.pure a) s Q := by
  intro b s' hb
  cases hb
  exact h

theorem fail : Lays fail s Q := by
  intro a s' h
  cases h

theorem ite {p : Prop} [Decidable p] {y : Parse α} (hx : p → Lays x s Q) (hy : ¬p → Lays y s Q) :
    Lays (if p then x else y) s Q := by
  split
  · next hp => exact hx hp
  · next hp => exact hy hp

theorem current {f : Token → Parse β} (h : Lays (f (s.tokens.headD s.eof)) s R) :
    Lays (current >>= f) s R :=
  h

theorem peek {f : Token → Parse β} (h : Lays (f (s.tokens.tail.headD s.eof)) s R) :
    Lays (peek >>= f) s R :=
  h

theorem ident {f : Ident → Parse β}
    (h : Lays (f ⟨.token (s.tokens.headD s.eof).pos, (s.tokens.headD s.eof).literal⟩) s R) :
    Lays (ident >>= f) s R :=
  h

variable (ho : o.Sorted) (hs : o.Forward s)

include ho hs

theorem bind {f : α → Parse β} [hmoves : Moves Stream.Forward x] (hx : Lays x s Q)
    (hf : ∀ a s', o.Forward s' → s.here ≤ s'.here → Q a s'.here → Lays (f a) s' R) :
    Lays (x >>= f) s R := by
  intro b s' h
  have hforward := hmoves.moves s
  cases hresult : x s with
  | mk r s₁ =>
    rw [hresult] at hforward
    cases r with
    | none =>
      rw [bind_none hresult] at h
      cases h
    | some a =>
      rw [bind_some hresult] at h
      exact hf a s₁ (Motion.trans hs hforward) ((ho.forward hs).here_le hforward)
        (hx a s₁ hresult) b s' h

/-- What was yielded before does not matter. -/
theorem after {f : α → Parse β} [hmoves : Moves Stream.Forward x]
    (hf : ∀ a s', o.Forward s' → s.here ≤ s'.here → Lays (f a) s' R) : Lays (x >>= f) s R :=
  bind ho hs (Q := fun _ _ => True) (fun _ _ _ => trivial) fun a s' hs' hle _ => hf a s' hs' hle

/-- A step may be left out. -/
theorem optional {p : Prop} [Decidable p] {x : Parse Unit} {f : Unit → Parse β}
    [hmoves : Moves Stream.Forward x]
    (hf : ∀ s', o.Forward s' → s.here ≤ s'.here → Lays (f ()) s' R) :
    Lays (if p then x >>= f else f ()) s R :=
  ite (fun _ => after ho hs fun _ => hf) fun _ => hf s hs (Int.le_refl _)

theorem attempt {f : Option α → Parse β} [hmoves : Moves Stream.Forward x] (hx : Lays x s Q)
    (hf : ∀ r s', o.Forward s' → s.here ≤ s'.here → (∀ a ∈ r, Q a s'.here) → Lays (f r) s' R) :
    Lays (attempt x >>= f) s R := by
  refine bind ho hs (Q := fun r here => ∀ a ∈ r, Q a here) (fun r s' h a ha => ?_) hf
  cases hresult : x s with
  | mk r' s₁ =>
    rw [attempt_eq hresult] at h
    cases h
    exact hx a _ (hresult.trans (by rw [Option.mem_def.1 ha]))

theorem advance {f : Unit → Parse β}
    (hf : ∀ s', o.Forward s' → s.here ≤ s'.here →
      s'.tokens.headD s'.eof = s.tokens.tail.headD s.eof → Lays (f ()) s' R) :
    Lays (advance >>= f) s R :=
  hf _ (Motion.trans hs (Motion.advance s)) ((ho.forward hs).here_le (Motion.advance s)) rfl

theorem expect {f : Unit → Parse β} {kind : Token.Kind}
    (hf : ∀ s', o.Forward s' → s.here ≤ s'.here → (s'.tokens.headD s'.eof).kind = kind →
      Lays (f ()) s' R) : Lays (expect kind >>= f) s R := by
  intro b s' h
  by_cases hnext : (s.tokens.tail.headD s.eof).kind = kind
  · rw [bind_some (expect_of_kind hnext)] at h
    exact hf _ (Motion.trans hs (Motion.advance s)) ((ho.forward hs).here_le (Motion.advance s))
      hnext b s' h
  · rw [bind_none (expect_of_ne hnext)] at h
    cases h

end Lays

/-! ### What each reader yields -/

/-- What a reader yields lies between where it starts and where it stops, or goes on with what was
read before. -/
structure Laid (o : Stream) (again : Answers) : Prop where
  moreParams {s : Stream} (hs : o.Forward s) {lo : Int} {acc : List Ident}
    (hacc : Row o.tokens lo s.here (acc.reverse.map .ident)) (hlo : lo ≤ s.here) :
    Lays (again _ (.moreParams acc)) s fun ps hi => Row o.tokens lo hi (ps.map .ident)
  expr {s : Stream} (hs : o.Forward s) (precedence : Nat) :
    Lays (again _ (.expr precedence)) s fun e hi => (Node.expr e).Between o.tokens s.here hi
  primary {s : Stream} (hs : o.Forward s) :
    Lays (again _ .primary) s fun e hi => (Node.expr e).Between o.tokens s.here hi
  unary {s : Stream} (hs : o.Forward s) {pos : Pos} (hpos : pos.offset = s.here) (op : UnaryOp) :
    Lays (again _ (.unary pos op)) s fun e hi => (Node.expr e).Between o.tokens s.here hi
  conditional {s : Stream} (hs : o.Forward s) {pos : Pos} (hpos : pos.offset = s.here) :
    Lays (again _ (.conditional pos)) s fun e hi => (Node.expr e).Between o.tokens s.here hi
  operators {s : Stream} (hs : o.Forward s) (precedence : Nat) {lo : Int} {left : Expr}
    (hleft : (Node.expr left).Between o.tokens lo s.here) :
    Lays (again _ (.operators precedence left)) s fun e hi => (Node.expr e).Between o.tokens lo hi
  list {s : Stream} (hs : o.Forward s) (close : Token.Kind) :
    Lays (again _ (.list close)) s fun es hi => Row o.tokens s.here hi (es.map .expr)
  moreItems {s : Stream} (hs : o.Forward s) (close : Token.Kind) {lo : Int} {acc : List Expr}
    (hacc : Row o.tokens lo s.here (acc.reverse.map .expr)) (hlo : lo ≤ s.here) :
    Lays (again _ (.moreItems close acc)) s fun es hi => Row o.tokens lo hi (es.map .expr)
  pairs {s : Stream} (hs : o.Forward s) {lo : Int} {acc : List (Expr × Expr)}
    (hacc : Row o.tokens lo s.here (acc.reverse.flatMap Node.pair)) (hlo : lo ≤ s.here) :
    Lays (again _ (.pairs acc)) s fun ps hi => Row o.tokens lo hi (ps.flatMap Node.pair)
  block {s : Stream} (hs : o.Forward s) :
    Lays (again _ .block) s fun b hi => (Node.block b).Between o.tokens s.here hi
  statements {s : Stream} (hs : o.Forward s) (inBlock : Bool) {lo : Int} {acc : List Stmt}
    (hacc : Row o.tokens lo s.here (acc.reverse.map .stmt)) (hlo : lo ≤ s.here) :
    Lays (again _ (.statements inBlock acc)) s fun ss hi => Row o.tokens lo hi (ss.map .stmt)
  statement {s : Stream} (hs : o.Forward s) :
    Lays (again _ .statement) s fun st hi => (Node.stmt st).Between o.tokens s.here hi

section

variable {n : Node} {ts : List Token} {s : Stream}

/-- A token is a node of its own, if its kind says so. -/
theorem between_token (hloc : n.loc = .token (s.tokens.headD s.eof).pos)
    (hchildren : n.children = []) (hspelled : n.Spelled ts) : n.Between ts s.here s.here := by
  have hrow : Row ts s.here s.here n.children := hchildren ▸ .nil
  exact hrow.between_of_loc hloc hspelled (Int.le_refl _) (Int.le_refl _) (Int.le_refl _)
    (Int.le_refl _)

/-- A node may stand at its first token and reach up to the current one. -/
theorem between_run {lo : Int} {p : Pos} (hloc : n.loc = .run p (s.tokens.headD s.eof).pos)
    (hspelled : n.Spelled ts) (hp : p.offset = lo) (h : Row ts lo s.here n.children)
    (hle : lo ≤ s.here) : n.Between ts lo s.here := by
  subst hp
  exact h.between_of_loc hloc hspelled (Int.le_refl _) hle (Int.le_refl _) (Int.le_refl _)

/-- It may also reach as far as its only part does. -/
theorem between_part {m : Node} {lo mid hi : Int} {p : Pos}
    (hloc : n.loc = .run p m.loc.span.stop) (hspelled : n.Spelled ts) (hchildren : n.children = [m])
    (hp : p.offset = lo) (h : m.Between ts mid hi) (hle : lo ≤ mid) : n.Between ts lo hi := by
  subst hp
  have hrow : Row ts p.offset m.stop n.children :=
    hchildren ▸ .one ⟨h.nested, Int.le_trans hle h.lo_le, Int.le_refl _⟩
  refine hrow.between_of_loc hloc hspelled (Int.le_refl _) ?_ (Int.le_refl _) h.le_hi
  exact Int.le_trans hle (Int.le_trans h.lo_le h.nested.orderly.start_le_stop)

/-- A node whose own token stands after its first part starts where that part does. -/
theorem between_infix {m : Node} {parts : List Node} {lo mid hi : Int} {t q : Pos}
    (hloc : n.loc = ⟨t, ⟨m.loc.span.start, q⟩⟩) (hspelled : n.Spelled ts)
    (hchildren : n.children = m :: parts) (hm : m.Between ts lo mid) (hmid : mid ≤ t.offset)
    (hparts : Row ts t.offset q.offset parts) (htq : t.offset ≤ q.offset) (hhi : q.offset ≤ hi) :
    n.Between ts lo hi := by
  have hfirst : m.Between ts m.start t.offset :=
    ⟨hm.nested, Int.le_refl _, Int.le_trans hm.le_hi hmid⟩
  have hrow : Row ts m.start q.offset n.children := hchildren ▸ hparts.cons hfirst htq
  exact hrow.between_of_loc hloc hspelled hfirst.le htq hm.lo_le hhi

end

namespace Laid

variable {o s : Stream} {again : Answers} (ho : o.Sorted) (h : Laid o again)

include ho

theorem between_ident (hs : o.Forward s) (hkind : (s.tokens.headD s.eof).kind = .ident) :
    (Node.ident ⟨.token (s.tokens.headD s.eof).pos, (s.tokens.headD s.eof).literal⟩).Between
      o.tokens s.here s.here :=
  between_token rfl rfl ⟨_, ho.mem_tokens hs (by rw [hkind]; decide), hkind, rfl, rfl⟩

include h

theorem moreParams_body (hs : o.Forward s) {lo : Int} {acc : List Ident}
    (hacc : Row o.tokens lo s.here (acc.reverse.map .ident)) (hlo : lo ≤ s.here) :
    Lays ((Call.moreParams acc).body again) s fun ps hi => Row o.tokens lo hi (ps.map .ident) := by
  refine .peek (.ite (fun _ => ?_) fun _ => ?_)
  · refine .advance ho hs fun s₁ hs₁ hle₁ _ => .expect ho hs₁ fun s₂ hs₂ hle₂ hkind => .ident ?_
    refine h.moreParams hs₂ ?_ (by omega)
    rw [List.reverse_cons, List.map_append]
    exact hacc.snoc (between_ident ho hs₂ hkind) (by omega) (by omega)
  · exact .expect ho hs fun s₁ hs₁ hle₁ _ => .pure (hacc.mono (Int.le_refl _) hle₁)

theorem params_body (hs : o.Forward s) :
    Lays (paramsBy again) s fun ps hi => Row o.tokens s.here hi (ps.map .ident) := by
  refine .peek (.ite (fun _ => .advance ho hs fun s₁ hs₁ hle₁ _ => .pure .nil) fun _ => ?_)
  refine .expect ho hs fun s₁ hs₁ hle₁ hkind => .ident (h.moreParams hs₁ ?_ hle₁)
  exact .one ((between_ident ho hs₁ hkind).mono hle₁ (Int.le_refl _))

variable [hagain : ∀ β (c : Call β), Moves Stream.Forward (again β c)]

theorem expr_body (hs : o.Forward s) (precedence : Nat) :
    Lays ((Call.expr precedence).body again) s
      fun e hi => (Node.expr e).Between o.tokens s.here hi := by
  refine .bind ho hs (h.primary hs) fun left s₁ hs₁ _ hleft => ?_
  exact h.operators hs₁ precedence hleft

theorem primary_body (hs : o.Forward s) :
    Lays (Call.primary.body again) s fun e hi => (Node.expr e).Between o.tokens s.here hi := by
  refine .current ?_
  have hmem {kind : Token.Kind} (hkind : (s.tokens.headD s.eof).kind = kind) (hne : kind ≠ .eof) :=
    ho.mem_tokens hs (hkind ▸ hne)
  split
  · next hkind =>
    exact .ident (.pure (between_token rfl rfl ⟨_, hmem hkind (by decide), hkind, rfl, rfl⟩))
  · next hkind =>
    refine .current (.ite (fun _ => .pure ?_) fun _ => .after ho hs fun _ _ _ _ => .fail)
    exact between_token rfl rfl ⟨_, hmem hkind (by decide), hkind, rfl, rfl⟩
  · next hkind =>
    exact .pure (between_token rfl rfl ⟨_, hmem hkind (by decide), hkind, rfl, rfl⟩)
  · next hkind => exact .pure (between_token rfl rfl ⟨_, hmem hkind (by decide), hkind, rfl⟩)
  · next hkind => exact .pure (between_token rfl rfl ⟨_, hmem hkind (by decide), hkind, rfl⟩)
  · exact h.unary hs rfl .not
  · exact h.unary hs rfl .neg
  · refine .advance ho hs fun s₁ hs₁ hle₁ _ => ?_
    refine .attempt ho hs₁ (h.expr hs₁ _) fun e s₂ hs₂ hle₂ he => ?_
    refine .expect ho hs₂ fun s₃ hs₃ hle₃ _ => ?_
    cases e with
    | some e => exact .pure ((he e rfl).mono hle₁ hle₃)
    | none => exact .fail
  · exact h.conditional hs rfl
  · refine .expect ho hs fun s₁ hs₁ hle₁ _ => ?_
    refine .bind ho hs₁ (h.params_body ho hs₁) fun ps s₂ hs₂ hle₂ hps => ?_
    refine .expect ho hs₂ fun s₃ hs₃ hle₃ _ => ?_
    refine .bind ho hs₃ (h.block hs₃) fun body s₄ hs₄ hle₄ hbody => .current (.pure ?_)
    refine between_run rfl trivial rfl ?_ (by omega)
    exact (hps.mono hle₁ (Int.le_refl _)).snoc hbody (by omega) hle₃
  · refine .bind ho hs (h.list hs _) fun items s₁ hs₁ hle₁ hitems => .current (.pure ?_)
    exact between_run rfl trivial rfl hitems hle₁
  · refine .bind ho hs (h.pairs hs .nil (Int.le_refl _)) fun ps s₁ hs₁ hle₁ hps =>
      .current (.pure ?_)
    exact between_run rfl trivial rfl hps hle₁
  · exact .after ho hs fun _ _ _ _ => .fail

theorem unary_body (hs : o.Forward s) {pos : Pos} (hpos : pos.offset = s.here) (op : UnaryOp) :
    Lays ((Call.unary pos op).body again) s
      fun e hi => (Node.expr e).Between o.tokens s.here hi := by
  refine .advance ho hs fun s₁ hs₁ hle₁ _ => ?_
  refine .bind ho hs₁ (h.expr hs₁ _) fun right s₂ hs₂ hle₂ hright => .pure ?_
  exact between_part (m := .expr right) rfl trivial rfl hpos hright hle₁

theorem conditional_body (hs : o.Forward s) {pos : Pos} (hpos : pos.offset = s.here) :
    Lays ((Call.conditional pos).body again) s
      fun e hi => (Node.expr e).Between o.tokens s.here hi := by
  refine .expect ho hs fun s₁ hs₁ hle₁ _ => .advance ho hs₁ fun s₂ hs₂ hle₂ _ => ?_
  refine .bind ho hs₂ (h.expr hs₂ _) fun test s₃ hs₃ hle₃ htest => ?_
  refine .expect ho hs₃ fun s₄ hs₄ hle₄ _ => .expect ho hs₄ fun s₅ hs₅ hle₅ _ => ?_
  refine .bind ho hs₅ (h.block hs₅) fun yes s₆ hs₆ hle₆ hyes => ?_
  have hrow : Row o.tokens s.here s₆.here [.expr test, .block yes] :=
    .two (htest.mono (by omega) (by omega)) hyes
  refine .peek (.ite (fun _ => ?_) fun _ => ?_)
  · refine .advance ho hs₆ fun s₇ hs₇ hle₇ _ => .expect ho hs₇ fun s₈ hs₈ hle₈ _ => ?_
    refine .bind ho hs₈ (h.block hs₈) fun no s₉ hs₉ hle₉ hno => .current (.pure ?_)
    exact between_run rfl trivial hpos (hrow.snoc hno (by omega) (by omega)) (by omega)
  · exact .current (.pure (between_run rfl trivial hpos hrow (by omega)))

theorem operators_body (hs : o.Forward s) (precedence : Nat) {lo : Int} {left : Expr}
    (hleft : (Node.expr left).Between o.tokens lo s.here) :
    Lays ((Call.operators precedence left).body again) s
      fun e hi => (Node.expr e).Between o.tokens lo hi := by
  refine .peek (.ite (fun _ => ?_) fun _ => .pure hleft)
  refine .advance ho hs fun s₁ hs₁ hle₁ htoken => ?_
  rw [← htoken]
  dsimp only
  split
  · refine .bind ho hs₁ (h.list hs₁ _) fun args s₂ hs₂ hle₂ hargs => .current ?_
    refine h.operators hs₂ precedence ?_
    exact between_infix (m := .expr left) rfl trivial rfl hleft hle₁ hargs hle₂ (Int.le_refl _)
  · refine .advance ho hs₁ fun s₂ hs₂ hle₂ _ => ?_
    refine .bind ho hs₂ (h.expr hs₂ _) fun index s₃ hs₃ hle₃ hindex => ?_
    refine .expect ho hs₃ fun s₄ hs₄ hle₄ _ => .current (h.operators hs₄ precedence ?_)
    exact between_infix (m := .expr left) rfl trivial rfl hleft hle₁ (.one (hindex.mono hle₂ hle₄))
      (Int.le_trans hle₂ (Int.le_trans hle₃ hle₄)) (Int.le_refl _)
  · split
    · refine .advance ho hs₁ fun s₂ hs₂ hle₂ _ => ?_
      refine .bind ho hs₂ (h.expr hs₂ _) fun right s₃ hs₃ hle₃ hright => ?_
      refine h.operators hs₃ precedence ?_
      refine between_infix (m := .expr left) rfl trivial rfl hleft hle₁
        (.one ⟨hright.nested, Int.le_trans hle₂ hright.lo_le, Int.le_refl _⟩) ?_ hright.le_hi
      exact Int.le_trans hle₂ (Int.le_trans hright.lo_le hright.nested.orderly.start_le_stop)
    · exact .pure (hleft.mono (Int.le_refl _) hle₁)

theorem list_body (hs : o.Forward s) (close : Token.Kind) :
    Lays ((Call.list close).body again) s fun es hi => Row o.tokens s.here hi (es.map .expr) := by
  refine .peek (.ite (fun _ => .advance ho hs fun _ _ _ _ => .pure .nil) fun _ => ?_)
  refine .advance ho hs fun s₁ hs₁ hle₁ _ => ?_
  refine .bind ho hs₁ (h.expr hs₁ _) fun e s₂ hs₂ hle₂ he => ?_
  exact h.moreItems hs₂ close (.one (he.mono hle₁ (Int.le_refl _))) (by omega)

theorem moreItems_body (hs : o.Forward s) (close : Token.Kind) {lo : Int} {acc : List Expr}
    (hacc : Row o.tokens lo s.here (acc.reverse.map .expr)) (hlo : lo ≤ s.here) :
    Lays ((Call.moreItems close acc).body again) s
      fun es hi => Row o.tokens lo hi (es.map .expr) := by
  refine .peek (.ite (fun _ => ?_) fun _ => ?_)
  · refine .advance ho hs fun s₁ hs₁ hle₁ _ => .advance ho hs₁ fun s₂ hs₂ hle₂ _ => ?_
    refine .bind ho hs₂ (h.expr hs₂ _) fun e s₃ hs₃ hle₃ he => ?_
    refine h.moreItems hs₃ close ?_ (by omega)
    rw [List.reverse_cons, List.map_append]
    exact hacc.snoc he (by omega) (by omega)
  · exact .expect ho hs fun s₁ hs₁ hle₁ _ => .pure (hacc.mono (Int.le_refl _) hle₁)

theorem pairs_body (hs : o.Forward s) {lo : Int} {acc : List (Expr × Expr)}
    (hacc : Row o.tokens lo s.here (acc.reverse.flatMap Node.pair)) (hlo : lo ≤ s.here) :
    Lays ((Call.pairs acc).body again) s
      fun ps hi => Row o.tokens lo hi (ps.flatMap Node.pair) := by
  refine .peek (.ite (fun _ => ?_) fun _ => ?_)
  · exact .advance ho hs fun s₁ hs₁ hle₁ _ => .pure (hacc.mono (Int.le_refl _) hle₁)
  · refine .advance ho hs fun s₁ hs₁ hle₁ _ => ?_
    refine .bind ho hs₁ (h.expr hs₁ _) fun key s₂ hs₂ hle₂ hkey => ?_
    refine .expect ho hs₂ fun s₃ hs₃ hle₃ _ => .advance ho hs₃ fun s₄ hs₄ hle₄ _ => ?_
    refine .bind ho hs₄ (h.expr hs₄ _) fun value s₅ hs₅ hle₅ hvalue => ?_
    have hrow : Row o.tokens lo s₅.here (((key, value) :: acc).reverse.flatMap Node.pair) := by
      have hsnoc := (hacc.snoc hkey (by omega) (by omega)).snoc hvalue (by omega) (by omega)
      rw [List.reverse_cons, List.flatMap_append]
      rw [List.append_assoc] at hsnoc
      exact hsnoc
    refine .peek (.optional ho hs₅ fun s₆ hs₆ hle₆ => ?_)
    exact h.pairs hs₆ (hrow.mono (Int.le_refl _) hle₆) (by omega)

theorem block_body (hs : o.Forward s) :
    Lays (Call.block.body again) s fun b hi => (Node.block b).Between o.tokens s.here hi := by
  refine .current (.advance ho hs fun s₁ hs₁ hle₁ _ => ?_)
  refine .bind ho hs₁ (h.statements hs₁ true .nil (Int.le_refl _)) fun body s₂ hs₂ hle₂ hbody =>
    .current (.optional ho hs₂ fun s₃ hs₃ hle₃ => .pure ?_)
  suffices hblock : Node.Between o.tokens s.here s₂.here _ from hblock.mono (Int.le_refl _) hle₃
  exact between_run rfl trivial rfl (hbody.mono hle₁ (Int.le_refl _)) (Int.le_trans hle₁ hle₂)

theorem statements_body (hs : o.Forward s) (inBlock : Bool) {lo : Int} {acc : List Stmt}
    (hacc : Row o.tokens lo s.here (acc.reverse.map .stmt)) (hlo : lo ≤ s.here) :
    Lays ((Call.statements inBlock acc).body again) s
      fun ss hi => Row o.tokens lo hi (ss.map .stmt) := by
  refine .current (.ite (fun _ => .pure hacc) fun _ => .ite (fun _ => ?_) fun _ => ?_)
  · refine .advance ho hs fun s₁ hs₁ hle₁ _ => ?_
    exact h.statements hs₁ inBlock (hacc.mono (Int.le_refl _) hle₁) (by omega)
  · refine .attempt ho hs (h.statement hs) fun st s₁ hs₁ hle₁ hst => ?_
    refine .advance ho hs₁ fun s₂ hs₂ hle₂ _ => h.statements hs₂ inBlock ?_ (by omega)
    cases st with
    | none => exact hacc.mono (Int.le_refl _) (by omega)
    | some st =>
      rw [Option.toList_some, List.singleton_append, List.reverse_cons, List.map_append]
      exact (hacc.snoc (hst st rfl) hlo (Int.le_refl _)).mono (Int.le_refl _) hle₂

theorem statement_body (hs : o.Forward s) :
    Lays (Call.statement.body again) s fun st hi => (Node.stmt st).Between o.tokens s.here hi := by
  refine .current ?_
  split
  · refine .expect ho hs fun s₁ hs₁ hle₁ hkind => .ident ?_
    refine .expect ho hs₁ fun s₂ hs₂ hle₂ _ => .advance ho hs₂ fun s₃ hs₃ hle₃ _ => ?_
    refine .bind ho hs₃ (h.expr hs₃ _) fun value s₄ hs₄ hle₄ hvalue => ?_
    refine .peek (.optional ho hs₄ fun s₅ hs₅ hle₅ => .current (.pure ?_))
    have hid := (between_ident ho hs₁ hkind).mono hle₁ hle₂
    have hvalue := (hvalue.named (s₁.tokens.headD s₁.eof).literal).mono hle₃ hle₅
    exact between_run rfl trivial rfl (.two hid hvalue) (by omega)
  · refine .peek (.ite (fun _ => ?_) fun _ => .ite (fun _ => .pure ?_) fun _ => ?_)
    · refine .advance ho hs fun s₁ hs₁ hle₁ htoken => .pure ?_
      rw [← htoken]
      exact between_run rfl trivial rfl .nil hle₁
    · exact between_run rfl trivial rfl .nil (Int.le_refl _)
    · refine .advance ho hs fun s₁ hs₁ hle₁ _ => ?_
      refine .bind ho hs₁ (h.expr hs₁ _) fun value s₂ hs₂ hle₂ hvalue => ?_
      refine .peek (.optional ho hs₂ fun s₃ hs₃ hle₃ => .current (.pure ?_))
      exact between_run rfl trivial rfl (.one (hvalue.mono hle₁ hle₃)) (by omega)
  · refine .bind ho hs (h.expr hs _) fun value s₁ hs₁ hle₁ hvalue => ?_
    refine .peek (.optional ho hs₁ fun s₂ hs₂ hle₂ => .pure ?_)
    exact between_part (m := .expr value) rfl trivial rfl rfl (hvalue.mono (Int.le_refl _) hle₂)
      (Int.le_refl _)

/-- One more step of depth yields nodes in their places if those before do. -/
theorem body : Laid o fun _ c => c.body again where
  moreParams := h.moreParams_body ho
  expr := h.expr_body ho
  primary := h.primary_body ho
  unary := h.unary_body ho
  conditional := h.conditional_body ho
  operators := h.operators_body ho
  list := h.list_body ho
  moreItems := h.moreItems_body ho
  pairs := h.pairs_body ho
  block := h.block_body ho
  statements := h.statements_body ho
  statement := h.statement_body ho

end Laid

/-- Without depth nothing is yielded. -/
theorem Lays.exhausted {s : Stream} {Q : α → Int → Prop} : Lays exhausted s Q := by
  intro a s' h
  cases h

/-- Whatever the depth, readers yield nodes in their places. -/
theorem laid {o : Stream} (ho : o.Sorted) (depth : Nat) : Laid o (answers depth) := by
  induction depth with
  | zero => constructor <;> (intros; exact .exhausted)
  | succ depth ih =>
    rw [answers_step]
    exact ih.body ho

/-- The tokens of a source come in its order. -/
theorem Stream.Sorted.of_scan (source : Bytes) :
    (stream (Token.scan source).2 (Token.scan source).1).Sorted := by
  obtain ⟨-, heof⟩ := Token.scanFrom_eof [] ⟨.start source, source⟩ (List.forall_mem_nil _)
  refine ⟨?_, heof⟩
  obtain ⟨pieces, eof, hlaid, hscan, -⟩ := Token.exists_laid [] source
  have hscan : Token.scan source = (pieces.map (·.token), eof) := hscan []
  obtain ⟨hpieces, hends⟩ := hlaid.increasing
  rw [hscan]
  refine List.pairwise_append.2 ⟨?_, List.pairwise_singleton _ _, fun t ht u hu => ?_⟩
  · exact List.pairwise_map.2 (hpieces.imp Int.le_of_lt)
  · obtain ⟨p, hp, rfl⟩ := List.mem_map.1 ht
    obtain rfl := List.mem_singleton.1 hu
    obtain hlt | htoken := hends p hp
    · exact Int.le_of_lt hlt
    · exact Int.le_of_eq (congrArg (·.pos.offset) htoken)

end Parse

/-- Spans nest, with or without faults in the source. Every node has its own position and all its
parts within the stretch it covers, the parts one after the other, and every name and literal stands
at a token that spells it. -/
theorem Program.parse_nested (source : Bytes) :
    (Node.program (Program.parse source).program).Nested (Token.scan source).1 := by
  obtain ⟨body, s, hread, -, hparse, -⟩ := Program.exists_body source
  rw [hparse]
  have hlaid := Parse.laid (.of_scan source) (Parse.depthFor (Token.scan source).1.length)
  have hnil (here : Int) :
      Row (Token.scan source).1 here here (([] : List Stmt).reverse.map .stmt) := .nil
  have hrow := hlaid.statements (Parse.Motion.refl _) false (hnil _) (Int.le_refl _)
  exact (hrow body s hread).nested_program

end StackScript
