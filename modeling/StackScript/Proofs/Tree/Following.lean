import StackScript.Proofs.Tree.Calls

/-!
# What follows a source

A reader looks at the current token and at the one after it. If a source is read
without a fault, a reader that comes to its last token sees the end of the source
next. Were the source followed by a semicolon and more, it would see the
semicolon there. It goes on in the same way then, since nothing that it looks
for is either of the two. Only a statement takes the semicolon with it, and is
done with it.

So every reader does the same to a source that is followed by a semicolon, up to
the last token of what it reads. Positions are forgotten here: a statement ends
at its semicolon if it has one.

## Main definitions

* `Parse.Stream.followed`: the stream with a semicolon and more tokens after it.
* `Parse.Leads`: without a fault, a reader does the same if more follows.
* `Parse.Carrying`: what is required of the answers to calls.

## Main results

* `Parse.carrying`: at every depth, calls are answered so.
-/

namespace StackScript

namespace Parse

variable {α β : Type}

/-- A semicolon, at no place. -/
def mark : Token := ⟨.semicolon, [59], .none⟩

theorem kind_mark : mark.kind = .semicolon := rfl

namespace Stream

/-- The stream with a semicolon and more tokens after it. -/
def followed (us : List Token) (s : Stream) : Stream := { s with tokens := s.tokens ++ mark :: us }

/-- No fault was noted. -/
structure Clean (s : Stream) : Prop where
  errors : s.errors = []
  spent : s.spent = false

/-- The tokens are at no place, and the end of the source is nowhere but at its end. -/
structure Plain (s : Stream) : Prop where
  eof : s.eof.kind = .eof
  places : ∀ t ∈ s.tokens, t.pos = .none
  kinds : ∀ t ∈ s.tokens, t.kind ≠ .eof

variable {o s : Stream}

/-- Faults are kept, so there was none before if there is none after. -/
theorem Clean.before (h : s.Clean) (hs : o.Forward s) : o.Clean := by
  constructor
  · have hsuffix := hs.errors
    rw [h.errors] at hsuffix
    exact List.suffix_nil.1 hsuffix
  · cases hspent : o.spent with
    | false => rfl
    | true => exact absurd (h.spent.symm.trans (hs.spent hspent)) Bool.false_ne_true

theorem Plain.forward (h : o.Plain) (hs : o.Forward s) : s.Plain where
  eof := hs.eof ▸ h.eof
  places t ht := h.places t (hs.tokens.subset ht)
  kinds t ht := h.kinds t (hs.tokens.subset ht)

/-- There is a next token unless it is the end of the source. -/
theorem Plain.tail_ne_nil (h : s.Plain) (hkind : (s.tokens.tail.headD s.eof).kind ≠ .eof) :
    s.tokens.tail ≠ [] := by
  intro hnil
  rw [hnil, List.headD_nil] at hkind
  exact hkind h.eof

/-- The two streams are at the same token, and the second one goes on after the first one ends. -/
def Along (us : List Token) (s o : Stream) : Prop := o = s.followed us

/-- The same, or the first stream is at its last token and the second one at the semicolon. -/
def Past (us : List Token) (s o : Stream) : Prop :=
  o = s.followed us ∨ s.tokens.tail = [] ∧ o = { s with tokens := mark :: us }

theorem headD_mem (h : s.tokens ≠ []) : s.tokens.headD s.eof ∈ s.tokens := by
  rw [List.headD_eq_head?_getD, List.head?_eq_some_head h]
  exact List.head_mem h

theorem Plain.place (h : s.Plain) (hs : s.tokens ≠ []) : (s.tokens.headD s.eof).pos = .none :=
  h.places _ (headD_mem hs)

theorem Plain.head_ne_eof (h : s.Plain) (hs : s.tokens ≠ []) :
    (s.tokens.headD s.eof).kind ≠ .eof :=
  h.kinds _ (headD_mem hs)

theorem headD_followed (us : List Token) (h : s.tokens ≠ []) :
    (s.followed us).tokens.headD s.eof = s.tokens.headD s.eof := by
  rcases hs : s.tokens with _ | ⟨t, ts⟩
  · exact absurd hs h
  · simp [followed, hs]

theorem next_followed (us : List Token) (h : s.tokens.tail ≠ []) :
    (s.followed us).tokens.tail.headD s.eof = s.tokens.tail.headD s.eof := by
  rcases hs : s.tokens with _ | ⟨t, _ | ⟨u, ts⟩⟩
  · exact absurd (congrArg List.tail hs) h
  · exact absurd (congrArg List.tail hs) h
  · simp [followed, hs]

/-- The semicolon stands in place of the end. -/
theorem next_followed_last (us : List Token) (h : s.tokens ≠ []) (hlast : s.tokens.tail = []) :
    (s.followed us).tokens.tail = mark :: us := by
  rw [followed, List.tail_append_of_ne_nil h, hlast, List.nil_append]

theorem tail_followed (us : List Token) (h : s.tokens ≠ []) :
    { s.followed us with tokens := (s.followed us).tokens.tail } =
      { s with tokens := s.tokens.tail }.followed us := by
  simp only [followed, List.tail_append_of_ne_nil h]

end Stream

/-! ### Readers that do the same -/

/-- If the reader notes no fault here, it succeeds at one of the tokens, and where a semicolon and
more tokens follow it yields the same and comes to a place that `R` relates to this token. -/
def Leads (R : Stream → Stream → Prop) (us : List Token) (x : Parse α) (s : Stream) : Prop :=
  s.Plain → ∀ r s', x s = (r, s') → s'.Clean →
    s'.tokens ≠ [] ∧ ∃ a o, r = some a ∧ x (s.followed us) = (some a, o) ∧ R s' o

/-- The reader comes to the same token if more follows. -/
abbrev Carries (us : List Token) (x : Parse α) (s : Stream) : Prop :=
  Leads (Stream.Along us) us x s

/-- If the reader notes no fault here it succeeds, and if it does not come to the end it comes to
the same token if more follows. So it is with the statements of a block, up to its brace. -/
def Inside (us : List Token) (x : Parse α) (s : Stream) : Prop :=
  s.Plain → ∀ r s', x s = (r, s') → s'.Clean →
    ∃ a, r = some a ∧ (s'.tokens ≠ [] → x (s.followed us) = (some a, s'.followed us))

theorem Inside.exhausted {us : List Token} {s : Stream} : Inside us (exhausted : Parse α) s := by
  intro _ r s' h hclean
  cases h
  cases hclean.spent

theorem Carries.inside {us : List Token} {s : Stream} {x : Parse α} (h : Carries us x s) :
    Inside us x s := by
  intro hplain r s' hread hclean
  obtain ⟨-, a, o, hr, hread', rfl⟩ := h hplain r s' hread hclean
  exact ⟨a, hr, fun _ => hread'⟩

namespace Leads

variable {R : Stream → Stream → Prop} {us : List Token} {s : Stream} {x y : Parse α}

theorem mono {R' : Stream → Stream → Prop} (h : Leads R us x s) (hR : ∀ s o, R s o → R' s o) :
    Leads R' us x s := by
  intro hplain r s' hx hclean
  obtain ⟨hne, a, o, hr, hread, ho⟩ := h hplain r s' hx hclean
  exact ⟨hne, a, o, hr, hread, hR s' o ho⟩

theorem pure {a : α} (hs : s.tokens ≠ []) : Carries us (Pure.pure a) s := by
  intro _ r s' h _
  cases h
  exact ⟨hs, a, _, rfl, rfl, rfl⟩

theorem ite {p : Prop} [Decidable p] (hx : p → Leads R us x s) (hy : ¬p → Leads R us y s) :
    Leads R us (if p then x else y) s := by
  split
  · next hp => exact hx hp
  · next hp => exact hy hp

theorem exhausted : Leads R us (exhausted : Parse α) s := by
  intro _ r s' h hclean
  cases h
  cases hclean.spent

/-- Where a fault is noted, nothing is claimed. -/
theorem note {e : ParseError} {f : Unit → Parse β} [hf : Moves Stream.Forward (f ())] :
    Leads R us (note e >>= f) s := by
  intro _ r s' h hclean
  have hforward := hf.moves { s with errors := e :: s.errors }
  change f () { s with errors := e :: s.errors } = _ at h
  rw [h] at hforward
  cases (hclean.before hforward).errors

/-- Read on after a success, given what holds of it. -/
theorem bindWhere {f : α → Parse β} {P : α → Stream → Prop} [hx : Moves Stream.Forward x]
    [hf : ∀ a, Moves Stream.Forward (f a)] (hxs : Inside us x s)
    (hP : s.Plain → ∀ a s', x s = (some a, s') → s'.Clean → P a s')
    (hfs : ∀ a s', P a s' → Leads R us (f a) s') : Leads R us (x >>= f) s := by
  intro hplain r s' h hclean
  have hforward := hx.moves s
  rcases hresult : x s with ⟨_ | a, s₁⟩
  · rw [bind_none hresult] at h
    cases h
    obtain ⟨a, hnone, -⟩ := hxs hplain _ _ hresult hclean
    cases hnone
  · rw [bind_some hresult] at h
    rw [hresult] at hforward
    have hforward₁ := (hf a).moves s₁
    rw [h] at hforward₁
    have hclean₁ := hclean.before hforward₁
    obtain ⟨_, ⟨⟩, hread⟩ := hxs hplain _ _ hresult hclean₁
    obtain ⟨hne, b, o, hr, hread', ho⟩ := hfs a s₁ (hP hplain a s₁ hresult hclean₁)
      (hplain.forward hforward) r s' h hclean
    have hne₁ : s₁.tokens ≠ [] := fun hnil => hne (List.suffix_nil.1 (hnil ▸ hforward₁.tokens))
    exact ⟨hne, b, o, hr, (bind_some (hread hne₁) f).trans hread', ho⟩

theorem bind {f : α → Parse β} [Moves Stream.Forward x] [∀ a, Moves Stream.Forward (f a)]
    (hxs : Carries us x s) (hfs : ∀ a s', s'.tokens ≠ [] → Leads R us (f a) s') :
    Leads R us (x >>= f) s :=
  bindWhere (P := fun _ s' => s'.tokens ≠ []) hxs.inside
    (fun hplain _ s' hread hclean => (hxs hplain _ s' hread hclean).1) hfs

theorem bindInside {f : α → Parse β} [Moves Stream.Forward x] [∀ a, Moves Stream.Forward (f a)]
    (hxs : Inside us x s) (hfs : ∀ a s', Leads R us (f a) s') : Leads R us (x >>= f) s :=
  bindWhere (P := fun _ _ => True) hxs (fun _ _ _ _ _ => trivial) fun a s' _ => hfs a s'

/-- A failure would have noted a fault. -/
theorem attempt {f : Option α → Parse β} [Moves Stream.Forward x]
    [m : ∀ r, Moves Stream.Forward (f r)] (hxs : Carries us x s)
    (hfs : ∀ a s', s'.tokens ≠ [] → Leads R us (f (some a)) s') :
    Leads R us (attempt x >>= f) s := by
  apply bindWhere (P := fun r s' => s'.tokens ≠ [] ∧ ∃ a, r = some a)
  · intro hplain r s' hread hclean
    cases hread
    obtain ⟨-, a, o, hr, hread', rfl⟩ := hxs hplain _ _ rfl hclean
    exact ⟨_, rfl, fun _ => (attempt_eq hread').trans (by rw [hr])⟩
  · intro hplain r s' hread hclean
    cases hread
    obtain ⟨hne, a, -, hr, -⟩ := hxs hplain _ _ rfl hclean
    exact ⟨hne, a, hr⟩
  · rintro _ s' ⟨hne, a, rfl⟩
    exact hfs a s' hne

theorem currentToken {f : Token → Parse β} (hs : s.tokens ≠ [])
    (h : Leads R us (f (s.tokens.headD s.eof)) s) : Leads R us (current >>= f) s := by
  intro hplain r s' hread hclean
  obtain ⟨hne, b, o, hr, hread', ho⟩ := h hplain r s' hread hclean
  refine ⟨hne, b, o, hr, ?_, ho⟩
  change f ((s.followed us).tokens.headD s.eof) (s.followed us) = _
  rw [Stream.headD_followed us hs]
  exact hread'

/-- A reader that comes to a token had one to begin with. -/
theorem current {f : Token → Parse β} [m : Moves Stream.Forward (current >>= f)]
    (h : Leads R us (f (s.tokens.headD s.eof)) s) : Leads R us (current >>= f) s := by
  intro hplain r s' hread hclean
  have hforward := m.moves s
  rw [hread] at hforward
  have hne := (h hplain r s' hread hclean).1
  have hs : s.tokens ≠ [] := fun hnil => hne (List.suffix_nil.1 (hnil ▸ hforward.tokens))
  exact currentToken hs h hplain r s' hread hclean

theorem ident {f : Ident → Parse β} (hs : s.tokens ≠ []) (h : ∀ id, Leads R us (f id) s) :
    Leads R us (ident >>= f) s :=
  currentToken (f := fun t => f ⟨.token t.pos, t.literal⟩) hs (h _)

/-- A look at the next token, if there is one. -/
theorem peekMore {f : Token → Parse β} (hs : s.tokens.tail ≠ [])
    (h : Leads R us (f (s.tokens.tail.headD s.eof)) s) : Leads R us (peek >>= f) s := by
  intro hplain r s' hread hclean
  obtain ⟨hne, b, o, hr, hread', ho⟩ := h hplain r s' hread hclean
  refine ⟨hne, b, o, hr, ?_, ho⟩
  change f ((s.followed us).tokens.tail.headD s.eof) (s.followed us) = _
  rw [Stream.next_followed us hs]
  exact hread'

/-- A look at the next token for something that is neither the end nor a semicolon. -/
theorem peek {f : Token → Parse β} (hs : s.tokens ≠ [])
    (hsame : ∀ t : Token, t.kind = .eof → f mark = f t)
    (h : Leads R us (f (s.tokens.tail.headD s.eof)) s) : Leads R us (peek >>= f) s := by
  by_cases htail : s.tokens.tail = []
  · intro hplain r s' hread hclean
    obtain ⟨hne, b, o, hr, hread', ho⟩ := h hplain r s' hread hclean
    refine ⟨hne, b, o, hr, ?_, ho⟩
    change f ((s.followed us).tokens.tail.headD s.eof) (s.followed us) = _
    rw [Stream.next_followed_last us hs htail, List.headD_cons, hsame s.eof hplain.eof]
    rw [htail, List.headD_nil] at hread'
    exact hread'
  · exact peekMore htail h

/-- Go on in one of two ways after a look at the kind of the next token. -/
theorem peekKind {kind : Token.Kind} (hs : s.tokens ≠ [])
    (hkind : kind ≠ .eof ∧ kind ≠ .semicolon) (hx : s.tokens.tail ≠ [] → Leads R us x s)
    (hy : Leads R us y s) :
    Leads R us (Parse.peek >>= fun t => if t.kind = kind then x else y) s := by
  intro hplain
  refine peek hs (fun t ht => ?_) (ite (fun hnext => ?_) fun _ => hy) hplain
  · have hmark : mark.kind ≠ kind := hkind.2.symm
    rw [if_neg hmark, if_neg fun hend => hkind.1 (hend.symm.trans ht)]
  · exact hx (hplain.tail_ne_nil fun hend => hkind.1 (hnext.symm.trans hend))

theorem advance {f : Unit → Parse β} (hs : s.tokens ≠ [])
    (h : ∀ s', s'.tokens = s.tokens.tail → Leads R us (f ()) s') :
    Leads R us (advance >>= f) s := by
  intro hplain r s' hread hclean
  obtain ⟨hne, b, o, hr, hread', ho⟩ :=
    h { s with tokens := s.tokens.tail } rfl (hplain.forward (Motion.advance s)) r s' hread hclean
  refine ⟨hne, b, o, hr, ?_, ho⟩
  rw [← hread', ← Stream.tail_followed us hs]
  rfl

theorem expect {f : Unit → Parse β} {kind : Token.Kind} (hs : s.tokens ≠ []) (hkind : kind ≠ .eof)
    (h : ∀ s', s'.tokens ≠ [] → Leads R us (f ()) s') : Leads R us (expect kind >>= f) s := by
  intro hplain r s' hread hclean
  by_cases hnext : (s.tokens.tail.headD s.eof).kind = kind
  · have htail := hplain.tail_ne_nil (hnext ▸ hkind)
    rw [bind_some (expect_of_kind hnext)] at hread
    obtain ⟨hne, b, o, hr, hread', ho⟩ :=
      h { s with tokens := s.tokens.tail } htail (hplain.forward (Motion.advance s)) r s' hread
        hclean
    refine ⟨hne, b, o, hr, ?_, ho⟩
    have hnext' : ((s.followed us).tokens.tail.headD s.eof).kind = kind := by
      rw [Stream.next_followed us htail]
      exact hnext
    rw [bind_some (expect_of_kind (s := s.followed us) hnext'), Stream.tail_followed us hs]
    exact hread'
  · rw [bind_none (expect_of_ne hnext)] at hread
    cases hread
    cases hclean.errors

end Leads

/-! ### Statements -/

section

variable {us : List Token} {s : Stream}

theorem Carries.past {x : Parse α} (h : Carries us x s) : Leads (Stream.Past us) us x s :=
  Leads.mono h fun _ _ => Or.inl

/-- A reader that does no more than look at the place it is at. -/
theorem Leads.settled {x : Parse α} {a : α} (hs : s.tokens ≠ [])
    (hx : ∀ o : Stream, (o.tokens.headD o.eof).pos = .none → x o = (some a, o)) :
    Carries us x s := by
  intro hplain r s' hread _
  have hplace := hplain.place hs
  rw [hx s hplace] at hread
  cases hread
  exact ⟨hs, a, _, rfl, hx (s.followed us) ((Stream.headD_followed us hs).symm ▸ hplace), rfl⟩

/-- A look at the end of the source, or at the semicolon in place of it, which is then taken. -/
theorem Leads.peekLast {f : Token → Parse α} {a : α} (hs : s.tokens ≠ [])
    (hlast : s.tokens.tail = []) (hend : ∀ t : Token, t.kind = .eof → f t s = (some a, s))
    (hmark : f mark (s.followed us) =
      (some a, { s with tokens := (s.followed us).tokens.tail })) :
    Leads (Stream.Past us) us (Parse.peek >>= f) s := by
  intro hplain r s' hread _
  have hnext := Stream.next_followed_last us hs hlast
  change f (s.tokens.tail.headD s.eof) s = _ at hread
  rw [hlast, List.headD_nil, hend s.eof hplain.eof] at hread
  cases hread
  refine ⟨hs, a, _, rfl, ?_, .inr ⟨hlast, rfl⟩⟩
  change f ((s.followed us).tokens.tail.headD s.eof) (s.followed us) = _
  rw [hnext, List.headD_cons, hmark, hnext]

/-- A statement takes the semicolon after it. -/
theorem Leads.semicolon {f : Unit → Parse α} {a : α} (hs : s.tokens ≠ [])
    (hf : ∀ o : Stream, (o.tokens.headD o.eof).pos = .none → f () o = (some a, o)) :
    Leads (Stream.Past us) us
      (Parse.peek >>= fun t => if t.kind = .semicolon then Parse.advance >>= f else f ()) s := by
  by_cases htail : s.tokens.tail = []
  · intro hplain
    refine Leads.peekLast (a := a) hs htail (fun t ht => ?_) ?_ hplain
    · have hkind : t.kind ≠ .semicolon := by
        rw [ht]
        decide
      rw [if_neg hkind]
      exact hf s (hplain.place hs)
    · rw [if_pos kind_mark]
      apply hf
      rw [Stream.next_followed_last us hs htail]
      rfl
  · apply Leads.peekMore htail
    apply Leads.ite
    · intro _
      exact Carries.past (.advance hs fun s' hs' => .settled (hs' ▸ htail) hf)
    · intro _
      exact Carries.past (.settled hs hf)

/-- A return without a value ends before a brace or the end, or takes the semicolon after it. -/
theorem Leads.ret {t : Token} {x : Parse Stmt} (ht : t.pos = .none) (hs : s.tokens ≠ [])
    (hx : s.tokens.tail ≠ [] → Leads (Stream.Past us) us x s) :
    Leads (Stream.Past us) us
      (Parse.peek >>= fun p =>
        if p.kind = .semicolon then
          Parse.advance >>= fun _ => Pure.pure (Stmt.ret (.run t.pos p.pos) none)
        else if p.kind = .rbrace ∨ p.kind = .eof then
          Pure.pure (Stmt.ret (.run t.pos t.pos) none)
        else x) s := by
  by_cases htail : s.tokens.tail = []
  · apply Leads.peekLast (a := .ret (.run t.pos t.pos) none) hs htail
    · intro p hp
      have hkind : p.kind ≠ .semicolon := by
        rw [hp]
        decide
      rw [if_neg hkind, if_pos (.inr hp)]
      rfl
    · rw [if_pos kind_mark, ht]
      rfl
  · apply Leads.peekMore htail
    apply Leads.ite
    · intro _
      exact Carries.past (.advance hs fun s' hs' => .pure (hs' ▸ htail))
    · intro _
      exact .ite (fun _ => Carries.past (.pure hs)) fun _ => hx htail

/-- A token that statements do not end at is there. -/
theorem tokens_ne_nil_of_not_endsBody {s : Stream} {inBlock : Bool}
    (heof : s.eof.kind = .eof) (h : ¬EndsBody inBlock (s.tokens.headD s.eof)) : s.tokens ≠ [] := by
  intro hnil
  rw [hnil, List.headD_nil] at h
  exact h (.inl heof)

theorem length_tail_lt {ts : List Token} (h : ts ≠ []) : ts.tail.length < ts.length := by
  rw [List.length_tail]
  exact Nat.sub_lt (List.length_pos_iff.2 h) Nat.one_pos

/-- One round of reading statements. If a semicolon and more tokens follow, it comes to the same
token, or past the semicolon if there is no other token. -/
theorem statements_followed {again : Answers} [hagain : ∀ β (c : Call β),
    Moves Stream.Forward (again β c)] {inBlock : Bool} {acc : List Stmt}
    {r : Option (List Stmt)} {s' : Stream}
    (hstatement : Leads (Stream.Past us) us (again _ .statement) s) (hplain : s.Plain)
    (hend : ¬EndsBody inBlock (s.tokens.headD s.eof))
    (hread : (Call.statements inBlock acc).body again s = (r, s')) (hclean : s'.Clean) :
    ∃ acc' s₁, s.Forward s₁ ∧ s₁.tokens.length < s.tokens.length ∧
      again _ (.statements inBlock acc') s₁ = (r, s') ∧
      ((Call.statements inBlock acc).body again (s.followed us) =
          again _ (.statements inBlock acc') (s₁.followed us) ∨
        s₁.tokens = [] ∧ (Call.statements inBlock acc).body again (s.followed us) =
          again _ (.statements inBlock acc') { s₁ with tokens := us }) := by
  have hs := tokens_ne_nil_of_not_endsBody hplain.eof hend
  have hhead : (s.followed us).tokens.headD (s.followed us).eof = s.tokens.headD s.eof :=
    Stream.headD_followed us hs
  by_cases hsemicolon : (s.tokens.headD s.eof).kind = .semicolon
  · rw [statements_of_semicolon hend hsemicolon] at hread
    rw [statements_of_semicolon (hhead ▸ hend) (hhead ▸ hsemicolon), Stream.tail_followed us hs]
    exact ⟨acc, _, Motion.advance s, length_tail_lt hs, hread, .inl rfl⟩
  · rw [statements_of_statement hend hsemicolon] at hread
    rw [statements_of_statement (hhead ▸ hend) (hhead ▸ hsemicolon)]
    have hforward := (hagain _ .statement).moves s
    rcases hresult : again _ .statement s with ⟨r₁, s₁⟩
    rw [hresult] at hread hforward
    have hforward₁ := (hagain _ (.statements inBlock (r₁.toList ++ acc))).moves
      { s₁ with tokens := s₁.tokens.tail }
    rw [hread] at hforward₁
    obtain ⟨hs₁, st, o, rfl, hresult', ho⟩ := hstatement hplain r₁ s₁ hresult
      ((hclean.before hforward₁).before (Motion.advance s₁))
    have hle : s₁.tokens.length ≤ s.tokens.length := hforward.tokens.length_le
    refine ⟨_, _, Motion.trans hforward (Motion.advance s₁), ?_, hread, ?_⟩
    · exact Nat.lt_of_lt_of_le (length_tail_lt hs₁) hle
    · rw [hresult']
      rcases ho with rfl | ⟨hlast, rfl⟩
      · rw [Stream.tail_followed us hs₁]
        exact .inl rfl
      · exact .inr ⟨hlast, rfl⟩

end

/-! ### Readers -/

/-- Calls are answered in the same way if a semicolon and more tokens follow. -/
structure Carrying (us : List Token) (again : Answers) : Prop where
  moreParams : ∀ acc s, s.tokens ≠ [] → Carries us (again _ (.moreParams acc)) s
  expr : ∀ precedence s, 1 ≤ precedence → Carries us (again _ (.expr precedence)) s
  primary : ∀ s, Carries us (again _ .primary) s
  unary : ∀ pos op s, s.tokens ≠ [] → Carries us (again _ (.unary pos op)) s
  conditional : ∀ pos s, s.tokens ≠ [] → Carries us (again _ (.conditional pos)) s
  operators : ∀ precedence left s, 1 ≤ precedence → s.tokens ≠ [] →
    Carries us (again _ (.operators precedence left)) s
  list : ∀ close s, close ≠ .eof ∧ close ≠ .semicolon → s.tokens ≠ [] →
    Carries us (again _ (.list close)) s
  moreItems : ∀ close acc s, close ≠ .eof → s.tokens ≠ [] →
    Carries us (again _ (.moreItems close acc)) s
  pairs : ∀ acc s, s.tokens ≠ [] → Carries us (again _ (.pairs acc)) s
  block : ∀ s, s.tokens ≠ [] → Carries us (again _ .block) s
  statements : ∀ acc s, Inside us (again _ (.statements true acc)) s
  statement : ∀ s, Leads (Stream.Past us) us (again _ .statement) s

section

variable {us : List Token} {again : Answers} (h : Carrying us again) {s : Stream}

include h

theorem Carrying.lowest (s : Stream) : Carries us (again _ (.expr Precedence.lowest)) s :=
  h.expr _ s Nat.le.refl

theorem carries_moreParams (acc : List Ident) (hs : s.tokens ≠ []) :
    Carries us ((Call.moreParams acc).body again) s := by
  apply Leads.peekKind hs
  · decide
  · intro htail
    apply Leads.advance hs
    intro s' hs'
    refine .expect (hs' ▸ htail) (by decide) fun s' hs' => .ident hs' fun id => ?_
    exact h.moreParams (id :: acc) s' hs'
  · exact .expect hs (by decide) fun s' hs' => .pure hs'

theorem carries_paramsBy (hs : s.tokens ≠ []) : Carries us (paramsBy again) s := by
  apply Leads.peekKind hs
  · decide
  · intro htail
    exact .advance hs fun s' hs' => .pure (hs' ▸ htail)
  · exact .expect hs (by decide) fun s' hs' => .ident hs' fun id => h.moreParams [id] s' hs'

variable [hagain : ∀ β (c : Call β), Moves Stream.Forward (again β c)]

theorem carries_expr {precedence : Nat} (hp : 1 ≤ precedence) :
    Carries us ((Call.expr precedence).body again) s :=
  .bind (h.primary s) fun left s' hs' => h.operators precedence left s' hp hs'

theorem carries_unary (pos : Pos) (op : UnaryOp) (hs : s.tokens ≠ []) :
    Carries us ((Call.unary pos op).body again) s := by
  apply Leads.advance hs
  intro s' _
  exact .bind (h.expr _ s' (by decide)) fun right s' hs' => .pure hs'

theorem carries_list {close : Token.Kind} (hclose : close ≠ .eof ∧ close ≠ .semicolon)
    (hs : s.tokens ≠ []) : Carries us ((Call.list close).body again) s := by
  apply Leads.peekKind hs hclose
  · intro htail
    exact .advance hs fun s' hs' => .pure (hs' ▸ htail)
  · exact .advance hs fun s' _ => .bind (h.lowest s') fun e s' hs' =>
      h.moreItems close [e] s' hclose.1 hs'

theorem carries_moreItems {close : Token.Kind} (acc : List Expr) (heof : close ≠ .eof)
    (hs : s.tokens ≠ []) : Carries us ((Call.moreItems close acc).body again) s := by
  apply Leads.peekKind hs
  · decide
  · intro htail
    refine .advance hs fun s' hs' => .advance (hs' ▸ htail) fun s' _ => ?_
    exact .bind (h.lowest s') fun e s' hs' => h.moreItems close (e :: acc) s' heof hs'
  · exact .expect hs heof fun s' hs' => .pure hs'

theorem carries_pairs (acc : List (Expr × Expr)) (hs : s.tokens ≠ []) :
    Carries us ((Call.pairs acc).body again) s := by
  apply Leads.peekKind hs
  · decide
  · intro htail
    exact .advance hs fun s' hs' => .pure (hs' ▸ htail)
  refine .advance hs fun s' _ => .bind (h.lowest s') fun key s' hs' => ?_
  refine .expect hs' (by decide) fun s' hs' => .advance hs' fun s' _ => ?_
  refine .bind (h.lowest s') fun value s' hs' => ?_
  apply Leads.peek hs'
  · intro t ht
    have hend : t.kind ≠ .rbrace := fun hkind => Token.Kind.noConfusion (hkind.symm.trans ht)
    rw [if_pos hend]
    rfl
  · apply Leads.ite
    · intro _
      exact .expect hs' (by decide) fun s' hs' => h.pairs ((key, value) :: acc) s' hs'
    · intro _
      exact h.pairs ((key, value) :: acc) s' hs'

set_option synthInstance.maxSize 800 in
theorem carries_conditional (pos : Pos) (hs : s.tokens ≠ []) :
    Carries us ((Call.conditional pos).body again) s := by
  apply Leads.expect hs (by decide)
  intro s' hs'
  refine .advance hs' fun s' _ => .bind (h.lowest s') fun test s' hs' => ?_
  refine .expect hs' (by decide) fun s' hs' => .expect hs' (by decide) fun s' hs' => ?_
  apply Leads.bind (h.block s' hs')
  intro yes s' hs'
  apply Leads.peekKind hs'
  · decide
  · intro htail
    refine .advance hs' fun s' hs' => .expect (hs' ▸ htail) (by decide) fun s' hs' => ?_
    exact .bind (h.block s' hs') fun no s' hs' => .current (.pure hs')
  · exact .current (.pure hs')

theorem carries_block (hs : s.tokens ≠ []) : Carries us (Call.block.body again) s := by
  apply Leads.current (m := moves_body .block)
  apply Leads.advance hs
  intro s' _
  apply Leads.bindInside (h.statements [] s')
  intro body s'
  apply Leads.current
  apply Leads.ite
  · intro _
    exact .note
  · intro hbrace hplain
    have hs' : s'.tokens ≠ [] := by
      intro hnil
      rw [hnil, List.headD_nil, hplain.eof] at hbrace
      exact hbrace Token.Kind.noConfusion
    exact Leads.pure hs' hplain

theorem carries_primary : Carries us (Call.primary.body again) s := by
  apply Leads.current (m := moves_body .primary)
  intro hplain
  rcases s with ⟨_ | ⟨⟨kind, literal, pos⟩, ts⟩, ⟨kind', literal', pos'⟩, errors, spent⟩
  · cases hplain.eof
    exact Leads.note hplain
  suffices hcases : Carries us _ _ from hcases hplain
  have hs := List.cons_ne_nil (⟨kind, literal, pos⟩ : Token) ts
  cases kind with
  | ident => exact .ident hs fun id => .pure hs
  | int =>
    apply Leads.current
    exact .ite (fun _ => .pure hs) fun _ => .note
  | string | trueKw | falseKw => exact .pure hs
  | bang => exact h.unary pos .not _ hs
  | minus => exact h.unary pos .neg _ hs
  | lparen =>
    apply Leads.advance hs
    intro s' _
    apply Leads.attempt (h.lowest s') (m := fun e => .bind inferInstance fun _ => ?_)
    · intro e s' hs'
      exact .expect hs' (by decide) fun s' hs' => .pure hs'
    · cases e <;> infer_instance
  | ifKw => exact h.conditional pos _ hs
  | function =>
    apply Leads.expect hs (by decide)
    intro s' hs'
    refine .bind (carries_paramsBy h hs') fun ps s' hs' => .expect hs' (by decide) fun s' hs' => ?_
    exact .bind (h.block s' hs') fun body s' hs' => .current (.pure hs')
  | lbracket =>
    exact .bind (h.list .rbracket _ (by decide) hs) fun items s' hs' => .current (.pure hs')
  | lbrace => exact .bind (h.pairs [] _ hs) fun ps s' hs' => .current (.pure hs')
  | _ => exact .note

/-- The right operand of an operator, and what follows it. -/
theorem carries_operand {precedence : Nat} (kind : Token.Kind) (node : Expr → Expr)
    (hp : 1 ≤ precedence) (hs : s.tokens ≠ []) :
    Carries us (advance >>= fun _ => again _ (.expr kind.precedence) >>= fun right =>
      again _ (.operators precedence (node right))) s := by
  apply Leads.advance hs
  intro s' _
  have hkind : 1 ≤ kind.precedence := by cases kind <;> decide
  exact .bind (h.expr _ s' hkind) fun right s' hs' => h.operators precedence (node right) s' hp hs'

theorem carries_operators {precedence : Nat} (left : Expr) (hp : 1 ≤ precedence)
    (hs : s.tokens ≠ []) : Carries us ((Call.operators precedence left).body again) s := by
  apply Leads.peek hs
  · intro t ht
    have hmark : ¬precedence < mark.kind.precedence := Nat.not_lt.2 hp
    have hend : ¬precedence < t.kind.precedence := by
      rw [ht]
      exact Nat.not_lt.2 hp
    rw [if_neg hmark, if_neg hend]
  apply Leads.ite
  · intro hbinds hplain
    have htail : s.tokens.tail ≠ [] := by
      apply hplain.tail_ne_nil
      intro hend
      rw [hend] at hbinds
      exact Nat.not_lt.2 hp hbinds
    suffices hcases : Carries us _ s from hcases hplain
    apply Leads.advance hs
    intro s' hs'
    have hs' : s'.tokens ≠ [] := hs' ▸ htail
    rcases s.tokens.tail.headD s.eof with ⟨kind, literal, pos⟩
    cases kind with
    | lparen =>
      refine .bind (h.list .rparen s' (by decide) hs') fun args s' hs' => .current ?_
      exact h.operators precedence _ s' hp hs'
    | lbracket =>
      apply Leads.advance hs'
      intro s' _
      refine .bind (h.lowest s') fun index s' hs' => .expect hs' (by decide) fun s' hs' => ?_
      exact .current (h.operators precedence _ s' hp hs')
    | plus | minus | star | slash | less | greater | equal | notEqual =>
      exact carries_operand h _ _ hp hs'
    | _ => exact .pure hs'
  · intro _
    exact .pure hs

theorem carries_statement : Leads (Stream.Past us) us (Call.statement.body again) s := by
  apply Leads.current (m := moves_body .statement)
  intro hplain
  rcases s with ⟨_ | ⟨⟨kind, literal, pos⟩, ts⟩, ⟨kind', literal', pos'⟩, errors, spent⟩
  · cases hplain.eof
    exact Leads.bind (h.lowest _) (fun value s' hs' => .semicolon hs' fun o _ => rfl) hplain
  have hplace : pos = .none := hplain.place (List.cons_ne_nil _ _)
  have hs := List.cons_ne_nil (⟨kind, literal, pos⟩ : Token) ts
  suffices hcases : Leads (Stream.Past us) us _ _ from hcases hplain
  cases kind with
  | letKw =>
    apply Leads.expect hs (by decide)
    intro s' hs'
    refine .ident hs' fun id => .expect hs' (by decide) fun s' hs' => .advance hs' fun s' _ => ?_
    refine .bind (h.lowest s') fun value s' hs' => ?_
    apply Leads.semicolon (a := .bind (.run pos .none) id (value.named id.name)) hs'
    intro o ho
    exact congrArg (fun stop => (some (Stmt.bind (.run pos stop) id (value.named id.name)), o)) ho
  | returnKw =>
    apply Leads.ret hplace hs
    intro htail
    refine .advance hs fun s' _ => .bind (h.lowest s') fun value s' hs' => ?_
    apply Leads.semicolon (a := .ret (.run pos .none) (some value)) hs'
    intro o ho
    exact congrArg (fun stop => (some (Stmt.ret (.run pos stop) (some value)), o)) ho
  | _ => exact .bind (h.lowest _) fun value s' hs' => .semicolon hs' fun o _ => rfl

theorem inside_statements (acc : List Stmt) :
    Inside us ((Call.statements true acc).body again) s := by
  intro hplain r s' hread hclean
  by_cases hend : EndsBody true (s.tokens.headD s.eof)
  · rw [statements_of_end hend] at hread
    cases hread
    refine ⟨_, rfl, fun hs => statements_of_end ?_⟩
    exact (Stream.headD_followed us hs).symm ▸ hend
  obtain ⟨acc', s₁, hforward, -, hread₁, hround⟩ :=
    statements_followed (h.statement s) hplain hend hread hclean
  obtain ⟨body, hr, hread'⟩ := h.statements acc' s₁ (hplain.forward hforward) r s' hread₁ hclean
  refine ⟨body, hr, fun hs' => ?_⟩
  rcases hround with hround | ⟨hlast, -⟩
  · exact hround.trans (hread' hs')
  · have hforward₁ := (hagain _ (.statements true acc')).moves s₁
    rw [hread₁] at hforward₁
    exact absurd (List.suffix_nil.1 (hlast ▸ hforward₁.tokens)) hs'

/-- What is required of the answers to calls holds of the readers that use them. -/
theorem carrying_body : Carrying us fun _ c => c.body again where
  moreParams acc _ hs := carries_moreParams h acc hs
  expr _ _ hp := carries_expr h hp
  primary _ := carries_primary h
  unary pos op _ hs := carries_unary h pos op hs
  conditional pos _ hs := carries_conditional h pos hs
  operators _ left _ hp hs := carries_operators h left hp hs
  list _ _ hclose hs := carries_list h hclose hs
  moreItems _ acc _ hclose hs := carries_moreItems h acc hclose hs
  pairs acc _ hs := carries_pairs h acc hs
  block _ hs := carries_block h hs
  statements acc _ := inside_statements h acc
  statement _ := carries_statement h

end

/-- At every depth, calls are answered in the same way if a semicolon and more tokens follow. -/
theorem carrying (us : List Token) (depth : Nat) : Carrying us (answers depth) := by
  induction depth with
  | zero => constructor <;> (intros; exact .exhausted)
  | succ depth ih =>
    rw [answers_step]
    exact carrying_body ih

end Parse

end StackScript
