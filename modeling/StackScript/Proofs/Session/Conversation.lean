import StackScript.Proofs.Session.Safety
import StackScript.Repl
import StackScript.Text.Lower

/-!
# Conversations answer line by line

A conversation writes the answers to its lines one after another, each in the
session that the lines before have left. It is over at the end of the input, at a
line that asks to leave, and also at a line that is too long: the lines after
such a line are not answered, and nothing is written about it.

## Main definitions

* `Repl.Consists`: the lines of an input.
* `Repl.Exchange`: what may be written about a line, and the session after it.
* `Repl.Transcript`: what is written about lines, one after another.

## Main results

* `Repl.lines_eq`: the lines that a conversation reads.
* `Repl.exists_exchange`: every line has an answer.
* `Repl.run_transcript`: what a conversation writes.
-/

namespace StackScript

/-! ### Lines -/

namespace Bytes

variable {b : UInt8} {line : Bytes}

theorem splitFrom_append (hb : b ∉ line) (acc : List Bytes) (piece rest : Bytes) :
    splitFrom b acc piece (line ++ rest) = splitFrom b acc (line.reverse ++ piece) rest := by
  induction line generalizing piece with
  | nil => rfl
  | cons c line ih =>
    obtain ⟨hne, hb⟩ := not_or.1 (List.mem_cons.not.1 hb)
    rw [List.cons_append, splitFrom, if_neg (Ne.symm hne), ih hb, List.reverse_cons,
      List.append_assoc, List.singleton_append]

theorem splitFrom_acc (b : UInt8) (acc : List Bytes) (piece s : Bytes) :
    splitFrom b acc piece s = acc.reverse ++ splitFrom b [] piece s := by
  induction s generalizing acc piece with
  | nil => simp [splitFrom]
  | cons c s ih =>
    rw [splitFrom, splitFrom]
    split
    · rw [ih, ih [piece.reverse], List.reverse_cons, List.append_assoc]
      rfl
    · exact ih acc _

theorem split_of_not_mem (hb : b ∉ line) : split b line = [line] := by
  rw [split, ← List.append_nil line, splitFrom_append hb]
  simp [splitFrom]

theorem split_append_cons (hb : b ∉ line) (rest : Bytes) :
    split b (line ++ b :: rest) = line :: split b rest := by
  rw [split, splitFrom_append hb, splitFrom, if_pos rfl, splitFrom_acc]
  simp [split]

theorem split_ne_nil (b : UInt8) (s : Bytes) : split b s ≠ [] := by
  suffices h : ∀ piece, splitFrom b [] piece s ≠ [] from h []
  intro piece
  induction s generalizing piece with
  | nil => simp [splitFrom]
  | cons c s ih =>
    rw [splitFrom]
    split
    · rw [splitFrom_acc]
      simp
    · exact ih _

end Bytes

namespace Repl

/-- The input consists of the lines, each of which ends in a line feed. The last one may lack it
unless it is empty. -/
inductive Consists : Bytes → List Bytes → Prop
  | nil : Consists [] []
  | last {line : Bytes} : line ≠ [] → 10 ∉ line → Consists line [line]
  | line {line rest : Bytes} {lines : List Bytes} : 10 ∉ line → Consists rest lines →
    Consists (line ++ 10 :: rest) (line :: lines)

theorem exists_consists (input : Bytes) : ∃ lines, Consists input lines := by
  induction input with
  | nil => exact ⟨[], .nil⟩
  | cons b input ih =>
    obtain ⟨lines, h⟩ := ih
    obtain rfl | hb := eq_or_ne b 10
    · exact ⟨[] :: lines, .line List.not_mem_nil h⟩
    have hcons {line : Bytes} (hline : 10 ∉ line) : 10 ∉ b :: line := by simp [hb.symm, hline]
    cases h with
    | nil => exact ⟨_, .last (by simp) (hcons List.not_mem_nil)⟩
    | last _ hline => exact ⟨_, .last (by simp) (hcons hline)⟩
    | line hline hrest => exact ⟨_, .line (hcons hline) hrest⟩

/-- A conversation reads the lines of its input up to one that is too long. -/
theorem lines_eq {input : Bytes} {ls : List Bytes} (h : Consists input ls) :
    lines input = (ls.takeWhile fun line => line.length ≤ maxLine).map dropReturn := by
  suffices hpieces : (if (input.split 10).getLast? = some [] then (input.split 10).dropLast
      else input.split 10) = ls by
    rw [lines, hpieces]
  induction h with
  | nil => rfl
  | last hne hline => simp [Bytes.split_of_not_mem hline, hne]
  | @line line rest ls hline _ ih =>
    have hsplit := Bytes.split_ne_nil 10 rest
    rw [Bytes.split_append_cons hline, List.getLast?_cons_of_ne_nil hsplit,
      List.dropLast_cons_of_ne_nil hsplit, ← apply_ite (line :: ·), ih]

/-! ### Answers -/

/-- The line asks to leave. -/
def Leaves (line : Bytes) : Prop := line.trim = "exit" ∨ line.trim = "quit"

/-- What may be written about a line that does not ask to leave, and the session after it. An
evaluation is given as many instructions as it executes. -/
inductive Exchange [Casing] (s : Session) (line : Bytes) : Bytes → Session → Prop
  | blank : line.trim = [] → Exchange s line [] s
  | listing {source text : Bytes} : line.trim = listingMark ++ source →
    s.listing source = .ok text → Exchange s line text s
  | noListing {source : Bytes} {e : EvalError} : line.trim = listingMark ++ source →
    s.listing source = .error e → e.Static → Exchange s line e.line s
  | value {n : Nat} {reply : Reply} {s' : Session} {v : Value} : line.trim ≠ [] →
    ¬listingMark <+: line.trim → (∀ fuel, n ≤ fuel → s.eval fuel line.trim = (reply, s')) →
    reply.result = .ok v → Exchange s line (reply.output ++ v.inspect ++ "\n") s'
  | fault {n : Nat} {reply : Reply} {s' : Session} {e : EvalError} : line.trim ≠ [] →
    ¬listingMark <+: line.trim → (∀ fuel, n ≤ fuel → s.eval fuel line.trim = (reply, s')) →
    reply.result = .error e → e.Ordinary s'.table.globalNames.ncard s'.config.globalsSize →
    Exchange s line (reply.output ++ e.line) s'

/-- What is written about lines, one after another, and the session after them. -/
inductive Transcript [Casing] : Session → List Bytes → Bytes → Session → Prop
  | nil (s : Session) : Transcript s [] [] s
  | cons {s s₁ s₂ : Session} {line out more : Bytes} {lines : List Bytes} :
    Exchange s (dropReturn line) out s₁ → Transcript s₁ lines more s₂ →
    Transcript s (line :: lines) (out ++ more) s₂

theorem ofBytes_of_leaves {line : Bytes} (h : Leaves line) : Line.ofBytes line = .leave := by
  have hne : line.trim ≠ [] := by
    obtain h | h := h <;> rw [h] <;> with_unfolding_all decide
  unfold Line.ofBytes
  exact (if_neg hne).trans (if_pos h)

/-- What a line asks for that does not ask to leave. -/
theorem ofBytes_cases {line : Bytes} (h : ¬Leaves line) :
    line.trim = [] ∧ Line.ofBytes line = .blank ∨
    (∃ source, line.trim = listingMark ++ source ∧ Line.ofBytes line = .listing source) ∨
    line.trim ≠ [] ∧ ¬listingMark <+: line.trim ∧ Line.ofBytes line = .evaluate line.trim := by
  simp only [Line.ofBytes]
  split
  · next hnil => exact .inl ⟨hnil, rfl⟩
  next hne =>
  split
  · next hleaves => exact absurd hleaves h
  split
  · next hmark =>
    obtain ⟨source, hsource⟩ := List.isPrefixOf_iff_prefix.1 hmark
    exact .inr (.inl ⟨source, hsource.symm, by rw [← hsource, List.drop_left]⟩)
  · next hmark => exact .inr (.inr ⟨hne, fun h => hmark (List.isPrefixOf_iff_prefix.2 h), rfl⟩)

theorem listing_exchange [Casing] {s : Session} (hs : s.Reachable) {line source : Bytes}
    (hline : line.trim = listingMark ++ source) :
    ∃ out, Exchange s line out s ∧
      ∀ fuel, (Line.listing source).answer fuel false s = (⟨out, []⟩, s) := by
  cases hlisting : s.listing source with
  | ok text => exact ⟨text, .listing hline hlisting, fun _ => by simp only [Line.answer, hlisting]⟩
  | error e =>
    have hstatic := Session.static_of_listing hs.ok hlisting
    exact ⟨e.line, .noListing hline hlisting hstatic, fun _ => by simp only [Line.answer, hlisting]⟩

theorem eval_exchange [Casing] {s : Session} (hs : s.Reachable) {line : Bytes}
    (hne : line.trim ≠ []) (hmark : ¬listingMark <+: line.trim) :
    ∃ n out trace s', Exchange s line out s' ∧ s'.Reachable ∧
      ∀ fuel, n ≤ fuel → answerSource fuel false s line.trim = (⟨out, trace⟩, s') := by
  obtain ⟨n, hn⟩ := Session.eval_ordinary hs.ok line.trim
  have hordinary := (hn n (Nat.le_refl n)).2
  have hreachable : (s.eval n line.trim).2.Reachable := .perform n (.eval line.trim) hs
  have hconfig := Session.config_eval n s line.trim
  have heval : ∀ fuel, n ≤ fuel → s.eval fuel line.trim = (s.eval n line.trim) := fun fuel hfuel =>
    (hn fuel hfuel).1
  generalize s.eval n line.trim = ended at *
  obtain ⟨reply, s'⟩ := ended
  cases hresult : reply.result with
  | ok v =>
    refine ⟨n, _, reply.trace.flatMap TraceEvent.line, s', .value hne hmark heval hresult,
      hreachable, fun fuel hfuel => ?_⟩
    simp only [answerSource, heval fuel hfuel, hresult]
    simp
  | error e =>
    have hfault := hordinary e hresult
    rw [← hconfig] at hfault
    refine ⟨n, _, reply.trace.flatMap TraceEvent.line, s', .fault hne hmark heval hresult hfault,
      hreachable, fun fuel hfuel => ?_⟩
    simp only [answerSource, heval fuel hfuel, hresult]

/-- A line that does not ask to leave is answered, whatever the session. -/
theorem exists_exchange [Casing] {s : Session} (hs : s.Reachable) {line : Bytes}
    (hline : ¬Leaves line) :
    ∃ n out trace s', Exchange s line out s' ∧ s'.Reachable ∧ Line.ofBytes line ≠ .leave ∧
      ∀ fuel, n ≤ fuel → (Line.ofBytes line).answer fuel false s = (⟨out, trace⟩, s') := by
  obtain ⟨hnil, hasks⟩ | ⟨source, hsource, hasks⟩ | ⟨hne, hmark, hasks⟩ := ofBytes_cases hline
  · rw [hasks]
    exact ⟨0, [], [], s, .blank hnil, hs, by simp, fun _ _ => rfl⟩
  · rw [hasks]
    obtain ⟨out, hexchange, hanswer⟩ := listing_exchange hs hsource
    exact ⟨0, out, [], s, hexchange, hs, by simp, fun fuel _ => hanswer fuel⟩
  · rw [hasks]
    obtain ⟨n, out, trace, s', hexchange, hs', hanswer⟩ := eval_exchange hs hne hmark
    exact ⟨n, out, trace, s', hexchange, hs', by simp, hanswer⟩

/-! ### Conversations -/

theorem answers_cons [Casing] {line : Line} (h : line ≠ .leave) (fuel : Nat) (stats : Bool)
    (s : Session) (acc : List Answer) (rest : List Line) :
    answers fuel stats s acc (line :: rest) =
      answers fuel stats (line.answer fuel stats s).2 ((line.answer fuel stats s).1 :: acc) rest := by
  cases line with
  | leave => exact absurd rfl h
  | _ => rfl

theorem answers_acc [Casing] (fuel : Nat) (stats : Bool) (s : Session) (acc : List Answer)
    (ls : List Line) :
    answers fuel stats s acc ls = acc.reverse ++ answers fuel stats s [] ls := by
  induction ls generalizing s acc with
  | nil => exact (List.append_nil _).symm
  | cons line rest ih =>
    obtain rfl | hline := eq_or_ne line .leave
    · exact (List.append_nil _).symm
    · rw [answers_cons hline, answers_cons hline, ih, ih _ [_]]
      simp

/-- What is written about lines that do not ask to leave, if nothing or such a line follows. -/
theorem answers_transcript [Casing] {s : Session} (hs : s.Reachable) {heard : List Bytes}
    (hheard : ∀ line ∈ heard, ¬Leaves (dropReturn line)) {rest : List Line}
    (hrest : ∀ line ∈ rest.head?, line = .leave) :
    ∃ n out s', Transcript s heard out s' ∧ ∀ fuel, n ≤ fuel →
      (answers fuel false s [] (heard.map (Line.ofBytes ∘ dropReturn) ++ rest)).flatMap (·.text) =
        out := by
  induction heard generalizing s with
  | nil =>
    refine ⟨0, [], s, .nil s, fun fuel _ => ?_⟩
    cases rest with
    | nil => rfl
    | cons line more =>
      obtain rfl := hrest line rfl
      rfl
  | cons line heard ih =>
    obtain ⟨hline, hheard⟩ := List.forall_mem_cons.1 hheard
    obtain ⟨n, out, trace, s₁, hexchange, hs₁, hasks, hanswer⟩ := exists_exchange hs hline
    obtain ⟨k, more, s₂, htranscript, hmore⟩ := ih hs₁ hheard
    refine ⟨max n k, out ++ more, s₂, .cons hexchange htranscript, fun fuel hfuel => ?_⟩
    have hfirst := hanswer fuel (Nat.le_trans (Nat.le_max_left n k) hfuel)
    rw [List.map_cons, List.cons_append, Function.comp_apply, answers_cons hasks, hfirst, answers_acc,
      ← hmore fuel (Nat.le_trans (Nat.le_max_right n k) hfuel)]
    rfl

/-- Lines are those before the first one that is too long or asks to leave, and the others. -/
theorem exists_heard (ls : List Bytes) :
    ∃ heard rest, ls = heard ++ rest ∧
      (∀ line ∈ heard, line.length ≤ maxLine ∧ ¬Leaves (dropReturn line)) ∧
      ∀ line ∈ rest.head?, maxLine < line.length ∨ Leaves (dropReturn line) := by
  induction ls with
  | nil => exact ⟨[], [], rfl, by simp, by simp⟩
  | cons line ls ih =>
    by_cases hline : line.length ≤ maxLine ∧ ¬Leaves (dropReturn line)
    · obtain ⟨heard, rest, rfl, hheard, hrest⟩ := ih
      exact ⟨line :: heard, rest, rfl, List.forall_mem_cons.2 ⟨hline, hheard⟩, hrest⟩
    · refine ⟨[], line :: ls, rfl, by simp, ?_⟩
      rintro _ ⟨⟩
      rw [not_and_or, not_not, Nat.not_le] at hline
      exact hline

theorem lines_heard {input : Bytes} {heard rest : List Bytes} (h : Consists input (heard ++ rest))
    (hheard : ∀ line ∈ heard, line.length ≤ maxLine)
    (hrest : ∀ line ∈ rest.head?, maxLine < line.length ∨ Leaves (dropReturn line)) :
    ∃ more : List Line, (lines input).map Line.ofBytes = heard.map (Line.ofBytes ∘ dropReturn) ++ more ∧
      ∀ line ∈ more.head?, line = .leave := by
  refine ⟨(rest.takeWhile fun line => line.length ≤ maxLine).map (Line.ofBytes ∘ dropReturn), ?_, ?_⟩
  · rw [lines_eq h, List.map_map, List.takeWhile_append_of_pos (by simpa using hheard), List.map_append]
  · cases rest with
    | nil => simp
    | cons line rest =>
      by_cases hlong : maxLine < line.length
      · simp [Nat.not_le.2 hlong]
      · have hleaves := (hrest line rfl).resolve_left hlong
        simp [Nat.not_lt.1 hlong, ofBytes_of_leaves hleaves]

/-- A conversation writes the answers to the lines before the first one that asks to leave or is too
long, each in the session that the lines before have left, and nothing else. -/
theorem run_transcript [Casing] {s : Session} (hs : s.Reachable) (input : Bytes) :
    (∃ lines, Consists input lines) ∧ ∀ lines, Consists input lines →
      ∃ heard rest, lines = heard ++ rest ∧
        (∀ line ∈ heard, line.length ≤ maxLine ∧ ¬Leaves (dropReturn line)) ∧
        (∀ line ∈ rest.head?, maxLine < line.length ∨ Leaves (dropReturn line)) ∧
        ∃ n out s', Transcript s heard out s' ∧
          ∀ fuel, n ≤ fuel → (run fuel false false s input).text = out := by
  refine ⟨exists_consists input, fun lines hlines => ?_⟩
  obtain ⟨heard, rest, rfl, hheard, hrest⟩ := exists_heard lines
  obtain ⟨more, hmore, hleave⟩ := lines_heard hlines (fun line h => (hheard line h).1) hrest
  obtain ⟨n, out, s', htranscript, hanswers⟩ :=
    answers_transcript hs (fun line h => (hheard line h).2) hleave
  refine ⟨heard, rest, rfl, hheard, hrest, n, out, s', htranscript, fun fuel hfuel => ?_⟩
  rw [← hanswers fuel hfuel, ← hmore]
  simp [run]

/-- Nothing is written about the source `1` after a blank line that is too long. -/
theorem run_transcript_long :
    ∃ n, ∀ fuel, n ≤ fuel →
      (run fuel false false (.new ⟨64, 4, 3, 0, 0, []⟩ false)
        (List.replicate (maxLine + 1) 32 ++ [10, 49, 10])).text = [] := by
  have hsource : Consists [49, 10] [[49]] := .line (by decide : (10 : UInt8) ∉ [49]) .nil
  have hlines : Consists (List.replicate (maxLine + 1) 32 ++ [10, 49, 10])
      [List.replicate (maxLine + 1) 32, [49]] :=
    .line (fun h => absurd (List.eq_of_mem_replicate h) (by decide)) hsource
  obtain ⟨heard, rest, heq, hheard, -, n, out, s', htranscript, hrun⟩ :=
    (run_transcript (.new ⟨64, 4, 3, 0, 0, []⟩ false) _).2 _ hlines
  cases htranscript with
  | nil => exact ⟨n, hrun⟩
  | cons =>
    obtain ⟨rfl, -⟩ := List.cons.inj heq
    have hlength := (hheard _ List.mem_cons_self).1
    rw [List.length_replicate] at hlength
    exact absurd hlength (Nat.not_succ_le_self _)

end Repl

end StackScript
