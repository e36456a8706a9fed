import StackScript.Proofs.Compile.Realization
import StackScript.Proofs.Machine.Insertion

/-!
# The order of pairs does not show

The pairs of a hash literal are compiled in the order of the texts of their keys.
If no two keys have the same text, there is one such order only, however the
pairs are written. The compilation sees the pairs in that order and otherwise
only how many they are and whether a key has a hole, so it is the same for all
ways to write them, whatever it is that it does with the keys and the values.

## Main results

* `Expr.inOrder_eq_of_perm`: pairs with different keys have one order.
* `Expr.compile_hash`: what the compilation sees of the pairs.
* `Expr.compile_hash_perm`: pairs can be written in any order.
-/

namespace StackScript

namespace Expr

variable {pairs pairs' : List (Expr × Expr)}

theorem pairwise_inOrder (pairs : List (Expr × Expr)) :
    (inOrder pairs).Pairwise fun p q => Bytes.le p.1.render q.1.render = true := by
  apply List.pairwise_mergeSort
  · intro p q r
    exact Bytes.le_trans
  · intro p q
    exact Bytes.le_total p.1.render q.1.render

/-- Different pairs have keys with different texts, so neither can stand before the other at will. -/
theorem inOrder_eq_of_perm (hperm : pairs.Perm pairs')
    (hkeys : (pairs.map fun p => p.1.render).Nodup) : inOrder pairs = inOrder pairs' := by
  have hsorted : (inOrder pairs).Perm (inOrder pairs') :=
    ((List.mergeSort_perm pairs _).trans hperm).trans (List.mergeSort_perm pairs' _).symm
  refine hsorted.eq_of_pairwise ?_ (pairwise_inOrder pairs) (pairwise_inOrder pairs')
  intro p q hp hq hpq hqp
  have hp : p ∈ pairs := mem_inOrder.1 hp
  have hq : q ∈ pairs := hperm.mem_iff.2 (mem_inOrder.1 hq)
  exact List.inj_on_of_nodup_map hkeys hp hq (Bytes.le_antisymm hpq hqp)

open Compile in
/-- The steps of a hash literal: its pairs matter by their number, by the holes in their keys, and by
their order. -/
theorem compile_hash (loc : Loc) (pairs : List (Expr × Expr)) :
    (Expr.hash loc pairs).compile = (do
      check loc.pos pairs.length 2 (.hash pairs.length)
      if 2 ≤ pairs.length ∧ pairs.any (fun p => !p.1.renderable) then fail loc.pos .unorderedKey
      runAll ((inOrder pairs).map fun p => (p.1.render, do p.1.compile; p.2.compile))
      emit .hash [pairs.length]) := by
  rw [Expr.compile, compilePairs_eq, List.reverse_nil, List.nil_append, mergeSort_keyed]

/-- The pairs of a hash literal can be written in any order. If no two keys have the same text, then
from any state the compilation of the pairs in another order ends like that of the literal: in the
same fault or without one, and in either case with the same instructions, constants and tables of
names. -/
theorem compile_hash_perm (loc : Loc) (hperm : pairs.Perm pairs')
    (hkeys : (pairs.map fun p => p.1.render).Nodup) (c : Compiler) :
    (Expr.hash loc pairs).compile c = (Expr.hash loc pairs').compile c := by
  have hholes : pairs.any (fun p => !p.1.renderable) = pairs'.any fun p => !p.1.renderable :=
    hperm.any_eq
  rw [compile_hash, compile_hash, inOrder_eq_of_perm hperm hkeys, hperm.length_eq, hholes]

/-- A number with a function, and two names that are bound nowhere, so that the compilation ends in a
fault, which is about the name `a` in both orders. -/
theorem compile_hash_perm_faulty :
    let name (x : String) : Expr := .ident ⟨.none, x⟩
    let same : Expr := .function .none [] [⟨.none, "x"⟩] (.mk .none [.expr .none (name "x")])
    let pairs := [(name "b", name "c"), (.int .none "9" 9, same), (name "a", name "b")]
    let pairs' := [(name "a", name "b"), (name "b", name "c"), (.int .none "9" 9, same)]
    pairs.Perm pairs' ∧ (pairs.map fun p => p.1.render).Nodup ∧
      (Expr.hash .none pairs).compile (.new .global #[]) =
        (Expr.hash .none pairs').compile (.new .global #[]) := by
  intro name same pairs pairs'
  have hperm : pairs.Perm pairs' :=
    ((List.Perm.swap _ _ _).cons _).trans (List.Perm.swap _ _ _)
  have hkeys : (pairs.map fun p => p.1.render).Nodup := by decide +kernel
  exact ⟨hperm, hkeys, compile_hash_perm .none hperm hkeys _⟩

end Expr

end StackScript
