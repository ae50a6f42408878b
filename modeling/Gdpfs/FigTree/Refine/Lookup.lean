import Gdpfs.FigTree.Refine.Write

/-!
# Looking up in the heap

`ft_lookup` answers what `Fig.look` answers, and `ft_init` makes the empty
tree.
-/

namespace Gdpfs
namespace FigTree

open Log Effect
open Cells (Owns Holds cell)

/-- How the scan of `ft_lookup` over a node ends: at the entry that holds the
byte, or at the child that lookups go to. -/
theorem scanLookup_spec
    (answer : C → Option Int)
    (left : List (FtEnt × Kid C))
    (kid : Kid C)
    (rest : List (FtEnt × Kid C)) :
    match scanLookup x (rest.map Prod.fst) left.length with
    | .found value => lookIn answer x kid rest = some value
    | .subtree i =>
        ∃ left' kid' right', zipUp left' kid' right' = zipUp left kid rest ∧
          left'.length = i ∧ lookIn answer x kid rest = answer kid'.get := by
  induction rest generalizing left kid with
  | nil => exact ⟨left, kid, [], rfl, rfl, rfl⟩
  | cons head rest inductionHypothesis =>
      obtain ⟨entry, next⟩ := head
      rw [List.map_cons, scanLookup, lookIn]
      dsimp only
      by_cases holds : iContainsVal entry.irange x = true
      · rw [if_pos holds, if_pos holds]
      · rw [if_neg holds, if_neg holds]
        by_cases before : entry.irange.left > x
        · rw [if_pos before, if_pos before]
          exact ⟨left, kid, (entry, next) :: rest, rfl, rfl, rfl⟩
        · rw [if_neg before, if_neg before]
          exact inductionHypothesis ((entry, kid) :: left) next

section Lookup

variable {log : List LogRecord} {heap : Heap} {frame cells : Part}

theorem ensures_ftLookupFrom
    {h : Nat}
    {tree : Tree h}
    (rep : Rep log h (.memory ptr) tree cells)
    (deep : h ≤ depth)
    (owns : Owns heap (cells + frame)) :
    Ensures (ftLookupFrom log x depth ptr)
      (fun value _ => value = look h tree x) heap := by
  induction h generalizing depth ptr cells frame heap with
  | zero =>
      obtain ⟨rfl, _⟩ := rep
      have done : ftLookupFrom log x depth none = pure none := by
        cases depth <;> rfl
      rw [done, ensures_pure]
      rfl
  | succ h inductionHypothesis =>
      obtain ⟨depth, rfl⟩ := Nat.exists_eq_add_of_le' deep
      obtain ⟨this, node, below, rfl, rfl, nodeRep⟩ := rep
      have owns := owns.of_eq (add_assoc _ _ _)
      rw [← Nat.add_assoc, ftLookupFrom,
        ensures_run_bind (run_loadNode owns)]
      have scanned := scanLookup_spec (x := x)
        (fun child => look h child x) []
        (Node.first (C := Tree h) tree) (Node.rest (C := Tree h) tree)
      have entries : node.entries =
          (Node.rest (C := Tree h) tree).map Prod.fst := nodeRep.entries
      rw [entries]
      change match scanLookup x _ 0 with | .found _ => _ | .subtree _ => _
        at scanned
      cases found : scanLookup x ((Node.rest (C := Tree h) tree).map
          Prod.fst) 0 with
      | found value =>
          rw [found] at scanned
          exact ensures_pure.mpr scanned.symm
      | subtree i =>
          rw [found] at scanned
          obtain ⟨left, kid, right, shape, rfl, answer⟩ := scanned
          obtain ⟨_, before, sptr, after, leftCells, here, rightCells,
            subtrees, lengths, rfl, leftRep, kidRep, rightRep⟩ :=
            nodeRep.focus shape
          dsimp only
          rw [← lengths]
          refine Ensures.bind ((@ensures_subtreeGet _ _ _ (leftCells + rightCells + frame)) subtrees kidRep
            (owns.of_eq (by abel))) ?_
          rintro ptr next ⟨sptr', here', _, kidRep, owns⟩
          refine (inductionHypothesis kidRep (Nat.le_add_left _ _)
            (owns.of_eq (add_left_comm _ _ _))).mono ?_
          rintro value _ rfl
          exact answer.symm

/-- `ft_lookup` answers from the tree that the heap represents. -/
theorem ensures_ftLookup
    {fig : Fig}
    (rep : FigRep log fig this cells)
    (owns : Owns heap (cells + frame))
    (x : Nat) :
    Ensures (ftLookup log this x) (fun value _ => value = fig.look x)
      heap := by
  have whole := rep
  obtain ⟨_, node, below, same, rfl, nodeRep⟩ := rep
  cases same
  rw [ftLookup, ensures_run_bind
    (run_loadNode (owns.of_eq (add_assoc _ _ _))), nodeRep.height]
  exact ensures_ftLookupFrom whole le_rfl owns

/-- The tree that `ft_init` makes. -/
def Fig.empty : Fig := ⟨0, chain 1⟩

theorem ensures_ftInit
    (owns : Owns heap frame) :
    Ensures ftInit
      (fun this next => Holds (FigRep log Fig.empty this) frame next)
      heap := by
  rw [ftInit, ensures_bind]
  exact (ensures_ftnNew 0 owns).mono
    fun this next holds => ensures_pure.mpr holds

end Lookup

end FigTree
end Gdpfs
