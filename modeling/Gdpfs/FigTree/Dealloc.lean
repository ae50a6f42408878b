import Gdpfs.FigTree.Refine.Write

/-!
# Giving a tree back

`ft_dealloc` follows the pointers to the children that are in memory.  On a
tree that the heap represents it meets no node twice and no node that is gone,
and it gives back those nodes and no others.
-/

namespace Gdpfs
namespace FigTree

open Log Effect
open Cells (Owns Holds cell)

/-- `ft_dealloc`; the null pointer it leaves in `root` is the caller's. -/
def ftDealloc (this : Figtree) : FigM Unit :=
  ftnFree this.root

/-- The nodes below a node, and the node itself, as far as they are in
memory. -/
inductive Under (heap : Heap) : Addr → Addr → Prop
  | node (isNode : heap.read this = some node) : Under heap this this
  | kid
      (isNode : heap.read this = some node)
      (slot : sptr ∈ node.subtrees)
      (inmemory : sptr.inmemory = true)
      (isKid : sptr.st = some st)
      (below : Under heap st address) :
      Under heap this address

section Dealloc

variable {log : List LogRecord} {h : Nat} {heap : Heap}
  {cells here frame : Part} {this : Addr}

/-- A child in memory is a subtree of its own. -/
theorem KidRep.subtree
    {kid : Kid (Tree h)}
    (kidRep : KidRep (Rep log h) sptr kid here)
    (inmemory : sptr.inmemory = true)
    (isKid : sptr.st = some st) :
    ∃ below, h = below + 1 ∧
      ∃ child : Tree (below + 1),
        Rep log (below + 1) (.memory (some st)) child here := by
  cases kid with
  | unloaded saved seen stored => cases kidRep.1.symm.trans inmemory
  | loaded saved child =>
      obtain ⟨_, _, childRep⟩ := kidRep
      rw [isKid] at childRep
      cases h with
      | zero => cases childRep.1
      | succ h => exact ⟨h, rfl, child, childRep⟩

/-- Only a child in memory has cells. -/
theorem KidRep.pointer_of_cell
    {kid : Kid (Tree h)}
    (kidRep : KidRep (Rep log h) sptr kid here)
    (member : one ∈ here) :
    sptr.inmemory = true ∧ ∃ st, sptr.st = some st := by
  cases kid with
  | unloaded saved seen stored =>
      obtain ⟨_, _, _, _, rfl⟩ := kidRep
      exact absurd member (Multiset.notMem_zero _)
  | loaded saved child =>
      obtain ⟨loaded, _, childRep⟩ := kidRep
      cases h with
      | zero =>
          obtain ⟨_, rfl⟩ := childRep
          exact absurd member (Multiset.notMem_zero _)
      | succ h =>
          obtain ⟨st, _, _, isSome, _⟩ := childRep
          exact ⟨loaded, st, isSome⟩

/-- The cells of a tree are the nodes that `ft_dealloc` comes to. -/
theorem mem_cells_iff_under
    {tree : Tree (h + 1)}
    (rep : Rep log (h + 1) (.memory (some this)) tree cells)
    (owns : Owns heap (cells + frame)) :
    address ∈ cells.map Prod.fst ↔ Under heap this address := by
  induction h using Nat.strong_induction_on generalizing this cells frame with
  | h h inductionHypothesis =>
      obtain ⟨_, node, below, same, rfl, nodeRep⟩ := rep
      cases same
      rw [add_assoc] at owns
      have live := owns.read
      have inKid : ∀ {sptr kid here rest st}, below = here + rest →
          KidRep (Rep log h) sptr kid here → sptr.inmemory = true →
          sptr.st = some st →
          (address ∈ here.map Prod.fst ↔ Under heap st address) := by
        intro sptr kid here rest st split kidRep inmemory isKid
        obtain ⟨lower, rfl, child, childRep⟩ := kidRep.subtree inmemory isKid
        have owns' : Owns heap (here + (rest + (cell this node + frame))) := by
          refine owns.of_eq ?_
          rw [split]
          abel
        exact inductionHypothesis lower (Nat.lt_succ_self _) childRep owns'
      rw [Multiset.map_add, Multiset.mem_add, cell, Multiset.map_singleton,
        Multiset.mem_singleton]
      constructor
      · rintro (rfl | inBelow)
        · exact Under.node live
        · obtain ⟨one, isCell, rfl⟩ := Multiset.mem_map.mp inBelow
          obtain ⟨sptr, slot, kid, _, here, rest, split, kidRep, inside⟩ :=
            nodeRep.kids.of_cell isCell
          obtain ⟨inmemory, st, isKid⟩ := kidRep.pointer_of_cell inside
          exact Under.kid live slot inmemory isKid
            ((inKid split kidRep inmemory isKid).mp
              (Multiset.mem_map_of_mem Prod.fst inside))
      · intro under
        cases under with
        | node _ => exact Or.inl rfl
        | kid isNode slot inmemory isKid under =>
            cases isNode.symm.trans live
            obtain ⟨kid, _, here, rest, split, kidRep⟩ :=
              nodeRep.kids.of_slot slot
            rw [split, Multiset.map_add, Multiset.mem_add]
            exact Or.inr (Or.inl
              ((inKid split kidRep inmemory isKid).mpr under))

/-- `ft_dealloc` ends, and frees the nodes below the root and no others. -/
theorem ensures_ftDealloc
    {fig : Fig}
    {this : Figtree}
    (holds : Holds (FigRep log fig this) 0 heap) :
    Ensures (ftDealloc this)
      (fun _ next => ∀ address,
        (Under heap this.root address → next.read address = none) ∧
          (¬Under heap this.root address →
            next.read address = heap.read address)) heap := by
  obtain ⟨cells, rep, owns⟩ := holds
  have under := fun address =>
    @mem_cells_iff_under log fig.height heap cells 0 this.root address
      fig.tree rep owns
  refine (ensures_ftnFree rep owns).mono ?_
  rintro _ next ⟨_, freed⟩ address
  rw [← under]
  exact ⟨freed.gone address, freed.kept address⟩

end Dealloc

end FigTree
end Gdpfs
