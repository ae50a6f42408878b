import Gdpfs.FigTree.Runs

/-!
# The shape of the nodes

The representation invariant of a FIG tree, stated on the heap: how many
entries and subtrees a node has, how its entries lie, and that all leaves are
at the same depth.
-/

namespace Gdpfs
namespace FigTree

open Log Effect
open Cells (Owns Holds cell Store)

/-- The heap below a pointer: a null pointer below the leaves, and above them
nodes of the right height with their entries in order. -/
def Shaped (heap : Heap) : (levels : Nat) → Option Addr → Prop
  | 0, ptr => ptr = none
  | height + 1, ptr =>
      ∃ this node, ptr = some this ∧ heap.read this = some node ∧
        node.height = height ∧
        node.entries.length ≤ 2 * ftOrder ∧
        node.entries.length + 1 = node.subtrees.length ∧
        (∀ entry ∈ node.entries, entry.irange.left ≤ entry.irange.right) ∧
        node.entries.Pairwise
          (fun before after => before.irange.right < after.irange.left) ∧
        ∀ sptr ∈ node.subtrees, Shaped heap height sptr.st

section Members

theorem RepKids.exists_kid
    {rep : SubtreePtr → Kid C → Part → Prop}
    (kids : RepKids rep ptrs children cells)
    (member : sptr ∈ ptrs) :
    ∃ kid ∈ children, ∃ here rest, cells = here + rest ∧
      rep sptr kid here := by
  induction children generalizing ptrs cells with
  | nil =>
      obtain ⟨rfl, _⟩ := repKids_nil.mp kids
      cases member
  | cons kid children inductionHypothesis =>
      obtain ⟨first, others, here, there, rfl, rfl, kidRep, tail⟩ :=
        repKids_cons.mp kids
      rcases List.mem_cons.mp member with rfl | inTail
      · exact ⟨kid, List.mem_cons_self, here, there, rfl, kidRep⟩
      · obtain ⟨found, inChildren, part, rest, rfl, foundRep⟩ :=
          inductionHypothesis tail inTail
        exact ⟨found, List.mem_cons_of_mem _ inChildren, part, here + rest,
          add_left_comm _ _ _, foundRep⟩

theorem KidsRight.exists_good
    {good : Nat → Nat → Kid C → Prop}
    {rest : List (FtEnt × Kid C)}
    (kids : KidsRight good high rest)
    (member : kid ∈ rest.map Prod.snd) :
    ∃ low' high', good low' high' kid := by
  induction rest with
  | nil => cases member
  | cons head rest inductionHypothesis =>
      rcases List.mem_cons.mp member with rfl | inRest
      · exact ⟨_, _, kids.1⟩
      · exact inductionHypothesis kids.2 inRest

theorem KidsIn.exists_good
    {good : Nat → Nat → Kid C → Prop}
    {node : Node C}
    (kids : KidsIn good low high node.first node.rest)
    (member : kid ∈ node.kids) :
    ∃ low' high', good low' high' kid := by
  rcases List.mem_cons.mp member with rfl | inRest
  · exact ⟨_, _, kids.1⟩
  · exact kids.2.exists_good inRest

theorem Ordered.entries
    {rest : List (FtEnt × Kid C)}
    (ordered : Ordered low high rest) :
    (∀ entry ∈ rest.map Prod.fst, low ≤ entry.irange.left ∧
        entry.irange.left ≤ entry.irange.right ∧
        entry.irange.right < high) ∧
      (rest.map Prod.fst).Pairwise
        (fun before after => before.irange.right < after.irange.left) := by
  induction rest generalizing low with
  | nil => exact ⟨nofun, List.Pairwise.nil⟩
  | cons head rest inductionHypothesis =>
      obtain ⟨entry, kid⟩ := head
      obtain ⟨_, lower, ends, upper, beyond⟩ := ordered
      obtain ⟨inRest, pairwise⟩ := inductionHypothesis beyond
      rw [List.map_cons]
      refine ⟨fun other member => ?_, List.Pairwise.cons ?_ pairwise⟩
      · rcases List.mem_cons.mp member with rfl | inTail
        · exact ⟨lower, ends, upper⟩
        · have := inRest other inTail
          exact ⟨by omega, this.2⟩
      · intro other member
        exact (inRest other member).1

end Members

section Shape

variable {log : List LogRecord} {regime : Regime} {heap : Heap}

/-- A sound child of a tree in memory is represented below its pointer. -/
theorem KidRep.in_memory
    {h low high : Nat}
    {kid : Kid (Tree h)}
    (kidRep : KidRep (Rep log h) sptr kid cells)
    (good : SoundKid regime h low high kid)
    (eager : ¬regime.partly) :
    Rep log h (.memory sptr.st) kid.get cells := by
  have loaded := good.isLoaded eager
  cases kid with
  | unloaded saved seen stored => cases loaded
  | loaded saved child => exact kidRep.2.2

/-- What represents a sound tree in memory has the shape of one. -/
theorem shaped_of_sound
    {h low high : Nat}
    {tree : Tree h}
    (eager : ¬regime.partly)
    (sound : Sound regime h low high tree)
    (rep : Rep log h (.memory ptr) tree cells)
    (owns : Owns heap (cells + frame)) :
    Shaped heap h ptr := by
  induction h generalizing low high ptr cells frame with
  | zero => exact rep.1
  | succ h inductionHypothesis =>
      obtain ⟨this, node, below, rfl, rfl, nodeRep⟩ := rep
      have owns := owns.of_eq (add_assoc _ _ _)
      obtain ⟨ends, pairwise⟩ := sound.ordered.entries
      have entries : node.entries =
          (Node.rest (C := Tree h) tree).map Prod.fst := nodeRep.entries
      refine ⟨this, node, rfl, owns.read, nodeRep.height, ?_, ?_, ?_, ?_, ?_⟩
      · rw [entries, List.length_map]
        exact sound.count
      · rw [entries, nodeRep.kids.length_eq]
        simp [Node.kids]
      · rw [entries]
        exact fun entry member => (ends entry member).2.1
      · rw [entries]
        exact pairwise
      · intro sptr member
        obtain ⟨kid, isKid, here, others, rfl, kidRep⟩ :=
          nodeRep.kids.exists_kid member
        obtain ⟨low', high', good⟩ := sound.kids.exists_good isKid
        have childRep := KidRep.in_memory kidRep good eager
        exact inductionHypothesis good.1 childRep (Owns.drop
          (owns.of_eq
            (show _ = cell this node + (here + (others + frame)) by
              rw [add_assoc])))

end Shape

/-- After any sequence of writes below the last byte index, every node of the
tree has the right numbers of entries and subtrees, its entries in order, and
subtrees of the height below its own. -/
theorem ftRun_keeps_shape
    (log : List LogRecord)
    (calls : List WriteCall)
    (below : CallsBelow byteIndexMax calls) :
    Ensures (ftRun log calls)
      (fun this heap => ∃ height, Shaped heap (height + 1) (some this.root))
      Store.empty := by
  refine (ensures_ftRun below).mono ?_
  rintro this heap ⟨fig, sound, ⟨cells, rep, owns⟩, _⟩
  exact ⟨fig.height, shaped_of_sound id sound rep owns⟩

/-- Five entries do not fit into one node. -/
theorem ftRun_keeps_shape_split :
    CallsBelow byteIndexMax
        [⟨0, 0, 1⟩, ⟨2, 2, 2⟩, ⟨4, 4, 3⟩, ⟨6, 6, 4⟩, ⟨8, 8, 5⟩] ∧
      Ensures (ftRun []
          [⟨0, 0, 1⟩, ⟨2, 2, 2⟩, ⟨4, 4, 3⟩, ⟨6, 6, 4⟩, ⟨8, 8, 5⟩])
        (fun this heap => ∃ height,
          Shaped heap (height + 1) (some this.root)) Store.empty := by
  have below : CallsBelow byteIndexMax
      [⟨0, 0, 1⟩, ⟨2, 2, 2⟩, ⟨4, 4, 3⟩, ⟨6, 6, 4⟩, ⟨8, 8, 5⟩] := by
    unfold CallsBelow
    decide
  exact ⟨below, ftRun_keeps_shape [] _ below⟩

end FigTree
end Gdpfs
