import Gdpfs.FigTree.Refine.Lookup
import Gdpfs.FigTree.Abstract.Continuation

/-!
# What pruning a node leaves

`ftn_pruneTo` keeps of a node what meets the valid interval.  The entries that
are left are those that meet it, cut down to it; nothing that can be looked up
inside it changes, and the tree below the node is as well formed as before.
-/

namespace Gdpfs
namespace FigTree

open Log Effect
open Cells (Owns Holds cell)

/-! ## The entries -/

/-- The entries that meet the valid interval, cut down to it. -/
def FtEnt.cutTo (valid : Interval) (entries : List FtEnt) : List FtEnt :=
  (entries.filter (fun entry => iOverlaps entry.irange valid)).map
    (fun entry => entry.trim valid)

theorem cutTo_cons_of_meets
    (meets : iOverlaps entry.irange valid = true)
    (entries : List FtEnt) :
    FtEnt.cutTo valid (entry :: entries) =
      entry.trim valid :: FtEnt.cutTo valid entries := by
  simp [FtEnt.cutTo, meets]

theorem cutTo_cons_of_misses
    (misses : ¬iOverlaps entry.irange valid = true)
    (entries : List FtEnt) :
    FtEnt.cutTo valid (entry :: entries) = FtEnt.cutTo valid entries := by
  simp [FtEnt.cutTo, misses]

section Entries

variable {valid : Interval} {rest : List (FtEnt × Kid C)}

/-- Entries beyond the valid interval do not meet it. -/
theorem cutTo_beyond
    (ordered : Ordered low high rest)
    (beyond : valid.right < low) :
    FtEnt.cutTo valid (rest.map Prod.fst) = [] := by
  induction rest generalizing low with
  | nil => rfl
  | cons head rest inductionHypothesis =>
      obtain ⟨entry, next⟩ := head
      obtain ⟨flag, lowBound, ends, highBound, tail⟩ := ordered
      have misses : ¬iOverlaps entry.irange valid = true := by
        rw [iOverlaps_iff]
        omega
      rw [List.map_cons, cutTo_cons_of_misses misses]
      exact inductionHypothesis tail (by omega)

/-- The last phases keep the entries that meet the valid interval. -/
theorem entries_pruneRight
    (ordered : Ordered low high rest)
    (clear : Kid C → Kid C)
    (validFlag : valid.nonempty = true)
    (inside : valid.left ≤ low) :
    (pruneRight clear valid rest).map Prod.fst =
      FtEnt.cutTo valid (rest.map Prod.fst) := by
  induction rest generalizing low with
  | nil => rfl
  | cons head rest inductionHypothesis =>
      obtain ⟨entry, next⟩ := head
      have shapes := pruneRight_cons ordered clear validFlag inside
      obtain ⟨flag, lowBound, ends, highBound, tail⟩ := ordered
      rw [List.map_cons]
      rcases shapes with
        ⟨within, result⟩ | ⟨starts, sticksOut, result⟩ | ⟨beyond, result⟩
      · have meets : iOverlaps entry.irange valid = true := by
          rw [iOverlaps_iff]
          omega
        have kept : entry.trim valid = entry := by
          rw [FtEnt.trim, max_eq_left (by omega), min_eq_left within]
        rw [result, List.map_cons, cutTo_cons_of_meets meets, kept,
          inductionHypothesis tail (by omega)]
      · have meets : iOverlaps entry.irange valid = true := by
          rw [iOverlaps_iff]
          omega
        rw [result, cutTo_cons_of_meets meets,
          cutTo_beyond tail (by omega : valid.right < entry.irange.right + 1)]
        rfl
      · have misses : ¬iOverlaps entry.irange valid = true := by
          rw [iOverlaps_iff]
          omega
        rw [result, cutTo_cons_of_misses misses,
          cutTo_beyond tail (by omega : valid.right < entry.irange.right + 1)]
        rfl

/-- The first phase drops entries that do not meet the valid interval. -/
theorem cutTo_pruneBefore
    (valid : Interval)
    (kid : Kid C)
    (rest : List (FtEnt × Kid C)) :
    FtEnt.cutTo valid ((pruneBefore valid kid rest).2.map Prod.fst) =
      FtEnt.cutTo valid (rest.map Prod.fst) := by
  induction rest generalizing kid with
  | nil => rfl
  | cons head rest inductionHypothesis =>
      obtain ⟨entry, next⟩ := head
      rw [pruneBefore]
      by_cases before : iLeftOfInt entry.irange valid = true
      · have misses : ¬iOverlaps entry.irange valid = true := by
          rw [iLeftOfInt_iff] at before
          rw [iOverlaps_iff]
          omega
        rw [if_pos before, inductionHypothesis, List.map_cons,
          cutTo_cons_of_misses misses]
      · rw [if_neg before]

/-- Pruning keeps the entries that meet the valid interval. -/
theorem entries_prune
    {node : Node (Tree h)}
    (ordered : Ordered low high node.rest)
    (regular : valid.Regular)
    (validFlag : valid.nonempty = true) :
    (node.prune valid).entries = FtEnt.cutTo valid node.entries := by
  have validEnds := regular.ordered validFlag
  have before := cutTo_pruneBefore valid node.first node.rest
  obtain ⟨insideOrdered, reaches⟩ := pruneBefore_ordered ordered
  rw [Node.entries, Node.entries, Node.prune, if_pos validFlag, ← before]
  dsimp only
  generalize pruneBefore valid node.first node.rest = inside at *
  obtain ⟨kid, rest⟩ := inside
  cases rest with
  | nil => rfl
  | cons head rest =>
      obtain ⟨entry, next⟩ := head
      have reach := reaches entry next rest rfl
      obtain ⟨flag, lowBound, ends, highBound, tail⟩ := insideOrdered
      rcases pruneLeft_cons clearKid validFlag reach with
        ⟨starts, result⟩ | ⟨beyond, result⟩
      · have meets : iOverlaps entry.irange valid = true := by
          rw [iOverlaps_iff]
          omega
        rw [result, List.map_cons, List.map_cons, cutTo_cons_of_meets meets,
          entries_pruneRight tail clearKid validFlag (by omega)]
      · have whole : Ordered entry.irange.left high ((entry, next) :: rest) :=
          ⟨flag, le_rfl, ends, highBound, tail⟩
        rw [result, entries_pruneRight whole clearKid validFlag (by omega)]

end Entries

/-! ## The trees below -/

theorem kidsIn_const_iff
    {good : Kid C → Prop}
    {rest : List (FtEnt × Kid C)} :
    KidsIn (fun _ _ kid => good kid) low high first rest ↔
      ∀ kid ∈ first :: rest.map Prod.snd, good kid := by
  rw [KidsIn, List.forall_mem_cons]
  refine and_congr_right fun _ => ?_
  induction rest with
  | nil => exact iff_of_true trivial (by simp)
  | cons head rest inductionHypothesis =>
      rw [KidsRight, List.map_cons, List.forall_mem_cons, inductionHypothesis]

theorem sorted_chain : (h : Nat) → Sorted h (chain h)
  | 0 => trivial
  | h + 1 => by
      refine ⟨trivial, ?_⟩
      intro kid member
      cases List.mem_singleton.mp member
      exact sorted_chain h

theorem sorted_clear {h : Nat} (node : Node (Tree h)) :
    Sorted (h + 1) node.clear := by
  refine ⟨trivial, ?_⟩
  intro kid member
  cases List.mem_singleton.mp member
  exact sorted_chain h

/-- A cleared child has its entries in order: it has none. -/
theorem sorted_clearKid {h : Nat} (kid : Kid (Tree h)) :
    Sorted h (clearKid kid).get := by
  cases h with
  | zero => trivial
  | succ h =>
      cases kid with
      | loaded saved child => exact sorted_clear child
      | unloaded saved seen stored => exact sorted_chain (h + 1)

/-- Pruning keeps every node below in order. -/
theorem Sorted.prune
    {node : Node (Tree h)}
    {valid : Interval}
    (sorted : Sorted (h + 1) node)
    (regular : valid.Regular) :
    Sorted (h + 1) (node.prune valid) := by
  obtain ⟨ordered, kids⟩ := sorted
  refine ⟨(prune_ordered ordered regular).1.mono (Nat.zero_le _)
    (min_le_left _ _), ?_⟩
  by_cases validFlag : valid.nonempty = true
  · rw [Node.kids, Node.prune, if_pos validFlag]
    have before : KidsIn (fun _ _ kid => Sorted h kid.get) 0 byteIndexEnd
        node.first node.rest := kidsIn_const_iff.mpr kids
    refine kidsIn_const_iff.mp (?_ : KidsIn
      (fun _ _ kid => Sorted h kid.get) valid.left
      (min byteIndexEnd (valid.right + 1)) _ _)
    exact kidsIn_prunePhases (fun _ _ _ _ _ _ good => good)
      (fun _ _ kid _ _ => sorted_clearKid kid) validFlag rfl ordered
      (Nat.zero_le _) before
  · rw [Node.prune, if_neg validFlag]
    exact (sorted_clear node).2

/-! ## The heap -/

/-- What `ftn_pruneTo` leaves of a tree, compared with the heap before. -/
structure PrunedTo
    (log : List LogRecord)
    (h : Nat)
    (this : Addr)
    (valid : Interval)
    (heap next : Heap)
    (pruned : Tree (h + 1)) : Prop where
  /-- Every node below has its entries in order. -/
  sorted : Sorted (h + 1) pruned
  /-- Without a valid interval an entry-free chain is left. -/
  cleared : valid.nonempty = false → Bare (h + 1) pruned
  /-- The entries that meet the valid interval are left, cut down to it, in a
  node of the same height. -/
  entries : valid.nonempty = true → ∃ before after,
    heap.read this = some before ∧ next.read this = some after ∧
      after.height = before.height ∧
      after.entries = FtEnt.cutTo valid before.entries
  /-- They lie inside the valid interval. -/
  inside : valid.nonempty = true → ∀ after, next.read this = some after →
    ∀ entry ∈ after.entries,
      valid.left ≤ entry.irange.left ∧ entry.irange.right ≤ valid.right
  /-- A lookup inside the valid interval gives the same answer. -/
  lookup : valid.nonempty = true → ∀ x, valid.left ≤ x → x ≤ valid.right →
    ∃ answer,
      outcome (ftLookupFrom log x (h + 1) (some this)) heap = some answer ∧
      outcome (ftLookupFrom log x (h + 1) (some this)) next = some answer

/-- Entries that were cut down to an interval lie inside it. -/
theorem mem_cutTo
    (member : entry ∈ FtEnt.cutTo valid entries) :
    valid.left ≤ entry.irange.left ∧ entry.irange.right ≤ valid.right := by
  obtain ⟨whole, _, rfl⟩ := List.mem_map.mp member
  exact ⟨le_max_right _ _, min_le_right _ _⟩

/-- The node at the top of a tree in memory. -/
theorem Rep.top
    {tree : Node (Tree h)}
    (rep : Rep log (h + 1) (.memory (some this)) tree cells)
    (owns : Owns heap (cells + frame)) :
    ∃ node, heap.read this = some node ∧ node.height = h ∧
      node.entries = tree.entries := by
  obtain ⟨_, node, below, same, rfl, nodeRep⟩ := rep
  cases same
  have owned := owns.of_eq (add_assoc _ _ _)
  exact ⟨node, owned.read, nodeRep.height, nodeRep.entries⟩

/-- Pruning is invisible inside the valid interval: whatever tree hangs below a
node, `ftn_pruneTo` runs to its end and leaves a tree of the same height that
is pruned to the interval. -/
theorem prune_invisible
    {tree : Node (Tree h)}
    (rep : Rep log (h + 1) (.memory (some this)) tree cells)
    (sorted : Sorted (h + 1) tree)
    (regular : valid.Regular)
    (owns : Owns heap (cells + frame)) :
    Ensures (ftnPruneTo this valid)
      (fun _ next => ∃ pruned left,
        Rep log (h + 1) (.memory (some this)) pruned left ∧
        Owns next (left + frame) ∧
        PrunedTo log h this valid heap next pruned) heap := by
  refine (ensures_ftnPruneTo rep regular owns).mono ?_
  rintro _ next ⟨left, after, owned⟩
  refine ⟨tree.prune valid, left, after, owned, ?_⟩
  obtain ⟨top, read, height, entries⟩ := rep.top owns
  obtain ⟨top', read', height', entries'⟩ := after.top owned
  have cut (flag : valid.nonempty = true) :
      top'.entries = FtEnt.cutTo valid top.entries := by
    rw [entries', entries]
    exact entries_prune sorted.1 regular flag
  refine ⟨sorted.prune regular, ?_, ?_, ?_, ?_⟩
  · intro empty
    have cleared : tree.prune valid = tree.clear := by
      rw [Node.prune, if_neg (by simp [empty])]
    rw [cleared]
    exact bare_clear tree
  · intro flag
    exact ⟨top, top', read, read', height'.trans height.symm, cut flag⟩
  · intro flag node found entry member
    rw [read'] at found
    cases found
    rw [cut flag] at member
    exact mem_cutTo member
  · intro flag x lower upper
    obtain ⟨answer, out, same⟩ :=
      outcome_of_ensures (ensures_ftLookupFrom rep le_rfl owns)
    obtain ⟨answer', out', same'⟩ :=
      outcome_of_ensures (ensures_ftLookupFrom after le_rfl owned)
    refine ⟨answer, out, ?_⟩
    rw [out', same', same]
    exact congrArg some (look_prune sorted.1 flag lower upper)

/-- A leaf with two entries. -/
def twoEntries : FtNode where
  entries := [⟨⟨0, 9, true⟩, 1⟩, ⟨⟨20, 29, true⟩, 2⟩]
  subtrees := List.replicate 3 ⟨0, 0, none, true⟩
  height := 0
  dirty := false

/-- The valid interval begins inside of the first entry and ends inside of the
second one. -/
theorem prune_invisible_leaf :
    Ensures (ftnPruneTo 0 ⟨5, 24, true⟩)
      (fun _ next => ∃ pruned left,
        Rep [] 1 (.memory (some 0)) pruned left ∧
        Owns next (left + 0) ∧
        PrunedTo [] 0 0 ⟨5, 24, true⟩
          (Cells.Store.empty.alloc twoEntries) next pruned)
      (Cells.Store.empty.alloc twoEntries) := by
  let null : Kid (Tree 0) := .loaded none ()
  let tree : Node (Tree 0) := ⟨false, null,
    [(⟨⟨0, 9, true⟩, 1⟩, null), (⟨⟨20, 29, true⟩, 2⟩, null)]⟩
  have kid : KidRep (Rep [] 0) ⟨0, 0, none, true⟩ null 0 := by
    refine ⟨rfl, ?_, rfl, rfl⟩
    intro position saved
    cases saved
  have rep : Rep [] 1 (.memory (some 0)) tree (cell 0 twoEntries + 0) :=
    ⟨0, twoEntries, 0, rfl, rfl, rfl, rfl, rfl,
      0, 0, rfl, kid, 0, 0, rfl, kid, 0, 0, rfl, kid, rfl⟩
  have sorted : Sorted 1 tree := by
    refine ⟨⟨rfl, by decide, by decide, by decide, rfl, by decide,
      by decide, by decide, trivial⟩, ?_⟩
    intro _ _
    trivial
  refine prune_invisible rep sorted ⟨fun _ => by decide, ?_⟩ ?_
  · intro empty
    cases empty
  · exact (Owns.nothing Cells.Store.empty).alloc twoEntries

end FigTree
end Gdpfs
