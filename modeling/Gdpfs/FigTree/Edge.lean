import Gdpfs.FigTree.Shape

/-!
# Writing up to the last byte index

An entry may end at the last byte index.  The byte after it is then zero, in
32-bit arithmetic, so that a write that cuts the entry does not prune the
subtree on the right of it: entries that became stale when the long entry was
written are met again.  This module says which writes cut such an entry, and
that every other write of a run goes through.
-/

namespace Gdpfs
namespace FigTree

open Log Effect
open Cells (Owns Holds cell Store)

/-! ## Entries at the edge of a tree -/

/-- The child right of the last entry. -/
def lastKid : Kid C → List (FtEnt × Kid C) → Kid C
  | kid, [] => kid
  | _, (_, next) :: rest => lastKid next rest

/-- No entry that ends at the last byte index, and that a write of the range
meets, has entries in the child on its right. -/
def EdgeFree (range : Interval) : (h : Nat) → Tree h → Prop
  | 0, _ => True
  | h + 1, tree =>
      (∀ entry kid, (entry, kid) ∈ (tree : Node (Tree h)).rest →
        entry.irange.right = byteIndexMax →
          entry.irange.left ≤ range.right → Bare h kid.get) ∧
      ((∀ entry ∈ (tree : Node (Tree h)).entries,
          entry.irange.right < range.left) →
        EdgeFree range h (lastKid (tree : Node (Tree h)).first
          (tree : Node (Tree h)).rest).get)

section Zip

theorem lastKid_zipUp
    (left : List (FtEnt × Kid C))
    (kid : Kid C)
    (right : List (FtEnt × Kid C)) :
    lastKid (zipUp left kid right).1 (zipUp left kid right).2 =
      lastKid kid right := by
  induction left generalizing kid right with
  | nil => rfl
  | cons head left inductionHypothesis =>
      exact inductionHypothesis head.2 ((head.1, kid) :: right)

theorem lastKid_mem
    (kid : Kid C)
    (rest : List (FtEnt × Kid C)) :
    lastKid kid rest ∈ kid :: rest.map Prod.snd := by
  induction rest generalizing kid with
  | nil => exact List.mem_cons_self
  | cons head rest inductionHypothesis =>
      exact List.mem_cons_of_mem _ (inductionHypothesis head.2)

theorem mem_zipUp_right
    {left right : List (FtEnt × Kid C)}
    (member : pair ∈ right)
    (kid : Kid C) :
    pair ∈ (zipUp left kid right).2 := by
  induction left generalizing kid right with
  | nil => exact member
  | cons head left inductionHypothesis =>
      exact inductionHypothesis (List.mem_cons_of_mem _ member) head.2

theorem OrderedLeft.right_lt_lowOf
    {left : List (FtEnt × Kid C)}
    (ordered : OrderedLeft low high left)
    (member : entry ∈ left.map Prod.fst) :
    entry.irange.right < lowOf low left := by
  induction left generalizing high with
  | nil => cases member
  | cons head left inductionHypothesis =>
      obtain ⟨_, _, ends, _, beyond⟩ := ordered
      rcases List.mem_cons.mp member with rfl | inLeft
      · exact Nat.lt_succ_self _
      · have before := inductionHypothesis beyond inLeft
        cases left with
        | nil => cases inLeft
        | cons other left =>
            have := beyond.2.2.2.1
            simp only [lowOf] at before ⊢
            omega

end Zip

section Prune

variable {valid : Interval} {kid : Kid C} {rest : List (FtEnt × Kid C)}
  {low high : Nat}

theorem pruneBefore_suffix :
    ∃ dropped, rest = dropped ++ (pruneBefore valid kid rest).2 ∧
      (∀ pair ∈ dropped, pair.1.irange.right < valid.left) ∧
      lastKid (pruneBefore valid kid rest).1 (pruneBefore valid kid rest).2 =
        lastKid kid rest := by
  induction rest generalizing kid with
  | nil => exact ⟨[], rfl, nofun, rfl⟩
  | cons head rest inductionHypothesis =>
      obtain ⟨entry, next⟩ := head
      unfold pruneBefore
      by_cases before : iLeftOfInt entry.irange valid = true
      · rw [if_pos before]
        obtain ⟨dropped, shape, early, last⟩ :=
          inductionHypothesis
        refine ⟨(entry, next) :: dropped,
          congrArg ((entry, next) :: ·) shape, ?_, last⟩
        intro pair member
        rcases List.mem_cons.mp member with rfl | inDropped
        · exact (iLeftOfInt_iff.mp before).2
        · exact early pair inDropped
      · rw [if_neg before]
        exact ⟨[], rfl, nofun, rfl⟩

/-- Nothing is cut off on the right when the valid interval reaches past all
entries. -/
theorem pruneRight_of_inside
    (clear : Kid C → Kid C)
    (ordered : Ordered low high rest)
    (lower : valid.left ≤ low)
    (upper : high ≤ valid.right + 1) :
    pruneRight clear valid rest = rest := by
  induction rest generalizing low with
  | nil => rfl
  | cons head rest inductionHypothesis =>
      obtain ⟨entry, next⟩ := head
      obtain ⟨_, lowBound, ends, highBound, beyond⟩ := ordered
      have inside : iContainsInt valid entry.irange = true :=
        iContainsInt_iff.mpr ⟨by omega, by omega⟩
      rw [pruneRight, if_pos inside, inductionHypothesis beyond (by omega)]

/-- Pruning to a valid interval that reaches past all entries: entries and
their right children stay, up to the left end of the first one that stays. -/
theorem prune_rightmost
    {node : Node (Tree h)}
    (ordered : Ordered 0 high node.rest)
    (flag : valid.nonempty = true)
    (upper : high ≤ valid.right + 1) :
    (∀ entry kid, (entry, kid) ∈ (node.prune valid).rest →
        ∃ old, (old, kid) ∈ node.rest ∧
          old.irange.right = entry.irange.right ∧
          old.irange.left ≤ entry.irange.left) ∧
      (∀ old ∈ node.entries, old.irange.right < valid.left ∨
        ∃ entry ∈ (node.prune valid).entries,
          entry.irange.right = old.irange.right) ∧
      lastKid (node.prune valid).first (node.prune valid).rest =
        lastKid node.first node.rest := by
  obtain ⟨dropped, shape, early, last⟩ :=
    pruneBefore_suffix
  obtain ⟨keptOrdered, reaches⟩ :=
    pruneBefore_ordered ordered
  have earlier : ∀ old ∈ dropped.map Prod.fst,
      old.irange.right < valid.left := by
    intro old member
    obtain ⟨pair, inDropped, rfl⟩ := List.mem_map.mp member
    exact early pair inDropped
  unfold Node.prune Node.entries
  rw [if_pos flag]
  dsimp only
  generalize pruneBefore valid node.first node.rest = kept at *
  obtain ⟨kid, rest⟩ := kept
  rw [shape] at ordered ⊢
  simp only [List.map_append, List.mem_append]
  cases rest with
  | nil =>
      refine ⟨nofun, fun old member => Or.inl ?_, ?_⟩
      · rcases member with inDropped | none
        · exact earlier old inDropped
        · cases none
      · rw [← shape, ← last]
        rfl
  | cons head rest =>
      obtain ⟨entry, next⟩ := head
      have starts := reaches entry next rest rfl
      obtain ⟨entryFlag, lowBound, ends, highBound, beyond⟩ := keptOrdered
      have inside : pruneRight clearKid valid rest = rest :=
        pruneRight_of_inside clearKid beyond (by omega) upper
      rcases pruneLeft_cons
        clearKid flag starts with ⟨early, result⟩ | ⟨late, result⟩
      · rw [result, inside]
        have trimmed : (entry.trim valid).irange.right =
            entry.irange.right := by
          simp only [FtEnt.trim]
          omega
        refine ⟨?_, ?_, ?_⟩
        · intro other beside member
          rcases List.mem_cons.mp member with same | inRest
          · cases same
            exact ⟨entry, Or.inr List.mem_cons_self, trimmed.symm,
              le_max_left _ _⟩
          · exact ⟨other, Or.inr (List.mem_cons_of_mem _ inRest), rfl,
              le_rfl⟩
        · rintro old (inDropped | inKept)
          · exact Or.inl (earlier old inDropped)
          · refine Or.inr ?_
            rcases List.mem_cons.mp inKept with rfl | inRest
            · exact ⟨_, List.mem_cons_self, trimmed⟩
            · exact ⟨old, List.mem_cons_of_mem _ inRest, rfl⟩
        · rw [← shape, ← last]
          rfl
      · have whole : pruneRight clearKid valid ((entry, next) :: rest) =
            (entry, next) :: rest :=
          pruneRight_of_inside clearKid
            ⟨entryFlag, le_rfl, ends, highBound, beyond⟩ late.le upper
        rw [result, whole]
        refine ⟨fun other beside member =>
          ⟨other, Or.inr member, rfl, le_rfl⟩, ?_, ?_⟩
        · rintro old (inDropped | inKept)
          · exact Or.inl (earlier old inDropped)
          · exact Or.inr ⟨old, inKept, rfl⟩
        · rw [← shape, ← last]

end Prune

section Descend

variable {regime : Regime} {h top low high : Nat} {range valid : Interval}

/-- A descent through a tree without cut entries at the edge arrives at a node
without any. -/
theorem descend_edgeFree
    {ctx : Ctx h top}
    {tree : Tree h}
    (region : low ≤ high)
    (bounded : high ≤ regime.limit)
    (inside : ∀ x, range.left ≤ x → x ≤ range.right →
      valid.left ≤ x ∧ x ≤ valid.right)
    (descent : Descent regime low high range ctx valid tree)
    (free : valid.right = byteIndexMax → EdgeFree range h tree) :
    match descend range h ctx tree valid with
    | .null _ => True
    | .hit deep _ hit => ∀ entry kid, (entry, kid) ∈ hit.rest →
        entry.irange.right = byteIndexMax →
          entry.irange.left ≤ range.right → Bare deep kid.get := by
  induction h generalizing valid with
  | zero => trivial
  | succ h inductionHypothesis =>
      have gapRegion := (Ctx.low_le_high descent.ok region).2.1
      have ends := descent.ends
      have scanned := (@place_spec _ _ [] _ ((Node.prune (h := h) tree valid).first))
        gapRegion
        descent.prune_ordered descent.lower descent.upper
      have flag := descent.regular.nonempty_of_mem
        (inside range.left le_rfl ends).1 (inside range.left le_rfl ends).2
      have limited := regime.bounded
      unfold descend
      dsimp only
      cases scan : place range [] (Node.prune (h := h) tree valid).first
          (Node.prune (h := h) tree valid).rest with
      | hit left kid entry next rest =>
          rw [scan] at scanned
          obtain ⟨shape, _⟩ := scanned
          intro last beyond member atEdge starts
          have inPruned := (@mem_zipUp_right _ _ left) member kid
          rw [shape] at inPruned
          have below := ((sound_prune descent.regular rfl
            descent.sound).2.1.entries.1 last
              (List.mem_map_of_mem inPruned)).2.2
          have reaches : valid.right = byteIndexMax := by
            have := descent.bounded
            omega
          obtain ⟨old, inNode, sameRight, leftLe⟩ := (prune_rightmost
            descent.sound.ordered flag
            (by rw [reaches]; exact limited)).1 last beyond inPruned
          exact (free reaches).1 old beyond inNode (sameRight.trans atEdge)
            (leftLe.trans starts)
      | gap left kid right =>
          rw [scan] at scanned
          obtain ⟨shape, passed, before⟩ := scanned
          obtain ⟨_, keeps⟩ :=
            descent.gapValid_members region bounded shape passed before
          refine inductionHypothesis
            (fun x lower upper => keeps x lower upper (inside x lower upper))
            (descent.step region bounded shape passed before) ?_
          intro gapEnd
          have firstShape : (Node.prune (h := h) tree valid).first =
              (zipUp left kid right).1 := by rw [shape]; rfl
          have restShape : (Node.prune (h := h) tree valid).rest =
              (zipUp left kid right).2 := by rw [shape]; rfl
          have ordered := descent.prune_ordered
          rw [restShape] at ordered
          obtain ⟨leftOrdered, rightOrdered⟩ :=
            (ordered_zipUp_iff gapRegion).mp ordered
          obtain ⟨highLimited, rangeBounded⟩ :=
            descent.range_bounds region bounded
          obtain ⟨members, _, _⟩ := gapValid_spec passed
            before rightOrdered highLimited (by omega) descent.bounded
          have atEnd := (members byteIndexMax).mp ⟨by
            have := (keeps range.left le_rfl ends
              (inside range.left le_rfl ends)).1
            omega, gapEnd.ge⟩
          have reaches : valid.right = byteIndexMax :=
            le_antisymm descent.bounded atEnd.1.2
          have rightEmpty : right = [] := by
            cases right with
            | nil => rfl
            | cons head right =>
                have high := rightOrdered.2.2.2.1
                have startsLe := rightOrdered.2.2.1
                have := atEnd.2.2
                simp only [highOf] at this
                simp only [byteIndexEnd] at highLimited
                omega
          subst rightEmpty
          obtain ⟨_, oldEntries, sameLast⟩ := prune_rightmost
            descent.sound.ordered flag
            (by rw [reaches]; exact limited)
          have here : lastKid (Node.first (C := Tree h) tree)
              (Node.rest (C := Tree h) tree) = kid := by
            rw [← sameLast, firstShape, restShape, lastKid_zipUp]
            rfl
          have below := (free reaches).2 ?_
          · rwa [here] at below
          · intro old member
            have lower := (inside range.left le_rfl ends).1
            rcases oldEntries old member with early | ⟨entry, kept, same⟩
            · omega
            · unfold Node.entries at kept
              rw [restShape, entries_zipUp] at kept
              have near := leftOrdered.right_lt_lowOf
                (by simpa using kept)
              omega

/-- A write up to the last byte index leaves nothing behind it to insert. -/
theorem Fig.edgeClear_of_last
    {fig : Fig}
    (atEnd : range.right = byteIndexMax) :
    fig.EdgeClear range := by
  unfold Fig.EdgeClear
  cases stop : descend range (fig.height + 1) .nil fig.tree
      (iInit byteIndexMin byteIndexMax) with
  | null leaf => trivial
  | hit deep inner hit =>
      intro hasRight atEdge
      have longer : range.right < hit.last.irange.right :=
        of_decide_eq_true hasRight
      omega

/-- A write that meets no entry with stale ones behind the edge. -/
theorem Fig.Sound.edgeClear_of_free
    {fig : Fig}
    (sound : fig.Sound regime)
    (flag : range.nonempty = true)
    (ends : range.left ≤ range.right)
    (below : range.right < regime.limit)
    (free : EdgeFree range (fig.height + 1) fig.tree) :
    fig.EdgeClear range := by
  have limited := regime.bounded
  have inside : ∀ x, range.left ≤ x → x ≤ range.right →
      (iInit byteIndexMin byteIndexMax).left ≤ x ∧
        x ≤ (iInit byteIndexMin byteIndexMax).right := by
    intro x _ upper
    refine ⟨Nat.zero_le _, Nat.le_of_lt_succ ?_⟩
    exact lt_of_le_of_lt upper (lt_of_lt_of_le below limited)
  have descent := sound.descent ends below
  have spec := descend_spec (Nat.zero_le _) le_rfl descent
  have bare := descend_edgeFree (Nat.zero_le _) le_rfl inside descent
    fun _ => free
  unfold Fig.EdgeClear
  cases stop : descend range (fig.height + 1) .nil fig.tree
      (iInit byteIndexMin byteIndexMax) with
  | null leaf => trivial
  | hit deep inner hit =>
      rw [stop] at spec bare
      obtain ⟨node, struck⟩ := spec
      have overlap := struck.overlap inside flag
      obtain ⟨middle, shape⟩ := overlap.shape
      intro _ atEdge
      refine bare hit.last hit.next ?_ atEdge overlap.lastStarts
      rw [shape]
      exact List.mem_append_right _ List.mem_cons_self

end Descend

/-! ## The same on the heap -/

/-- Whether there is an entry anywhere below a pointer. -/
def holdsEntry (heap : Heap) : (depth : Nat) → Option Addr → Bool
  | 0, _ => false
  | _ + 1, none => false
  | depth + 1, some this =>
      match heap.read this with
      | none => false
      | some node =>
          !node.entries.isEmpty ||
            node.subtrees.any fun sptr => holdsEntry heap depth sptr.st

/-- Whether a write meets an entry that ends at the last byte index and has
entries below the subtree pointer on its right.  Only the nodes along the
right edge of the tree can hold such an entry. -/
def cutsEdge (heap : Heap) (start stop : Nat) :
    (depth : Nat) → Option Addr → Bool
  | 0, _ => false
  | _ + 1, none => false
  | depth + 1, some this =>
      match heap.read this with
      | none => false
      | some node =>
          ((node.entries.zip node.subtrees.tail).any fun (entry, sptr) =>
            entry.irange.right == byteIndexMax &&
              entry.irange.left ≤ stop && holdsEntry heap depth sptr.st) ||
          (node.entries.all fun entry => entry.irange.right < start) &&
            match node.subtrees.getLast? with
            | none => false
            | some sptr => cutsEdge heap start stop depth sptr.st

/-- Whether the write of a range that ends below the last byte index cuts an
entry that ends there and has entries in the subtree on its right. -/
def ftCutsEdge (heap : Heap) (this : Figtree) (start stop : Nat) : Bool :=
  match heap.read this.root with
  | none => false
  | some node =>
      stop < byteIndexMax &&
        cutsEdge heap start stop (node.height + 1) (some this.root)

section Heap

variable {log : List LogRecord} {regime : Regime} {heap : Heap}
  {h low high : Nat} {start stop : Nat} {cells frame : Part}

/-- The pointer that represents the child right of an entry. -/
theorem RepKids.exists_right
    {rep : SubtreePtr → Kid C → Part → Prop}
    {rest : List (FtEnt × Kid C)}
    (kids : RepKids rep ptrs (rest.map Prod.snd) cells)
    (member : (entry, kid) ∈ rest) :
    ∃ sptr here others, (entry, sptr) ∈ (rest.map Prod.fst).zip ptrs ∧
      cells = here + others ∧ rep sptr kid here := by
  induction rest generalizing ptrs cells with
  | nil => cases member
  | cons head rest inductionHypothesis =>
      obtain ⟨sptr, ptrs, here, there, rfl, rfl, kidRep, tail⟩ :=
        repKids_cons.mp kids
      rcases List.mem_cons.mp member with rfl | inRest
      · exact ⟨sptr, here, there, List.mem_cons_self, rfl, kidRep⟩
      · obtain ⟨found, part, others, inZip, rfl, foundRep⟩ :=
          inductionHypothesis tail inRest
        exact ⟨found, part, here + others, List.mem_cons_of_mem _ inZip,
          add_left_comm _ _ _, foundRep⟩

/-- The pointer that represents the last child. -/
theorem RepKids.getLast
    {rep : SubtreePtr → Kid C → Part → Prop}
    {rest : List (FtEnt × Kid C)}
    (kids : RepKids rep ptrs (kid :: rest.map Prod.snd) cells) :
    ∃ sptr here others, ptrs.getLast? = some sptr ∧
      cells = here + others ∧ rep sptr (lastKid kid rest) here := by
  induction rest generalizing kid ptrs cells with
  | nil =>
      obtain ⟨sptr, ptrs, here, there, rfl, rfl, kidRep, tail⟩ :=
        repKids_cons.mp kids
      obtain ⟨rfl, rfl⟩ := repKids_nil.mp tail
      exact ⟨sptr, here, 0, rfl, rfl, kidRep⟩
  | cons head rest inductionHypothesis =>
      obtain ⟨sptr, ptrs, here, there, rfl, rfl, kidRep, tail⟩ :=
        repKids_cons.mp kids
      obtain ⟨found, part, others, last, rfl, foundRep⟩ :=
        inductionHypothesis tail
      obtain ⟨next, ptrs, _, _, rfl, _⟩ := repKids_cons.mp tail
      exact ⟨found, part, here + others, last, add_left_comm _ _ _,
        foundRep⟩

theorem bare_of_holdsEntry
    {tree : Tree h}
    (eager : ¬regime.partly)
    (sound : Sound regime h low high tree)
    (rep : Rep log h (.memory ptr) tree cells)
    (owns : Owns heap (cells + frame))
    (nothing : holdsEntry heap h ptr = false) :
    Bare h tree := by
  induction h generalizing low high ptr cells frame with
  | zero => trivial
  | succ h inductionHypothesis =>
      obtain ⟨this, node, below, rfl, rfl, nodeRep⟩ := rep
      have owns := owns.of_eq (add_assoc _ _ _)
      rw [holdsEntry, owns.read] at nothing
      simp only [Bool.or_eq_false_iff, Bool.not_eq_false', List.isEmpty_iff,
        List.any_eq_false, Bool.not_eq_true] at nothing
      obtain ⟨noEntries, noBelow⟩ := nothing
      have kids := nodeRep.kids
      unfold Node.kids at kids
      obtain ⟨sptr, ptrs, here, there, shape, rfl, kidRep, _⟩ :=
        repKids_cons.mp kids
      have good := sound.kids.1
      have childRep := KidRep.in_memory kidRep good eager
      refine ⟨?_, SoundKid.isLoaded good eager, inductionHypothesis good.1
        childRep (Owns.drop (owns.of_eq
          (show _ = cell this node + (here + (there + frame)) by abel)))
        (noBelow sptr (by rw [shape]; exact List.mem_cons_self))⟩
      have entries := nodeRep.entries
      rw [noEntries] at entries
      exact List.map_eq_nil_iff.mp entries.symm

theorem edgeFree_of_cutsEdge
    {tree : Tree h}
    (eager : ¬regime.partly)
    (sound : Sound regime h low high tree)
    (rep : Rep log h (.memory ptr) tree cells)
    (owns : Owns heap (cells + frame))
    (clear : cutsEdge heap start stop h ptr = false) :
    EdgeFree (iInit start stop) h tree := by
  induction h generalizing low high ptr cells frame with
  | zero => trivial
  | succ h inductionHypothesis =>
      obtain ⟨this, node, below, rfl, rfl, nodeRep⟩ := rep
      have owns := owns.of_eq (add_assoc _ _ _)
      rw [cutsEdge, owns.read] at clear
      simp only [Bool.or_eq_false_iff, List.any_eq_false, Prod.forall,
        Bool.and_eq_true, beq_iff_eq, decide_eq_true_eq, not_and,
        Bool.not_eq_true] at clear
      obtain ⟨entriesClear, lastClear⟩ := clear
      have kids := nodeRep.kids
      have entries := nodeRep.entries
      unfold Node.kids at kids
      unfold Node.entries at entries
      constructor
      · intro entry kid member atEdge starts
        obtain ⟨_, ptrs, here, there, shape, rfl, _, tail⟩ :=
          repKids_cons.mp kids
        obtain ⟨sptr, part, others, inZip, rfl, kidRep⟩ :=
          tail.exists_right member
        obtain ⟨low', high', good⟩ := sound.kids.2.exists_good
          (List.mem_map_of_mem member)
        have childRep := KidRep.in_memory kidRep good eager
        refine bare_of_holdsEntry eager good.1 childRep (Owns.drop
          (owns.of_eq
            (show _ = cell this node + here + (part + (others + frame)) by
              abel)))
          (entriesClear entry sptr ?_ ⟨atEdge, starts⟩)
        rw [shape, entries]
        exact inZip
      · intro allLeft
        obtain ⟨sptr, part, others, last, rfl, kidRep⟩ := kids.getLast
        obtain ⟨low', high', good⟩ :=
          sound.kids.exists_good (lastKid_mem _ _)
        have childRep := KidRep.in_memory kidRep good eager
        refine inductionHypothesis good.1 childRep (Owns.drop
          (owns.of_eq
            (show _ = cell this node + (part + (others + frame)) by abel)))
          ?_
        rw [last] at lastClear
        rw [Bool.and_eq_false_imp] at lastClear
        refine lastClear ?_
        rw [List.all_eq_true, entries]
        exact fun entry member => decide_eq_true (allLeft entry member)

end Heap

/-! ## Runs -/

/-- The states that writes up to the last byte index reach from a new tree, as
long as none of them cuts an entry with stale ones behind the edge. -/
inductive EdgeReached (log : List LogRecord) : Figtree → Heap → Prop
  | init
      (run : ftInit.run Store.empty = .ok (this, heap)) :
      EdgeReached log this heap
  | write
      (reached : EdgeReached log this heap)
      (ends : start ≤ stop)
      (last : stop ≤ byteIndexMax)
      (clear : ftCutsEdge heap this start stop = false)
      (run : (ftWrite log this start stop value).run heap =
        .ok (this', heap')) :
      EdgeReached log this' heap'

/-- Entries up to and including the last byte index. -/
def uptoMax : Regime := memoryRegime byteIndexEnd le_rfl

section Run

variable {log : List LogRecord} {heap : Heap} {this : Figtree}

/-- A write is clear of the last byte index in the abstract tree, too. -/
theorem Fig.Sound.edgeClear_of_cuts
    {fig : Fig}
    (sound : fig.Sound uptoMax)
    (holds : Holds (FigRep log fig this) 0 heap)
    (ends : start ≤ stop)
    (below : stop < uptoMax.limit)
    (clear : ftCutsEdge heap this start stop = false) :
    fig.EdgeClear (iInit start stop) := by
  have last : stop ≤ byteIndexMax := Nat.le_of_lt_succ below
  by_cases atEnd : stop = byteIndexMax
  · exact Fig.edgeClear_of_last atEnd
  · obtain ⟨cells, rep, owns⟩ := holds
    refine sound.edgeClear_of_free rfl ends below ?_
    refine edgeFree_of_cutsEdge id sound rep owns ?_
    obtain ⟨_, node, beneath, same, rfl, nodeRep⟩ := rep
    cases same
    have live := (owns.of_eq (add_assoc _ _ _)).read
    simp only [ftCutsEdge, live, Bool.and_eq_false_imp,
      decide_eq_true_eq] at clear
    rw [← nodeRep.height]
    exact clear (lt_of_le_of_ne last atEnd)

theorem ensures_write_edge
    {fig : Fig}
    (sound : fig.Sound uptoMax)
    (holds : Holds (FigRep log fig this) 0 heap)
    (ends : start ≤ stop)
    (last : stop ≤ byteIndexMax)
    (clear : ftCutsEdge heap this start stop = false)
    (value : Int) :
    Ensures (ftWrite log this start stop value)
      (fun this' next => ∃ fig', fig'.Sound uptoMax ∧
        Holds (FigRep log fig' this') 0 next) heap := by
  have below : stop < uptoMax.limit := Nat.lt_succ_of_le last
  have eager : ¬uptoMax.partly := id
  have edgeClear := sound.edgeClear_of_cuts holds ends below clear
  refine (ensures_write_eager eager sound holds ends below edgeClear
    value).mono ?_
  rintro this' next ⟨fig', sound', holds', _⟩
  exact ⟨fig', sound', holds'⟩

/-- Every state of such a run holds a sound tree. -/
theorem EdgeReached.sound
    (reached : EdgeReached log this heap) :
    ∃ fig : Fig, fig.Sound uptoMax ∧
      Holds (FigRep log fig this) 0 heap := by
  induction reached with
  | init run =>
      have made := (@ensures_ftInit log) (Owns.nothing Store.empty)
      rw [ensures_of_run run] at made
      exact ⟨Fig.empty, Fig.empty_sound _, made⟩
  | write _ ends last clear run inductionHypothesis =>
      obtain ⟨fig, sound, holds⟩ := inductionHypothesis
      exact (ensures_of_run run).mp
        (ensures_write_edge sound holds ends last clear _)

/-- No assertion fails in a run of writes up to the last byte index, and the
path arrays do not overflow, as long as no write cuts an entry that ends at
the last byte index and has entries in the subtree on its right. -/
theorem ftWrite_returns_of_reached
    (reached : EdgeReached log this heap)
    (ends : start ≤ stop)
    (last : stop ≤ byteIndexMax)
    (clear : ftCutsEdge heap this start stop = false)
    (value : Int) :
    ∃ this' heap',
      (ftWrite log this start stop value).run heap = .ok (this', heap') := by
  obtain ⟨fig, sound, holds⟩ := reached.sound
  obtain ⟨this', heap', run, _⟩ :=
    ensures_write_edge sound holds ends last clear value
  exact ⟨this', heap', run⟩

/-- An entry that ends at the last byte index and has nothing on its right may
be cut. -/
theorem ftWrite_returns_after_long_entry :
    ∃ this' heap',
      (ftWrite [] ⟨0⟩ 4 4 7).run
          ⟨[some ⟨[⟨iInit 0 byteIndexMax, 6⟩],
            [⟨0, 0, none, true⟩, ⟨0, 0, none, true⟩], 0, true⟩]⟩ =
        .ok (this', heap') :=
  ftWrite_returns_of_reached
    (@EdgeReached.write _ _ _ 0 _ 6 _ _ (.init rfl)
      (by decide) le_rfl (by decide) (by decide +kernel))
    le_rfl (by decide) (by decide) 7

/-- The long entry is written over two leaves, and the last write cuts it in
the middle. -/
theorem ftRun_starRight :
    ∃ calls, CallsBelow byteIndexEnd calls ∧
      (ftRun [] calls).run Store.empty = .error .starRight := by
  refine ⟨[⟨0, 0, 1⟩, ⟨1, 1, 2⟩, ⟨2, 2, 3⟩, ⟨3, 5, 4⟩, ⟨6, 6, 5⟩,
    ⟨0, byteIndexMax, 6⟩, ⟨4, 4, 7⟩], ?_, by decide +kernel⟩
  unfold CallsBelow
  decide

end Run

end FigTree
end Gdpfs
