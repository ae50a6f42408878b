import Gdpfs.FigTree.Refine.Descend
import Gdpfs.FigTree.Abstract.Push

/-!
# Inserting into a node and splitting it

`ftn_insert` puts an entry into a gap of a node, between the two pointers that
it is given.  When the node gets one entry too many, its halves move to new
cells and the old cell becomes their parent, which the loop up the path takes
apart again one level higher.
-/

namespace Gdpfs
namespace FigTree

open Log Effect
open Cells (Owns Holds cell)

/-! ## What is pushed up -/

/-- What is pushed up represents a raised entry; the cells are those of the
half without the mark. -/
structure RaisedRep
    (log : List LogRecord)
    (raised : Raised h)
    (pushed : Pushed)
    (marked : Option Addr)
    (cells : Part) : Prop where
  entry : pushed.topushent = raised.entry
  halves :
    match raised.side with
    | .left =>
        pushed.left = marked ∧ Rep log h (.memory pushed.right) raised.other cells
    | .right =>
        pushed.right = marked ∧ Rep log h (.memory pushed.left) raised.other cells

/-- Above the leaves, the node that is pushed up holds nothing but the pushed
entry and the pointers around it. -/
def TopRep : (h : Nat) → Pushed → Part → Prop
  | 0, pushed, cells => pushed.topushnode = none ∧ cells = 0
  | h + 1, pushed, cells =>
      ∃ (this : Addr) (lower upper : SubtreePtr),
        pushed.topushnode = some this ∧
          cells =
            cell this ⟨[pushed.topushent], [lower, upper], h + 1, true⟩ ∧
          (lower.inmemory = true ∧ lower.st = pushed.left) ∧
          upper.inmemory = true ∧ upper.st = pushed.right

/-- Inserting at the gap of a leaf pushes a bare entry. -/
theorem raisedRep_leaf
    (log : List LogRecord)
    (entry : FtEnt) :
    RaisedRep log (leafRaised entry) ⟨none, entry, none, none⟩ none 0 :=
  ⟨rfl, rfl, rfl, rfl⟩

/-! ## Inserting -/

/-- A node with an entry put into a gap, and pointers put on both sides. -/
def insertedNode
    (near far : List FtEnt)
    (before after : List SubtreePtr)
    (sptr : SubtreePtr)
    (height : Nat)
    (pushed : Pushed) : FtNode :=
  { entries := near ++ pushed.topushent :: far
    subtrees := before ++ subtreeSet sptr pushed.left ::
      subtreeSet (after.headD nullPtr) pushed.right :: after
    height := height
    dirty := true }

theorem modify_append_cons
    (before after : List α)
    (item : α)
    (change : α → α) :
    (before ++ item :: after).modify before.length change =
      before ++ change item :: after := by
  induction before with
  | nil => rfl
  | cons head before inductionHypothesis =>
      exact congrArg (head :: ·) inductionHypothesis

section Insert

variable {log : List LogRecord} {h : Nat} {heap : Heap} {frame : Part}
  {node : FtNode} {pushed : Pushed}

/-- `ftn_insert` up to the point where it may split the node. -/
theorem ensures_ftnInsert
    {post : Option Addr → Heap → Prop}
    (entries : node.entries = near ++ far)
    (subtrees : node.subtrees = before ++ sptr :: after)
    (nearLength : before.length = near.length)
    (farLength : after.length = far.length)
    (fits : fitsGap node.entries pushed.topushent near.length = true)
    (count : node.entries.length < ftSplitlimit)
    (owns : Owns heap (cell this node + frame)) :
    Ensures
        (ftnInsert this pushed.topushent near.length pushed.left
          pushed.right) post heap ↔
      Ensures
        (if near.length + far.length + 1 = ftSplitlimit then
          some <$> ftnSplit this (insertedNode near far before after sptr
            node.height pushed)
        else do
          storeNode this (insertedNode near far before after sptr
            node.height pushed)
          pure none) post heap := by
  have lengths : node.entries.length = near.length + far.length := by
    rw [entries, List.length_append]
  have counts : node.entries.length + 1 = node.subtrees.length := by
    rw [lengths, subtrees]
    simp only [List.length_append, List.length_cons]
    omega
  have inserted : node.entries.take near.length ++
      pushed.topushent :: node.entries.drop near.length =
        near ++ pushed.topushent :: far := by
    rw [entries, List.take_left, List.drop_left]
  have modified : node.subtrees.modify near.length
      (subtreeSet · pushed.left) =
        (before ++ [subtreeSet sptr pushed.left]) ++ after := by
    rw [subtrees, ← nearLength, modify_append_cons, List.append_assoc]
    rfl
  have index : near.length + 1 =
      (before ++ [subtreeSet sptr pushed.left]).length := by
    simp [nearLength]
  rw [ftnInsert, ensures_run_bind (run_loadNode owns),
    ensures_run_bind (run_ensure (by simpa using counts) _ _),
    ensures_run_bind (run_ensure fits _ _), ftnEntriesAdd, bind_assoc,
    ensures_run_bind (run_ensure (by
      simp only [Bool.and_eq_true, decide_eq_true_eq]; omega) _ _),
    pure_bind, inserted]
  dsimp only
  rw [modified, ftnSubtreesAdd, bind_assoc,
    ensures_run_bind (run_ensure (by
      have total := counts
      rw [subtrees] at total
      simp only [List.length_append, List.length_cons, Bool.and_eq_true,
        List.length_nil, decide_eq_true_eq] at total ⊢
      omega) _ _), pure_bind]
  dsimp only
  have slot : ((before ++ [subtreeSet sptr pushed.left]) ++ after).getD
      (before ++ [subtreeSet sptr pushed.left]).length nullPtr =
        after.headD nullPtr := by
    rw [List.getD_eq_getElem?_getD, List.getElem?_append_right le_rfl,
      Nat.sub_self]
    cases after <;> rfl
  have total : (near ++ pushed.topushent :: far).length =
      near.length + far.length + 1 := by
    simp only [List.length_append, List.length_cons]
    omega
  rw [index, List.take_left, List.drop_left, slot, total]
  simp only [beq_iff_eq, List.append_assoc]
  rfl

/-- Reading one of the pointers of a node that was just built. -/
theorem run_subtreeGet
    (slot : node.subtrees[i]? = some sptr)
    (loaded : sptr.inmemory = true)
    (owns : Owns heap (cell this node + frame)) :
    (subtreeGet log this i).run heap = .ok (sptr.st, heap) := by
  have loads := run_loadNode owns
  rw [subtreeGet, StateT.run_bind, loads]
  simp only [bind, Except.bind, slot, loaded, if_true]
  rfl

end Insert

/-! ## Splitting -/

section Split

variable {log : List LogRecord} {h : Nat} {heap : Heap} {frame below : Part}
  {node : FtNode} {gap : Frame (Tree h)} {hole : Option Addr}

/-- `ftn_insert` moves the halves of the node to new cells. -/
theorem ensures_ftnSplit
    (owns : Owns heap (cell this old + frame)) :
    Ensures (ftnSplit this node)
      (fun rv next => ∃ left right lower upper, this = rv ∧
        (SubtreePtr.inmemory lower = true ∧ lower.st = some left) ∧
        (SubtreePtr.inmemory upper = true ∧ upper.st = some right) ∧
        Owns next
          (cell this ⟨(node.entries.drop ftOrder).take 1, [lower, upper],
              node.height + 1, node.dirty⟩ +
            (cell left ⟨node.entries.take ftOrder,
                node.subtrees.take (ftOrder + 1), node.height, true⟩ +
              (cell right ⟨node.entries.drop (ftOrder + 1),
                  node.subtrees.drop (ftOrder + 1), node.height, true⟩ +
                frame)))) heap := by
  rw [ftnSplit]
  refine Ensures.bind (ensures_ftnNew_bare node.height owns) ?_
  rintro left heap ⟨leftNode, owns⟩
  refine Ensures.bind (ensures_ftnNew_bare node.height owns) ?_
  rintro right heap ⟨rightNode, owns⟩
  have owns := owns.of_eq (add_left_comm _ _ _)
  rw [ensures_run_bind (run_storeNode owns _)]
  have owns := (owns.write
    { entries := node.entries.take ftOrder
      subtrees := node.subtrees.take (ftOrder + 1)
      height := node.height
      dirty := true }).of_eq (add_left_comm _ _ _)
  rw [ensures_run_bind (run_storeNode owns _)]
  have owns := (owns.write
    { entries := node.entries.drop (ftOrder + 1)
      subtrees := node.subtrees.drop (ftOrder + 1)
      height := node.height
      dirty := true }).of_eq
        (show _ = cell this old + (cell left _ + (cell right _ + frame)) by
          abel)
  rw [ensures_run_bind (run_storeNode owns _), ensures_pure]
  exact ⟨left, right, _, _, rfl, ⟨rfl, rfl⟩, ⟨rfl, rfl⟩, owns.write _⟩

/-- A node with one entry too many, taken apart around its middle entry, when
the gap is in the left half. -/
theorem FrameRep.split_left
    {near far : List (FtEnt × Kid (Tree h))}
    (frameRep : FrameRep (Rep log h) h node gap hole below)
    (dirty : gap.dirty = true)
    (shape : gap.right = near ++ (entry, kid) :: far)
    (half : gap.left.length + near.length = ftOrder) :
    ∃ marked other, below = marked + other ∧
      (node.entries.drop ftOrder).take 1 = [entry] ∧
      FrameRep (Rep log h) h
        ⟨node.entries.take ftOrder, node.subtrees.take (ftOrder + 1),
          node.height, true⟩ { gap with right := near } hole marked ∧
      NodeRep (KidRep (Rep log h)) h
        ⟨node.entries.drop (ftOrder + 1),
          node.subtrees.drop (ftOrder + 1), node.height, true⟩
        ⟨true, kid, far⟩ other := by
  obtain ⟨before, sptr, after, leftCells, rightCells, subtrees, rfl, leftRep,
    rightRep, holeRep⟩ := frameRep.subtrees
  have entries : node.entries =
      ((gap.left.map Prod.fst).reverse ++ near.map Prod.fst) ++
        entry :: far.map Prod.fst := by
    rw [frameRep.entries, shape]
    simp
  have entriesLength : ftOrder =
      ((gap.left.map Prod.fst).reverse ++ near.map Prod.fst).length := by
    simp only [List.length_append, List.length_reverse, List.length_map]
    omega
  rw [shape, List.map_append] at rightRep
  obtain ⟨nearPtrs, others, nearCells, otherCells, rfl, rfl, nearRep,
    othersRep⟩ := repKids_append.mp rightRep
  have beforeLength := leftRep.length_eq
  have nearLength := nearRep.length_eq
  simp only [List.length_reverse, List.length_map] at beforeLength nearLength
  have ptrs : node.subtrees = (before ++ sptr :: nearPtrs) ++ others := by
    rw [subtrees]
    simp
  have ptrsLength : ftOrder + 1 = (before ++ sptr :: nearPtrs).length := by
    simp only [List.length_append, List.length_cons]
    omega
  refine ⟨leftCells + nearCells, otherCells, by abel, ?_,
    ⟨?_, frameRep.height, dirty.symm, before, sptr, nearPtrs, leftCells,
      nearCells, ?_, rfl, leftRep, nearRep, holeRep⟩,
    ⟨?_, frameRep.height, rfl, ?_⟩⟩
  · rw [entries, entriesLength, List.drop_left]
    rfl
  · change node.entries.take ftOrder = _
    rw [entries, entriesLength, List.take_left]
  · change node.subtrees.take (ftOrder + 1) = _
    rw [ptrs, ptrsLength, List.take_left]
  · change node.entries.drop (ftOrder + 1) = far.map Prod.fst
    rw [entries, List.append_cons,
      show ftOrder + 1 = (((gap.left.map Prod.fst).reverse ++
        near.map Prod.fst) ++ [entry]).length by
          rw [List.length_append, ← entriesLength]; rfl, List.drop_left]
  · change RepKids _ (node.subtrees.drop (ftOrder + 1))
      (kid :: far.map Prod.snd) otherCells
    rw [ptrs, ptrsLength, List.drop_left]
    exact othersRep

/-- The same, when the gap is in the right half. -/
theorem FrameRep.split_right
    {near far : List (FtEnt × Kid (Tree h))}
    (frameRep : FrameRep (Rep log h) h node gap hole below)
    (dirty : gap.dirty = true)
    (shape : gap.left = near ++ (entry, kid) :: far)
    (half : far.length = ftOrder) :
    ∃ marked other, below = marked + other ∧
      (node.entries.drop ftOrder).take 1 = [entry] ∧
      FrameRep (Rep log h) h
        ⟨node.entries.drop (ftOrder + 1),
          node.subtrees.drop (ftOrder + 1), node.height, true⟩
        { gap with left := near } hole marked ∧
      NodeRep (KidRep (Rep log h)) h
        ⟨node.entries.take ftOrder, node.subtrees.take (ftOrder + 1),
          node.height, true⟩
        ⟨true, (zipUp far kid []).1, (zipUp far kid []).2⟩ other := by
  obtain ⟨before, sptr, after, leftCells, rightCells, subtrees, rfl, leftRep,
    rightRep, holeRep⟩ := frameRep.subtrees
  have entries : node.entries = (far.map Prod.fst).reverse ++ entry ::
      ((near.map Prod.fst).reverse ++ gap.right.map Prod.fst) := by
    rw [frameRep.entries, shape]
    simp
  have entriesLength : ftOrder = ((far.map Prod.fst).reverse).length := by
    simp [half]
  rw [shape, List.map_append, List.map_cons, List.reverse_append,
    List.reverse_cons] at leftRep
  obtain ⟨farPtrs, nearPtrs, farCells, nearCells, rfl, rfl, farRep,
    nearRep⟩ := repKids_append.mp leftRep
  have farLength := farRep.length_eq
  simp only [List.length_append, List.length_reverse, List.length_map,
    List.length_singleton, half] at farLength
  have ptrs : node.subtrees = farPtrs ++ (nearPtrs ++ sptr :: after) := by
    rw [subtrees]
    simp
  refine ⟨nearCells + rightCells, farCells, by abel, ?_,
    ⟨?_, frameRep.height, dirty.symm, nearPtrs, sptr, after, nearCells,
      rightCells, ?_, rfl, nearRep, rightRep, holeRep⟩,
    ⟨?_, frameRep.height, rfl, ?_⟩⟩
  · rw [entries, entriesLength, List.drop_left]
    rfl
  · change node.entries.drop (ftOrder + 1) = _
    rw [entries, List.append_cons,
      show ftOrder + 1 = ((far.map Prod.fst).reverse ++ [entry]).length by
        rw [List.length_append, ← entriesLength]; rfl, List.drop_left]
  · change node.subtrees.drop (ftOrder + 1) = _
    rw [ptrs, ← farLength, List.drop_left]
  · change node.entries.take ftOrder = (zipUp far kid []).2.map Prod.fst
    rw [entries_zipUp, entries, entriesLength, List.take_left]
    simp
  · change RepKids _ (node.subtrees.take (ftOrder + 1))
      ((zipUp far kid []).1 :: (zipUp far kid []).2.map Prod.snd) farCells
    rw [kids_zipUp, ptrs, ← farLength, List.take_left]
    exact farRep

/-- The end of `ftn_insert`: the node is stored as it is, or its halves are
and it becomes their parent. -/
theorem ensures_settle
    {post : Option Addr → Heap → Prop}
    (frameRep : FrameRep (Rep log h) h node gap hole below)
    (dirty : gap.dirty = true)
    (owns : Owns heap (cell this old + (below + frame)))
    (whole : gap.size ≠ ftSplitlimit → ∀ next,
      Owns next (cell this node + (below + frame)) → post none next)
    (halves : gap.size = ftSplitlimit →
      ∀ next pushed marked half belowHalf other top,
        pushed.topushnode = some this →
        FrameRep (Rep log h) h half gap.split.1 hole belowHalf →
        RaisedRep log gap.split.2 pushed (some marked) other →
        TopRep (h + 1) pushed top →
        Owns next (top + (other + (cell marked half +
          (belowHalf + frame)))) →
        post (some this) next) :
    Ensures
      (if gap.size = ftSplitlimit then some <$> ftnSplit this node
      else do
        storeNode this node
        pure none) post heap := by
  by_cases full : gap.size = ftSplitlimit
  · rw [if_pos full, map_eq_pure_bind]
    refine Ensures.bind (ensures_ftnSplit owns) ?_
    rintro _ next ⟨left, right, lower, upper, rfl, lowerPtr, upperPtr, owns⟩
    rw [ensures_pure]
    have result := halves full next
    rcases split_cases full with
      ⟨near, entry, kid, far, shape, nearCount, _, split⟩ |
      ⟨near, entry, kid, far, shape, _, farCount, split⟩
    · obtain ⟨marked, other, rfl, middle, halfRep, otherRep⟩ :=
        frameRep.split_left dirty shape nearCount
      rw [split] at result
      rw [middle, frameRep.dirty, dirty] at owns
      simp only [frameRep.height] at owns halfRep otherRep
      refine result ⟨some this, entry, some left, some right⟩ left _ marked
        (cell right _ + other) _ rfl halfRep
        ⟨rfl, rfl, right, _, other, rfl, rfl, otherRep⟩
        ⟨this, lower, upper, rfl, rfl, lowerPtr, upperPtr⟩ (owns.of_eq ?_)
      abel
    · obtain ⟨marked, other, rfl, middle, halfRep, otherRep⟩ :=
        frameRep.split_right dirty shape farCount
      rw [split] at result
      rw [middle, frameRep.dirty, dirty] at owns
      simp only [frameRep.height] at owns halfRep otherRep
      refine result ⟨some this, entry, some left, some right⟩ right _ marked
        (cell left _ + other) _ rfl halfRep
        ⟨rfl, rfl, left, _, other, rfl, rfl, otherRep⟩
        ⟨this, lower, upper, rfl, rfl, lowerPtr, upperPtr⟩ (owns.of_eq ?_)
      abel
  · rw [if_neg full, ensures_run_bind (run_storeNode owns _), ensures_pure]
    exact whole full _ (owns.write _)

/-- Putting a raised entry into the gap of a node. -/
theorem FrameRep.insert
    {raised : Raised h}
    (frameRep : FrameRep (Rep log h) h node gap hole below)
    (raisedRep : RaisedRep log raised pushed marked other) :
    ∃ before sptr after,
      node.subtrees = before ++ sptr :: after ∧
        before.length = gap.left.length ∧
        after.length = gap.right.length ∧
        FrameRep (Rep log h) h
          (insertedNode (gap.left.map Prod.fst).reverse
            (gap.right.map Prod.fst) before after sptr node.height pushed)
          (gap.insert raised) marked (below + other) := by
  obtain ⟨before, sptr, after, leftCells, rightCells, subtrees, rfl, leftRep,
    rightRep, _⟩ := frameRep.subtrees
  have beforeLength := leftRep.length_eq
  have afterLength := rightRep.length_eq
  simp only [List.length_reverse, List.length_map] at beforeLength afterLength
  refine ⟨before, sptr, after, subtrees, beforeLength, afterLength, ?_⟩
  obtain ⟨side, otherTree, entry⟩ := raised
  obtain ⟨entryShape, halves⟩ := raisedRep
  cases side with
  | left =>
      obtain ⟨isMarked, otherRep⟩ := halves
      refine ⟨?_, frameRep.height, rfl, before,
        subtreeSet sptr pushed.left, _, leftCells, other + rightCells, rfl,
        by abel, leftRep, repKids_cons.mpr ⟨_, after, other, rightCells, rfl,
          rfl, ⟨rfl, nofun, otherRep⟩, rightRep⟩, rfl, nofun, isMarked⟩
      simp [insertedNode, Frame.insert, entryShape]
  | right =>
      obtain ⟨isMarked, otherRep⟩ := halves
      refine ⟨?_, frameRep.height, rfl,
        before ++ [subtreeSet sptr pushed.left],
        subtreeSet (after.headD nullPtr) pushed.right, after,
        leftCells + other, rightCells, ?_, by abel, ?_, rightRep, rfl, nofun,
        isMarked⟩
      · simp [insertedNode, Frame.insert, entryShape]
      · simp [insertedNode]
      · simp only [Frame.insert, List.map_cons, List.reverse_cons]
        exact repKids_append.mpr ⟨before, _, leftCells, other, rfl, rfl,
          leftRep, repKids_singleton ⟨rfl, nofun, otherRep⟩⟩

end Split

end FigTree
end Gdpfs
