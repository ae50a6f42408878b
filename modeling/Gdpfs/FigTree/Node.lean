import Gdpfs.FigTree.Interval
import Gdpfs.Store.Effect
import Gdpfs.Store.Cells

/-!
# FIG tree nodes (`figtree/figtreenode.c`, `figtree/utils.c`)

Nodes live in a heap and refer to each other by address, as in the source:
a child pointer also carries the position of the child's checkpointed copy and
a flag that says whether `st` may be followed.  The `entries` and `subtrees`
arrays are lists whose lengths are `entries_len` and `subtrees_len`.  A pointer
to a slot of the `subtrees` array is passed as the value of the slot and handed
back when the callee changes it.
-/

namespace Gdpfs
namespace FigTree

/-- The address of a node in the heap. -/
abbrev Addr := Nat

/-- `struct subtree_ptr`; a null `st` is `none`. -/
structure SubtreePtr where
  /-- Record of the log that holds the child's checkpointed copy. -/
  recno : Nat
  /-- Byte offset of the copy inside that record. -/
  offset : Nat
  /-- The child in memory. -/
  st : Option Addr
  /-- Whether `st` is the child, or the child is still only in the log. -/
  inmemory : Bool
  deriving DecidableEq, Repr

/-- `struct ft_ent`. -/
structure FtEnt where
  /-- The bytes the entry covers. -/
  irange : Interval
  /-- The value of those bytes. -/
  value : Int
  deriving DecidableEq, Repr

/-- `struct ft_node`. -/
structure FtNode where
  /-- The first `entries_len` elements of the array. -/
  entries : List FtEnt
  /-- The first `subtrees_len` elements of the array. -/
  subtrees : List SubtreePtr
  /-- `HEIGHT`; a leaf has height zero. -/
  height : Nat
  /-- Whether the node changed since it was last checkpointed. -/
  dirty : Bool
  deriving DecidableEq, Repr

/-- `FT_ORDER`. -/
def ftOrder : Nat := 2

/-- `FT_SPLITLIMIT`. -/
def ftSplitlimit : Nat := 1 + ftOrder * 2

/-- The heap of nodes. -/
abbrev Heap := Cells.Store FtNode

/-- Code that works on the heap and may fail an assertion. -/
abbrev FigM := StateT Heap (Except Fault)

/-- `ASSERT`. -/
def ensure (condition : Bool) (fault : Fault) : FigM Unit :=
  if condition then pure () else throw fault

/-- Read the node behind a pointer. -/
def loadNode (address : Addr) : FigM FtNode := do
  match (← get).read address with
  | some node => pure node
  | none => throw .badAddress

/-- Overwrite the node behind a pointer. -/
def storeNode (address : Addr) (node : FtNode) : FigM Unit := do
  let heap ← get
  match heap.read address with
  | some _ => set (heap.write address node)
  | none => throw .badAddress

/-- `mem_alloc` of a node, with the contents it is given at once. -/
def memAlloc (node : FtNode) : FigM Addr := do
  let heap ← get
  set (heap.alloc node)
  pure heap.fresh

/-- `mem_free`; freeing the null pointer does nothing. -/
def memFree : Option Addr → FigM Unit
  | none => pure ()
  | some address => do
      let heap ← get
      match heap.read address with
      | some _ => set (heap.free address)
      | none => throw .badAddress

/-- A slot of freshly zeroed memory. -/
def nullPtr : SubtreePtr := ⟨0, 0, none, false⟩

/-- `subtree_set`. -/
def subtreeSet (sptr : SubtreePtr) (st : Option Addr) : SubtreePtr :=
  { sptr with inmemory := true, st := st }

/-- `ftn_free`, for a node with at most `depth` levels below and including it. -/
def ftnFreeTo : (depth : Nat) → Addr → FigM Unit
  | 0, _ => throw .tooDeep
  | depth + 1, this => do
      let node ← loadNode this
      forM node.subtrees fun sptr =>
        match sptr.inmemory, sptr.st with
        | true, some st => ftnFreeTo depth st
        | _, _ => pure ()
      memFree (some this)

/-- `ftn_free`. -/
def ftnFree (this : Addr) : FigM Unit := do
  let node ← loadNode this
  ftnFreeTo (node.height + 1) this

/-- `subtree_free`.  Every caller drops the slot or overwrites it afterwards,
so the null pointer that the source leaves in it is not kept. -/
def subtreeFree (sptr : SubtreePtr) : FigM Unit :=
  match sptr.inmemory, sptr.st with
  | true, some st => ftnFree st
  | _, _ => pure ()

/-- `ftn_new`.  A new node has no subtrees, so the call of `ftn_clear` in the
source frees nothing and only links the first child. -/
def ftnNew : (height : Nat) → (makeHeight : Bool) → FigM Addr
  | 0, _ => memAlloc ⟨[], [subtreeSet nullPtr none], 0, true⟩
  | height + 1, makeHeight => do
      let this ← memAlloc ⟨[], [], height + 1, true⟩
      let firstchild ←
        if makeHeight then some <$> ftnNew height true else pure none
      storeNode this
        ⟨[], [subtreeSet nullPtr firstchild], height + 1, true⟩
      pure this

/-- `ftn_clear`. -/
def ftnClear (this : Addr) (makeHeight : Bool) : FigM Unit := do
  let node ← loadNode this
  forM node.subtrees subtreeFree
  let firstchild ←
    if node.height == 0 || !makeHeight then pure none
    else some <$> ftnNew (node.height - 1) true
  storeNode this
    { node with
      entries := []
      subtrees := [subtreeSet (node.subtrees.getD 0 nullPtr) firstchild] }

/-- `subtree_clear`; the slot is handed back. -/
def subtreeClear (sptr : SubtreePtr) (height : Int) : FigM SubtreePtr :=
  if height < 0 then
    pure sptr
  else if sptr.inmemory then
    match sptr.st with
    | some st => do
        let child ← loadNode st
        ensure (height == child.height) .heightsDiffer
        ftnClear st true
        pure sptr
    | none => pure sptr
  else do
    let st ← ftnNew height.toNat true
    pure ⟨0, 0, some st, true⟩

/-! ## Insertion and replacement -/

/-- `fte_overlaps`. -/
def fteOverlaps (this other : FtEnt) : Bool :=
  iOverlaps this.irange other.irange

/-- `_ftn_entries_add`. -/
def ftnEntriesAdd
    (node : FtNode)
    (index : Nat)
    (new : FtEnt) : FigM FtNode := do
  ensure (index ≤ node.entries.length && node.entries.length < ftSplitlimit)
    .entriesAddIndex
  pure { node with
    entries := node.entries.take index ++ new :: node.entries.drop index }

/-- `_ftn_subtrees_add`.  The slot keeps the `recno` and `offset` that were
there before the array was shifted; past the old end these are leftovers that
nobody reads before `get_dirty` overwrites them. -/
def ftnSubtreesAdd
    (node : FtNode)
    (index : Nat)
    (new : Option Addr) : FigM FtNode := do
  ensure (index ≤ node.subtrees.length && node.subtrees.length ≤ ftSplitlimit)
    .subtreesAddIndex
  pure { node with
    subtrees := node.subtrees.take index ++
      subtreeSet (node.subtrees.getD index nullPtr) new ::
        node.subtrees.drop index }

/-- The two checks of `ftn_insert` against the neighbours of the gap. -/
def fitsGap (entries : List FtEnt) (newent : FtEnt) (index : Nat) : Bool :=
  index ≤ entries.length &&
    (index == 0 || match entries[index - 1]? with
      | some before => !fteOverlaps newent before
      | none => true) &&
    (index == entries.length || match entries[index]? with
      | some after => !fteOverlaps newent after
      | none => true)

/-- The splitting half of `ftn_insert`: the node has one entry too many, its
two halves move to new nodes and its own memory becomes their parent. -/
def ftnSplit (this : Addr) (node : FtNode) : FigM Addr := do
  let left ← ftnNew node.height false
  let right ← ftnNew node.height false
  storeNode left
    { entries := node.entries.take ftOrder
      subtrees := node.subtrees.take (ftOrder + 1)
      height := node.height
      dirty := true }
  storeNode right
    { entries := node.entries.drop (ftOrder + 1)
      subtrees := node.subtrees.drop (ftOrder + 1)
      height := node.height
      dirty := true }
  storeNode this
    { entries := (node.entries.drop ftOrder).take 1
      subtrees :=
        [subtreeSet (node.subtrees.getD 0 nullPtr) (some left),
          subtreeSet (node.subtrees.getD 1 nullPtr) (some right)]
      height := node.height + 1
      dirty := node.dirty }
  pure this

/-- `ftn_insert`. -/
def ftnInsert
    (this : Addr)
    (newent : FtEnt)
    (index : Nat)
    (leftChild rightChild : Option Addr) : FigM (Option Addr) := do
  let node ← loadNode this
  ensure (node.entries.length + 1 == node.subtrees.length) .insertCounts
  ensure (fitsGap node.entries newent index) .insertOverlap
  let node ← ftnEntriesAdd node index newent
  let node := { node with
    subtrees := node.subtrees.modify index (subtreeSet · leftChild) }
  let node ← ftnSubtreesAdd node (index + 1) rightChild
  let node := { node with dirty := true }
  if node.entries.length == ftSplitlimit then
    some <$> ftnSplit this node
  else do
    storeNode this node
    pure none

/-- `ftn_replaceEntries`. -/
def ftnReplaceEntries
    (this : Addr)
    (start stop : Nat)
    (newentInterval : Interval)
    (newentValue : Int) : FigM Unit := do
  let node ← loadNode this
  ensure (node.entries.length + 1 == node.subtrees.length) .replaceCounts
  ensure (start < node.entries.length && stop ≤ node.entries.length)
    .replaceIndex
  ensure (stop > start) .replaceEmptyRange
  forM ((node.subtrees.take stop).drop (start + 1)) subtreeFree
  storeNode this
    { node with
      entries := node.entries.take start ++
        ⟨newentInterval, newentValue⟩ :: node.entries.drop stop
      subtrees := node.subtrees.take (start + 1) ++ node.subtrees.drop stop
      dirty := true }

/-! ## Pruning -/

/-- One `while` loop of the pruning scan: step over the entries from index `i`
on as long as they satisfy the condition. -/
def pruneWhile
    (check : Nat)
    (condition : Interval → Bool)
    (entriesLen : Nat) : List FtEnt → Nat → Except Fault Nat
  | [], i => .ok i
  | entry :: rest, i =>
      if condition entry.irange then
        if i < entriesLen then
          pruneWhile check condition entriesLen rest (i + 1)
        else
          .error (.prunePastEnd check)
      else
        .ok i

/-- One `if` of the pruning scan: when the edge of the valid interval falls
into entry `i`, clear the subtree on the outer side of the entry, trim the
entry, and step over it. -/
def pruneEdge
    (check : Nat)
    (edge : Interval → Interval → Bool)
    (valid : Interval)
    (node : FtNode)
    (i outer : Nat) : FigM (FtNode × Nat) :=
  match node.entries[i]? with
  | none => pure (node, i)
  | some entry =>
      if edge valid entry.irange then do
        let sptr ← subtreeClear (node.subtrees.getD outer nullPtr)
          ((node.height : Int) - 1)
        let irange ← iRestrictInt entry.irange valid false
        ensure (i < node.entries.length) (.prunePastEnd check)
        pure
          ({ node with
              entries := node.entries.set i { entry with irange := irange }
              subtrees := node.subtrees.set outer sptr }, i + 1)
      else
        pure (node, i)

/-- The `performdeletes` part of `ftn_pruneTo`: entries before `keepFrom` go
with their left subtrees, entries from `keepTo` up to `stop` with their right
subtrees. -/
def prunePerformDeletes
    (this : Addr)
    (node : FtNode)
    (keepFrom keepTo stop : Nat) : FigM Unit := do
  forM (node.subtrees.take keepFrom) subtreeFree
  forM ((node.subtrees.take (stop + 1)).drop (keepTo + 1)) subtreeFree
  let node := { node with
    entries := (node.entries.take keepTo).drop keepFrom ++
      node.entries.drop stop
    subtrees := (node.subtrees.take (keepTo + 1)).drop keepFrom ++
      node.subtrees.drop (stop + 1)
    dirty := node.dirty || keepFrom > 0 || keepTo < stop }
  storeNode this node
  ensure (node.entries.length + 1 == node.subtrees.length) .pruneCounts

/-- `ftn_pruneTo`. -/
def ftnPruneTo (this : Addr) (valid : Interval) : FigM Unit := do
  let node ← loadNode this
  if !valid.nonempty then
    ftnClear this true
  else if node.entries.length == 0 then
    pure ()
  else do
    let entriesLen := node.entries.length
    let keepFrom ← pruneWhile 1 (iLeftOfInt · valid) entriesLen
      node.entries 0
    let (node, i) ← pruneEdge 2 iLeftOverlaps valid node keepFrom keepFrom
    let i ← pruneWhile 3 (iContainsInt valid ·) entriesLen
      (node.entries.drop i) i
    let (node, keepTo) ← pruneEdge 4 iRightOverlaps valid node i (i + 1)
    let stop ← pruneWhile 5 (iRightOfInt · valid) entriesLen
      (node.entries.drop keepTo) keepTo
    prunePerformDeletes this node keepFrom keepTo stop

end FigTree
end Gdpfs
