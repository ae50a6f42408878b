import Gdpfs.FigTree.Write

/-!
# Checkpointing a FIG tree (`figtree/utils.c`)

`get_dirty` copies the dirty nodes of a tree, children before parents, into a
buffer that becomes one record of the log, and leaves in each child pointer
where the copy of the child will be.  The buffer is a list, which grows as the
source's does; the position of a copy is its byte offset in the buffer.
-/

namespace Gdpfs
namespace FigTree

open Log Effect

/-- The child pointer of a copied node: without the address, which means
nothing in the log.  Only a leaf's null pointer stays marked as in memory. -/
def writtenPtr (sptr : SubtreePtr) : Except Fault SubtreePtr :=
  match sptr.st with
  | some _ => .ok { sptr with inmemory := false, st := none }
  | none => if sptr.inmemory then .ok sptr else .error .checkpointPointer

/-- The child pointers of a copied node. -/
def writtenPtrs : List SubtreePtr → Except Fault (List SubtreePtr)
  | [] => .ok []
  | sptr :: rest => do
      let written ← writtenPtr sptr
      let others ← writtenPtrs rest
      pure (written :: others)

/-- The loop of `get_dirty_helper` over the child pointers of a node; the
pointers with their new positions are handed back. -/
def getDirtySlots
    (helper : SubtreePtr → List FtNode → FigM (SubtreePtr × List FtNode)) :
    List SubtreePtr → List FtNode → FigM (List SubtreePtr × List FtNode)
  | [], dirty => pure ([], dirty)
  | sptr :: rest, dirty => do
      let (sptr, dirty) ← helper sptr dirty
      let (rest, dirty) ← getDirtySlots helper rest dirty
      pure (sptr :: rest, dirty)

/-- `get_dirty_helper`, for a subtree with at most `depth` levels.  The source
changes the pointer in place; here it is handed back, and the node gets its
pointers back together when all of them are done. -/
def getDirtyHelper (recno : Nat) :
    (depth : Nat) → SubtreePtr → List FtNode →
      FigM (SubtreePtr × List FtNode)
  | 0, sptr, dirty =>
      match sptr.inmemory, sptr.st with
      | true, some _ => throw .tooDeep
      | _, _ => pure (sptr, dirty)
  | depth + 1, sptr, dirty =>
      match sptr.inmemory, sptr.st with
      | true, some st => do
          let node ← loadNode st
          if node.dirty then do
            let (subtrees, dirty) ←
              getDirtySlots (getDirtyHelper recno depth) node.subtrees dirty
            let node := { node with subtrees := subtrees, dirty := false }
            storeNode st node
            let written ← writtenPtrs subtrees
            pure
              ({ sptr with
                  recno := recno
                  offset := dirty.length * sizeofFtNode },
                dirty ++ [{ node with subtrees := written }])
          else pure (sptr, dirty)
      | _, _ => pure (sptr, dirty)

/-- `get_dirty`. -/
def getDirty (ft : Figtree) (chkptRecno : Nat) : FigM (List FtNode) := do
  let height := (← loadNode ft.root).height
  let (_, dirty) ← getDirtyHelper chkptRecno (height + 1)
    ⟨0, 0, some ft.root, true⟩ []
  pure dirty

theorem allows_loadNode (this : Addr) (heap : Heap) :
    Allows (loadNode this)
      (fun node next => heap.read this = some node ∧ next = heap) heap := by
  intro node next run
  rw [loadNode, StateT.run_bind] at run
  cases live : heap.read this with
  | none =>
      simp only [StateT.run_get, pure_bind, live] at run
      cases run
  | some found =>
      simp only [StateT.run_get, pure_bind, live] at run
      cases run
      exact ⟨rfl, rfl⟩

/-- A checkpoint has nodes exactly when the root is dirty. -/
theorem allows_getDirty
    (this : Figtree)
    (recno : Nat)
    (heap : Heap) :
    Allows (getDirty this recno)
      (fun nodes _ => ∃ node, heap.read this.root = some node ∧
        (0 < nodes.length ↔ node.dirty = true)) heap := by
  rw [getDirty]
  refine (allows_loadNode _ _).bind ?_
  rintro node _ ⟨live, rfl⟩
  simp only [getDirtyHelper]
  rw [bind_assoc]
  refine (allows_loadNode _ _).bind ?_
  rintro _ _ ⟨again, rfl⟩
  cases live.symm.trans again
  cases isDirty : node.dirty with
  | false =>
      simp only [Bool.false_eq_true, if_false]
      rw [allows_bind, allows_pure, allows_pure]
      exact ⟨node, live, by simp [isDirty]⟩
  | true =>
      rw [if_pos rfl]
      simp only [bind_assoc, pure_bind]
      refine Allows.bind (fun _ _ _ => trivial) ?_
      rintro ⟨subtrees, dirty⟩ next _
      refine Allows.bind (fun _ _ _ => trivial) ?_
      intro _ next _
      refine Allows.bind (fun _ _ _ => trivial) ?_
      intro written next _
      rw [allows_pure]
      exact ⟨node, live, by simp [isDirty]⟩

/-! ## Copies have no addresses -/

/-- No child pointer of a node has an address. -/
def FtNode.Cleared (node : FtNode) : Prop :=
  ∀ sptr ∈ node.subtrees, sptr.st = none

theorem writtenPtr_cleared
    (isWritten : writtenPtr sptr = .ok written) :
    written.st = none := by
  unfold writtenPtr at isWritten
  split at isWritten
  · cases isWritten
    rfl
  · next isNull =>
      split at isWritten
      · cases isWritten
        exact isNull
      · cases isWritten

theorem writtenPtrs_cleared
    {ptrs written : List SubtreePtr}
    (areWritten : writtenPtrs ptrs = .ok written) :
    ∀ sptr ∈ written, sptr.st = none := by
  induction ptrs generalizing written with
  | nil =>
      cases areWritten
      exact fun _ impossible => absurd impossible List.not_mem_nil
  | cons sptr ptrs inductionHypothesis =>
      unfold writtenPtrs at areWritten
      cases first : writtenPtr sptr with
      | error fault =>
          rw [first] at areWritten
          cases areWritten
      | ok this =>
          cases others : writtenPtrs ptrs with
          | error fault =>
              rw [first, others] at areWritten
              cases areWritten
          | ok rest =>
              rw [first, others] at areWritten
              cases areWritten
              intro other member
              rcases List.mem_cons.mp member with rfl | inRest
              · exact writtenPtr_cleared first
              · exact inductionHypothesis others other inRest

/-- The copies that a step adds to the buffer have no addresses. -/
def KeepsCleared (dirty dirty' : List FtNode) : Prop :=
  (∀ node ∈ dirty, node.Cleared) → ∀ node ∈ dirty', node.Cleared

theorem allows_getDirtySlots_cleared
    {helper : SubtreePtr → List FtNode → FigM (SubtreePtr × List FtNode)}
    (each : ∀ sptr dirty heap, Allows (helper sptr dirty)
      (fun result _ => KeepsCleared dirty result.2) heap)
    (ptrs : List SubtreePtr)
    (dirty : List FtNode)
    (heap : Heap) :
    Allows (getDirtySlots helper ptrs dirty)
      (fun result _ => KeepsCleared dirty result.2) heap := by
  induction ptrs generalizing dirty heap with
  | nil => exact allows_pure.mpr id
  | cons sptr ptrs inductionHypothesis =>
      unfold getDirtySlots
      refine (each sptr dirty heap).bind fun first next kept => ?_
      refine (inductionHypothesis first.2 next).bind fun rest after more => ?_
      exact allows_pure.mpr (more ∘ kept)

theorem allows_getDirtyHelper_cleared
    (recno depth : Nat)
    (sptr : SubtreePtr)
    (dirty : List FtNode)
    (heap : Heap) :
    Allows (getDirtyHelper recno depth sptr dirty)
      (fun result _ => KeepsCleared dirty result.2) heap := by
  induction depth generalizing sptr dirty heap with
  | zero =>
      unfold getDirtyHelper
      split
      · exact allows_throw
      · exact allows_pure.mpr id
  | succ depth inductionHypothesis =>
      unfold getDirtyHelper
      split
      · refine (allows_loadNode _ _).bind fun node _ _ => ?_
        split
        · refine (allows_getDirtySlots_cleared inductionHypothesis _ _
            _).bind fun result next kept => ?_
          refine Allows.bind (fun _ _ _ => trivial) fun _ after _ => ?_
          cases areWritten : writtenPtrs result.1 with
          | error fault => exact allows_throw
          | ok written =>
              refine allows_pure.mpr fun before copy member => ?_
              rcases List.mem_append.mp member with old | new
              · exact kept before copy old
              · rw [List.mem_singleton.mp new]
                exact writtenPtrs_cleared areWritten
        · exact allows_pure.mpr id
      · exact allows_pure.mpr id

/-- What `get_dirty` copies has no addresses. -/
theorem allows_getDirty_cleared
    (this : Figtree)
    (recno : Nat)
    (heap : Heap) :
    Allows (getDirty this recno)
      (fun nodes _ => ∀ node ∈ nodes, node.Cleared) heap := by
  unfold getDirty
  refine (allows_loadNode _ _).bind fun node _ _ => ?_
  refine (allows_getDirtyHelper_cleared _ _ _ _ _).bind fun result _ kept => ?_
  refine allows_pure.mpr (kept ?_)
  exact fun _ impossible => absurd impossible List.not_mem_nil

/-- The record that a checkpoint becomes. -/
def chkptRecord (header : Fmeta) (nodes : List FtNode) : LogRecord where
  header :=
    { header with
      logentType := .chkpt
      entOffset := -1
      entSize := nodes.length * sizeofFtNode
      magic := magicNumber }
  payload := .nodes nodes

/-- The part of `open_file` that loads a tree from the checkpoint record with
the given number: the last node is the root. -/
def openRoot (log : List LogRecord) (recno : Nat) : FigM Figtree := do
  match gdpfsLogEntOpen log recno with
  | none => throw .logRead
  | some ent =>
      let dataSize := gdpfsLogEntLength ent
      let (entry, _) ← readFmeta ent
      if entry.logentType = .chkpt ∧ entry.entSize % sizeofFtNode = 0 ∧
          0 < entry.entSize then
        match readFtNode (gdpfsLogEntDrain ent (dataSize - sizeofFtNode)) with
        | some node => do
            let root ← memAlloc node
            pure (ftInitWithRoot root)
        | none => throw .corruptRecord
      else throw .notCheckpoint

end FigTree
end Gdpfs
