import Gdpfs.FigTree.Abstract.Flush
import Gdpfs.FigTree.Refine.Rep

/-!
# `get_dirty` on a represented tree

`get_dirty` does to the heap what `flush` does to tree values.  When the copies
are filed in a record of the log, the pointers to them name stored copies of the
nodes in memory.
-/

namespace Gdpfs
namespace FigTree

open Log Effect
open Cells (Owns Holds cell)

/-- A later log holds the nodes that the log holds, and some images in a
record. -/
structure Archive
    (log later : List LogRecord)
    (recno : Nat)
    (images : List FtNode) : Prop where
  kept : ∀ recno' offset node, fetchNode log recno' offset = .ok node →
    fetchNode later recno' offset = .ok node
  filed : ∀ i node, images[i]? = some node →
    fetchNode later recno (i * sizeofFtNode) = .ok node

/-- The stored copy of a child: a null pointer, a copy of a dirty node with
stored copies of its children, or what the log held for a clean node. -/
def Assembled (log : List LogRecord) :
    (h : Nat) → Kid (Tree h) → Kid (Tree h) → Prop
  | 0, _, stored => stored = .loaded none ()
  | h + 1, kid, stored =>
      ∃ position, ∃ copy : Node (Tree h),
        stored = .unloaded position false copy ∧
        if Node.dirty (C := Tree h) kid.get then
          copy.dirty = false ∧
            copy.entries = Node.entries (C := Tree h) kid.get ∧
            List.Forall₂ (Assembled log h) (Node.kids (C := Tree h) kid.get)
              copy.kids
        else
          kid = .loaded (some position) kid.get ∧
            Rep log (h + 1) (.log position) copy 0

/-- The nodes that were copied are clean and their pointers name the copies;
the others are as they were. -/
def Refiled (log later : List LogRecord) :
    (h : Nat) → Kid (Tree h) → Kid (Tree h) → Prop
  | 0, kid, kid' => kid' = kid
  | h + 1, kid, kid' =>
      if Node.dirty (C := Tree h) kid.get then
        ∃ position, ∃ copy child' : Node (Tree h),
          kid' = .loaded (some position) child' ∧
          Assembled log (h + 1) kid (.unloaded position false copy) ∧
          Rep later (h + 1) (.log position) copy 0 ∧
          child'.dirty = false ∧
          child'.entries = Node.entries (C := Tree h) kid.get ∧
          List.Forall₂ (Refiled log later h)
            (Node.kids (C := Tree h) kid.get) child'.kids
      else kid' = kid

/-- The clean children of dirty nodes name stored nodes. -/
def Backs (log : List LogRecord) : (h : Nat) → Kid (Tree h) → Prop
  | 0, _ => True
  | _ + 1, .unloaded _ _ _ => False
  | h + 1, .loaded saved child =>
      if Node.dirty (C := Tree h) child then
        ∀ kid ∈ Node.kids (C := Tree h) child, Backs log h kid
      else ∃ position copy, saved = some position ∧
        Rep log (h + 1) (.log position) copy 0

theorem backs_loaded
    {log : List LogRecord}
    {child : Node (Tree h)} :
    Backs log (h + 1) (.loaded saved child) ↔
      if child.dirty then ∀ kid ∈ child.kids, Backs log h kid
      else ∃ position copy, saved = some position ∧
        Rep log (h + 1) (.log position) copy 0 :=
  Iff.rfl

theorem assembled_loaded
    {log : List LogRecord}
    {child : Node (Tree h)} :
    Assembled log (h + 1) (.loaded saved child) stored ↔
      ∃ position, ∃ copy : Node (Tree h),
        stored = .unloaded position false copy ∧
        if child.dirty then
          copy.dirty = false ∧ copy.entries = child.entries ∧
            List.Forall₂ (Assembled log h) child.kids copy.kids
        else
          (Kid.loaded saved child : Kid (Tree (h + 1))) =
              .loaded (some position) child ∧
            Rep log (h + 1) (.log position) copy 0 :=
  Iff.rfl

theorem refiled_loaded
    {log later : List LogRecord}
    {child : Node (Tree h)} :
    Refiled log later (h + 1) (.loaded saved child) kid' ↔
      if child.dirty then
        ∃ position, ∃ copy child' : Node (Tree h),
          kid' = .loaded (some position) child' ∧
          Assembled log (h + 1) (.loaded saved child)
            (.unloaded position false copy) ∧
          Rep later (h + 1) (.log position) copy 0 ∧
          child'.dirty = false ∧ child'.entries = child.entries ∧
          List.Forall₂ (Refiled log later h) child.kids child'.kids
      else kid' = .loaded saved child :=
  Iff.rfl

section Pointers

variable {log : List LogRecord} {h : Nat} {heap : Heap} {frame : Part}

/-- A child pointer in a copied node. -/
theorem writtenPtr_of_writable
    {kid : Kid (Tree h)}
    (kidRep : KidRep (Rep log h) sptr kid cells)
    (writable : kid.writable = true) :
    ∃ written, writtenPtr sptr = .ok written := by
  unfold writtenPtr
  cases isSt : sptr.st with
  | some st => exact ⟨_, rfl⟩
  | none =>
      cases kid with
      | loaded saved child => exact ⟨_, if_pos kidRep.1⟩
      | unloaded saved seen stored =>
          have isSeen := kidRep.2.1
          rw [isSt, Option.isSome_none] at isSeen
          rw [← isSeen] at writable
          cases writable

theorem writtenPtr_of_not_writable
    {kid : Kid (Tree h)}
    (kidRep : KidRep (Rep log h) sptr kid cells)
    (unwritable : kid.writable = false) :
    writtenPtr sptr = .error .checkpointPointer := by
  cases kid with
  | loaded saved child => cases unwritable
  | unloaded saved seen stored =>
      obtain ⟨isLoaded, isSeen, _⟩ := kidRep
      have noSt : sptr.st = none := by
        rw [← Option.not_isSome_iff_eq_none, isSeen]
        exact Bool.eq_false_iff.mp unwritable
      simp [writtenPtr, noSt, isLoaded]

theorem writtenPtrs_of_writable
    {kids : List (Kid (Tree h))}
    (kidsRep : RepKids (KidRep (Rep log h)) ptrs kids cells)
    (writable : kids.all Kid.writable = true) :
    ∃ written, writtenPtrs ptrs = .ok written := by
  induction kids generalizing ptrs cells with
  | nil =>
      obtain ⟨rfl, _⟩ := repKids_nil.mp kidsRep
      exact ⟨[], rfl⟩
  | cons kid kids inductionHypothesis =>
      obtain ⟨sptr, ptrs, here, there, rfl, rfl, kidRep, restRep⟩ :=
        repKids_cons.mp kidsRep
      rw [List.all_cons, Bool.and_eq_true] at writable
      obtain ⟨written, isWritten⟩ :=
        writtenPtr_of_writable kidRep writable.1
      obtain ⟨others, isOthers⟩ := inductionHypothesis restRep writable.2
      refine ⟨written :: others, ?_⟩
      rw [writtenPtrs, isWritten, isOthers]
      rfl

theorem writtenPtrs_of_not_writable
    {kids : List (Kid (Tree h))}
    (kidsRep : RepKids (KidRep (Rep log h)) ptrs kids cells)
    (unwritable : kids.all Kid.writable = false) :
    writtenPtrs ptrs = .error .checkpointPointer := by
  induction kids generalizing ptrs cells with
  | nil => cases unwritable
  | cons kid kids inductionHypothesis =>
      obtain ⟨sptr, ptrs, here, there, rfl, rfl, kidRep, restRep⟩ :=
        repKids_cons.mp kidsRep
      rw [writtenPtrs]
      cases writable : kid.writable with
      | false =>
          rw [writtenPtr_of_not_writable kidRep writable]
          rfl
      | true =>
          obtain ⟨written, isWritten⟩ :=
            writtenPtr_of_writable kidRep writable
          rw [List.all_cons, writable, Bool.true_and] at unwritable
          rw [isWritten, inductionHypothesis restRep unwritable]
          rfl

end Pointers

/-! ## What is flushed -/

section Flush

variable {log : List LogRecord} {recno h : Nat} {heap : Heap} {frame : Part}
  {dirty : List FtNode}

/-- A pointer that is not in memory names the same node in a copy. -/
def KeptPtr (sptr written : SubtreePtr) : Prop :=
  sptr.inmemory = false → written = ⟨sptr.recno, sptr.offset, none, false⟩

/-- The image is a copy of some node of the part. -/
def CopiedFrom (cells : Part) (image : FtNode) : Prop :=
  ∃ this node, (this, node) ∈ cells ∧ image.entries = node.entries ∧
    image.height = node.height ∧
    List.Forall₂ KeptPtr node.subtrees image.subtrees

theorem CopiedFrom.mono
    {cells more : Part}
    (copied : CopiedFrom cells image)
    (within : cells ≤ more) :
    CopiedFrom more image := by
  obtain ⟨this, node, member, same⟩ := copied
  exact ⟨this, node, Multiset.mem_of_le within member, same⟩

/-- What the flush of a child leaves: the child, copies of its nodes, and in a
log with the copies a stored copy of it. -/
def KidFlushed
    (log : List LogRecord)
    (recno h : Nat)
    (frame : Part)
    (dirty : List FtNode)
    (kid kid' : Kid (Tree h))
    (count : Nat)
    (old : SubtreePtr)
    (part : Part)
    (result : Except Fault ((SubtreePtr × List FtNode) × Heap)) : Prop :=
  ∃ sptr new next cells, result = .ok ((sptr, dirty ++ new), next) ∧
    (sptr.st = old.st ∧ (old.inmemory = false → sptr = old) ∧
      ∀ image ∈ new, CopiedFrom part image) ∧
    dirty.length + new.length = count ∧
    KidRep (Rep log h) sptr kid' cells ∧ Owns next (cells + frame) ∧
    ∀ later images, dirty ++ new <+: images →
      Archive log later recno images → Backs log h kid →
      Refiled log later h kid kid' ∧
      ∃ written stored, writtenPtr sptr = .ok written ∧
        Assembled log h kid stored ∧ KidRep (Rep later h) written stored 0

/-- What the flush of all children of a node leaves. -/
def KidsFlushed
    (log : List LogRecord)
    (recno h : Nat)
    (frame : Part)
    (dirty : List FtNode)
    (kids kids' : List (Kid (Tree h)))
    (count : Nat)
    (old : List SubtreePtr)
    (part : Part)
    (result : Except Fault ((List SubtreePtr × List FtNode) × Heap)) :
    Prop :=
  ∃ ptrs new next cells, result = .ok ((ptrs, dirty ++ new), next) ∧
    (List.Forall₂ (fun before after : SubtreePtr =>
        before.inmemory = false → after = before) old ptrs ∧
      ∀ image ∈ new, CopiedFrom part image) ∧
    dirty.length + new.length = count ∧
    RepKids (KidRep (Rep log h)) ptrs kids' cells ∧
    Owns next (cells + frame) ∧
    ∀ later images, dirty ++ new <+: images →
      Archive log later recno images → (∀ kid ∈ kids, Backs log h kid) →
      List.Forall₂ (Refiled log later h) kids kids' ∧
      ∃ written stored, writtenPtrs ptrs = .ok written ∧
        List.Forall₂ (Assembled log h) kids stored ∧
        RepKids (KidRep (Rep later h)) written stored 0

/-- What is written of pointers that are not in memory. -/
theorem keptPtrs
    {old ptrs written : List SubtreePtr}
    (keeps : List.Forall₂ (fun before after : SubtreePtr =>
      before.inmemory = false → after = before) old ptrs)
    (isWritten : writtenPtrs ptrs = .ok written) :
    List.Forall₂ KeptPtr old written := by
  induction keeps generalizing written with
  | nil =>
      cases isWritten
      exact .nil
  | @cons before after old ptrs same _ inductionHypothesis =>
      rw [writtenPtrs] at isWritten
      cases first : writtenPtr after with
      | error fault =>
          rw [first] at isWritten
          cases isWritten
      | ok one =>
          cases others : writtenPtrs ptrs with
          | error fault =>
              rw [first, others] at isWritten
              cases isWritten
          | ok rest =>
              rw [first, others] at isWritten
              cases isWritten
              refine .cons (fun unloaded => ?_) (inductionHypothesis others)
              rw [same unloaded, writtenPtr] at first
              split at first
              · cases first
                rfl
              · rw [if_neg (by rw [unloaded]; exact Bool.false_ne_true)]
                  at first
                cases first

theorem kidsFlushed
    {helper : SubtreePtr → List FtNode → FigM (SubtreePtr × List FtNode)}
    (each : ∀ {sptr : SubtreePtr} {kid kid' : Kid (Tree h)} {cells : Part}
      {heap : Heap} {frame : Part} {dirty : List FtNode} {count : Nat},
      KidRep (Rep log h) sptr kid cells → Owns heap (cells + frame) →
      flush recno h kid dirty.length = some (kid', count) →
      KidFlushed log recno h frame dirty kid kid' count sptr cells
        ((helper sptr dirty).run heap))
    {kids kids' : List (Kid (Tree h))}
    (kidsRep : RepKids (KidRep (Rep log h)) ptrs kids cells)
    (owns : Owns heap (cells + frame))
    (flushed : flushKids (flush recno h) kids dirty.length =
      some (kids', count)) :
    KidsFlushed log recno h frame dirty kids kids' count ptrs cells
      ((getDirtySlots helper ptrs dirty).run heap) := by
  induction kids generalizing ptrs cells kids' dirty heap frame with
  | nil =>
      obtain ⟨rfl, rfl⟩ := repKids_nil.mp kidsRep
      cases flushed
      refine ⟨[], [], heap, 0, ?_, ⟨.nil, by simp⟩, rfl,
        repKids_nil.mpr ⟨rfl, rfl⟩, owns, ?_⟩
      · rw [List.append_nil]
        rfl
      · intro later images _ _ _
        exact ⟨.nil, [], [], rfl, .nil, repKids_nil.mpr ⟨rfl, rfl⟩⟩
  | cons kid kids inductionHypothesis =>
      obtain ⟨sptr, ptrs, here, there, rfl, rfl, kidRep, restRep⟩ :=
        repKids_cons.mp kidsRep
      obtain ⟨first, middle, others, isFirst, isOthers, rfl⟩ :=
        flushKids_cons.mp flushed
      rw [add_assoc] at owns
      obtain ⟨sptr', new, next, here', run, ⟨_, keeps, copied⟩, length,
        kidRep', owns', files⟩ := each kidRep owns isFirst
      rw [← length, ← List.length_append] at isOthers
      obtain ⟨ptrs', new', after, there', run', ⟨keeps', copied'⟩, length',
        restRep', owns'', files'⟩ := inductionHypothesis restRep
          (owns'.of_eq (add_left_comm here' there frame)) isOthers
      refine ⟨sptr' :: ptrs', new ++ new', after, here' + there', ?_,
        ⟨.cons keeps keeps', fun image member => ?_⟩, ?_,
        repKids_cons.mpr ⟨sptr', ptrs', here', there', rfl, rfl, kidRep',
          restRep'⟩, owns''.of_eq ?_, ?_⟩
      · rw [getDirtySlots, StateT.run_bind, run, ← List.append_assoc]
        change StateT.run (getDirtySlots helper ptrs (dirty ++ new) >>=
          fun found => pure (sptr' :: found.1, found.2)) next = _
        rw [StateT.run_bind, run']
        rfl
      · rcases List.mem_append.mp member with first | second
        · exact (copied image first).mono (Multiset.le_add_right _ _)
        · exact (copied' image second).mono (Multiset.le_add_left _ _)
      · rw [← length', List.length_append, List.length_append]
        omega
      · rw [add_left_comm, add_assoc]
      · intro later images isPrefix archive backs
        rw [← List.append_assoc] at isPrefix
        obtain ⟨refiled, written, stored, isWritten, assembled, isStored⟩ :=
          files later images ((List.prefix_append _ _).trans isPrefix) archive
            (backs kid List.mem_cons_self)
        obtain ⟨refiled', written', stored', isWritten', assembled',
          isStored'⟩ := files' later images isPrefix archive
            fun other member => backs other (List.mem_cons_of_mem _ member)
        refine ⟨.cons refiled refiled', written :: written',
          stored :: stored', ?_,
          .cons assembled assembled', repKids_cons.mpr ⟨written, written',
            0, 0, rfl, rfl, isStored, isStored'⟩⟩
        rw [writtenPtrs, isWritten, isWritten']
        rfl

/-- A pointer that is not in memory or null is left alone. -/
theorem run_getDirtyHelper_skip
    {sptr : SubtreePtr}
    (skipped : sptr.inmemory = false ∨ sptr.st = none)
    (recno depth : Nat)
    (dirty : List FtNode)
    (heap : Heap) :
    (getDirtyHelper recno depth sptr dirty).run heap =
      .ok ((sptr, dirty), heap) := by
  cases depth with
  | zero =>
      rw [getDirtyHelper]
      split
      · next loaded isSt =>
          rcases skipped with unloaded | noSt
          · cases loaded.symm.trans unloaded
          · cases isSt.symm.trans noSt
      · rfl
  | succ depth =>
      rw [getDirtyHelper]
      split
      · next loaded isSt =>
          rcases skipped with unloaded | noSt
          · cases loaded.symm.trans unloaded
          · cases isSt.symm.trans noSt
      · rfl

/-- The pointer to a node in memory. -/
theorem getDirtyHelper_loaded
    {sptr : SubtreePtr}
    (loaded : sptr.inmemory = true)
    (isSt : sptr.st = some st)
    (recno depth : Nat)
    (dirty : List FtNode) :
    getDirtyHelper recno (depth + 1) sptr dirty = (do
      let node ← loadNode st
      if node.dirty then do
        let (subtrees, dirty) ←
          getDirtySlots (getDirtyHelper recno depth) node.subtrees dirty
        let node := { node with subtrees := subtrees, dirty := false }
        storeNode st node
        let written ← writtenPtrs subtrees
        pure
          ({ sptr with
              recno := recno
              offset := dirty.length * sizeofFtNode },
            dirty ++ [{ node with subtrees := written }])
      else pure (sptr, dirty)) := by
  rw [getDirtyHelper, loaded, isSt]

/-- A clean node is left alone. -/
theorem kidFlushed_clean
    {depth : Nat}
    {child : Node (Tree h)}
    (clean : child.dirty = false)
    (kidRep : KidRep (Rep log (h + 1)) sptr (.loaded saved child) cells)
    (owns : Owns heap (cells + frame)) :
    KidFlushed log recno (h + 1) frame dirty (.loaded saved child)
      (.loaded saved child) dirty.length sptr cells
      ((getDirtyHelper recno (depth + 1) sptr dirty).run heap) := by
  obtain ⟨loaded, isSaved, rep⟩ := kidRep
  refine ⟨sptr, [], heap, cells, ?_, ⟨rfl, fun _ => rfl, by simp⟩, rfl,
    ⟨loaded, isSaved, rep⟩, owns, ?_⟩
  · obtain ⟨this, node, below, isSt, rfl, nodeRep⟩ := rep
    rw [getDirtyHelper_loaded loaded isSt, StateT.run_bind,
      run_loadNode (owns.of_eq (add_assoc _ _ _)), List.append_nil]
    have isClean : node.dirty = false := nodeRep.dirty.trans clean
    change StateT.run (if node.dirty then _ else _) heap = _
    rw [if_neg (by rw [isClean]; exact Bool.false_ne_true)]
    rfl
  · intro later images _ archive backs
    obtain ⟨this, node, below, isSt, _⟩ := rep
    rw [backs_loaded, clean, if_neg Bool.false_ne_true] at backs
    obtain ⟨position, copy, rfl, copyRep⟩ := backs
    refine ⟨refiled_loaded.mpr ?_, { sptr with inmemory := false, st := none },
      .unloaded position false copy, ?_,
      assembled_loaded.mpr ⟨position, copy, rfl, ?_⟩, rfl, rfl,
      isSaved position rfl, copyRep.kept archive.kept, rfl⟩
    · rw [clean, if_neg Bool.false_ne_true]
    · rw [writtenPtr, isSt]
    · rw [clean, if_neg Bool.false_ne_true]
      exact ⟨rfl, copyRep⟩

/-- A dirty node is copied after its children. -/
theorem kidFlushed_dirty
    {depth : Nat}
    {child : Node (Tree h)}
    (each : ∀ {sptr : SubtreePtr} {kid kid' : Kid (Tree h)} {cells : Part}
      {heap : Heap} {frame : Part} {dirty : List FtNode} {count : Nat},
      KidRep (Rep log h) sptr kid cells → Owns heap (cells + frame) →
      flush recno h kid dirty.length = some (kid', count) →
      KidFlushed log recno h frame dirty kid kid' count sptr cells
        ((getDirtyHelper recno depth sptr dirty).run heap))
    (isDirty : child.dirty = true)
    (kidRep : KidRep (Rep log (h + 1)) sptr (.loaded saved child) cells)
    (owns : Owns heap (cells + frame))
    (flushed : flushKids (flush recno h) child.kids dirty.length =
      some (kids, last))
    (writable : kids.all Kid.writable = true) :
    KidFlushed log recno (h + 1) frame dirty (.loaded saved child)
      (.loaded (some (recno, last * sizeofFtNode)) (child.withKids kids))
      (last + 1) sptr cells
      ((getDirtyHelper recno (depth + 1) sptr dirty).run heap) := by
  obtain ⟨loaded, isSaved, this, node, below, isSt, rfl, nodeRep⟩ := kidRep
  have owns := owns.of_eq (add_assoc _ _ _)
  obtain ⟨ptrs, new, next, below', run, ⟨keeps, copied⟩, length, kidsRep,
    owns', files⟩ := kidsFlushed each nodeRep.kids (owns.of_eq (add_left_comm _ _ _)) flushed
  obtain ⟨written, isWritten⟩ := writtenPtrs_of_writable kidsRep writable
  have owned := owns'.of_eq (add_left_comm _ _ _)
  have lengths := length_flushKids flushed
  let image : FtNode := { node with subtrees := written, dirty := false }
  have isLast : (dirty ++ new).length = last := by
    rw [List.length_append, length]
  refine ⟨{ sptr with recno := recno, offset := last * sizeofFtNode },
    new ++ [image], next.write this { node with
      subtrees := ptrs, dirty := false },
    cell this { node with subtrees := ptrs, dirty := false } + below', ?_,
    ⟨rfl, fun unloaded => ?_, fun found member => ?_⟩, ?_, ⟨loaded, ?_, this, _, below', isSt, rfl, ?_⟩, ?_, ?_⟩
  · have isDirty' : node.dirty = true := nodeRep.dirty.trans isDirty
    rw [getDirtyHelper_loaded loaded isSt, StateT.run_bind,
      run_loadNode owns]
    change StateT.run (if node.dirty then _ else _) heap = _
    rw [if_pos isDirty', StateT.run_bind, run]
    change StateT.run (storeNode this _ >>= fun _ => _) next = _
    rw [StateT.run_bind, run_storeNode owned, isWritten]
    rw [← List.append_assoc, ← isLast]
    rfl
  · cases loaded.symm.trans unloaded
  · rcases List.mem_append.mp member with old | isImage
    · exact (copied found old).mono (Multiset.le_add_left _ _)
    · rw [List.mem_singleton.mp isImage]
      exact ⟨this, node, Multiset.mem_add.mpr (Or.inl
        (Multiset.mem_singleton_self _)), rfl, rfl,
        keptPtrs keeps isWritten⟩
  · rw [List.length_append, List.length_singleton, ← Nat.add_assoc, length]
  · rintro position isPosition
    cases isPosition
    rfl
  · refine ⟨?_, nodeRep.height, ?_, ?_⟩
    · rw [Node.entries_withKids lengths]
      exact nodeRep.entries
    · exact (Node.dirty_withKids lengths).symm
    · rw [Node.kids_withKids lengths]
      exact kidsRep
  · exact (owned.write _).of_eq (add_assoc _ _ _).symm
  · intro later images isPrefix archive backs
    rw [backs_loaded, if_pos isDirty] at backs
    rw [← List.append_assoc] at isPrefix
    obtain ⟨refiled, written', stored, isWritten', assembled, storedRep⟩ :=
      files later images ((List.prefix_append _ _).trans isPrefix) archive
        backs
    cases isWritten.symm.trans isWritten'
    have storedLength : stored.length = child.kids.length :=
      assembled.length_eq.symm
    have whole : Assembled log (h + 1) (.loaded saved child)
        (.unloaded (recno, last * sizeofFtNode) false
          (child.withKids stored)) := by
      refine assembled_loaded.mpr ⟨_, child.withKids stored, rfl, ?_⟩
      rw [if_pos isDirty, Node.kids_withKids storedLength]
      exact ⟨Node.dirty_withKids storedLength,
        Node.entries_withKids storedLength, assembled⟩
    have copyRep : Rep later (h + 1) (.log (recno, last * sizeofFtNode))
        (child.withKids stored) 0 := by
      refine ⟨image, archive.filed last image ?_, rfl, ?_, nodeRep.height, ?_,
        ?_⟩
      · obtain ⟨rest, rfl⟩ := isPrefix
        rw [← isLast]
        simp
      · rw [Node.entries_withKids storedLength]
        exact nodeRep.entries
      · exact (Node.dirty_withKids storedLength).symm
      · rw [Node.kids_withKids storedLength]
        exact storedRep
    refine ⟨refiled_loaded.mpr ?_, { sptr with
        recno := recno, offset := last * sizeofFtNode
        inmemory := false, st := none },
      .unloaded (recno, last * sizeofFtNode) false (child.withKids stored),
      ?_, whole, rfl, rfl, rfl, copyRep, rfl⟩
    · rw [if_pos isDirty]
      refine ⟨_, child.withKids stored, child.withKids kids, rfl, whole,
        copyRep, Node.dirty_withKids lengths, Node.entries_withKids lengths,
        ?_⟩
      rw [Node.kids_withKids lengths]
      exact refiled
    · simp only [writtenPtr, isSt]

/-- `get_dirty_helper` does what `flush` does. -/
theorem kidFlushed
    {depth : Nat}
    {kid kid' : Kid (Tree h)}
    (deep : h ≤ depth)
    (kidRep : KidRep (Rep log h) sptr kid cells)
    (owns : Owns heap (cells + frame))
    (flushed : flush recno h kid dirty.length = some (kid', count)) :
    KidFlushed log recno h frame dirty kid kid' count sptr cells
      ((getDirtyHelper recno depth sptr dirty).run heap) := by
  induction h generalizing depth sptr cells heap frame dirty count with
  | zero =>
      cases flushed
      cases kid with
      | unloaded saved seen stored => exact kidRep.2.2.2.1.elim
      | loaded saved child =>
          obtain ⟨loaded, isSaved, noSt, rfl⟩ := kidRep
          refine ⟨sptr, [], heap, 0, ?_, ⟨rfl, fun _ => rfl, by simp⟩, rfl,
            ⟨loaded, isSaved, noSt, rfl⟩, owns, ?_⟩
          · rw [List.append_nil]
            exact run_getDirtyHelper_skip (Or.inr noSt) _ _ _ _
          · intro later images _ _ _
            refine ⟨rfl, sptr, .loaded none (), ?_, rfl, loaded, ?_, noSt,
              rfl⟩
            · rw [writtenPtr, noSt, loaded]
              rfl
            · intro position impossible
              cases impossible
  | succ h inductionHypothesis =>
      cases kid with
      | unloaded saved seen stored =>
          cases flushed
          refine ⟨sptr, [], heap, cells, ?_, ⟨rfl, fun _ => rfl, by simp⟩,
            rfl, kidRep, owns, ?_⟩
          · rw [List.append_nil]
            exact run_getDirtyHelper_skip (Or.inl kidRep.1) _ _ _ _
          · intro later images _ _ backs
            exact backs.elim
      | loaded saved child =>
          obtain ⟨depth, rfl⟩ := Nat.exists_eq_add_of_le' deep
          rw [← Nat.add_assoc]
          rcases flush_loaded.mp flushed with
            ⟨clean, rfl, rfl⟩ | ⟨isDirty, kids, last, isKids, writable, rfl,
              rfl⟩
          · exact kidFlushed_clean clean kidRep owns
          · exact kidFlushed_dirty (fun kidRep owns flushed =>
              inductionHypothesis (Nat.le_add_left _ _) kidRep owns flushed)
              isDirty kidRep owns isKids writable

/-! ## What cannot be flushed -/

theorem kidsStuck
    {helper : SubtreePtr → List FtNode → FigM (SubtreePtr × List FtNode)}
    (each : ∀ {sptr : SubtreePtr} {kid kid' : Kid (Tree h)} {cells : Part}
      {heap : Heap} {frame : Part} {dirty : List FtNode} {count : Nat},
      KidRep (Rep log h) sptr kid cells → Owns heap (cells + frame) →
      flush recno h kid dirty.length = some (kid', count) →
      KidFlushed log recno h frame dirty kid kid' count sptr cells
        ((helper sptr dirty).run heap))
    (stuck : ∀ {sptr : SubtreePtr} {kid : Kid (Tree h)} {cells : Part}
      {heap : Heap} {frame : Part} {dirty : List FtNode},
      KidRep (Rep log h) sptr kid cells → Owns heap (cells + frame) →
      flush recno h kid dirty.length = none →
      (helper sptr dirty).run heap = .error .checkpointPointer)
    {kids : List (Kid (Tree h))}
    (kidsRep : RepKids (KidRep (Rep log h)) ptrs kids cells)
    (owns : Owns heap (cells + frame))
    (flushed : flushKids (flush recno h) kids dirty.length = none) :
    (getDirtySlots helper ptrs dirty).run heap =
      .error .checkpointPointer := by
  induction kids generalizing ptrs cells dirty heap frame with
  | nil => cases flushed
  | cons kid kids inductionHypothesis =>
      obtain ⟨sptr, ptrs, here, there, rfl, rfl, kidRep, restRep⟩ :=
        repKids_cons.mp kidsRep
      rw [add_assoc] at owns
      rw [getDirtySlots, StateT.run_bind]
      cases first : flush recno h kid dirty.length with
      | none =>
          rw [stuck kidRep owns first]
          rfl
      | some result =>
          obtain ⟨kid', middle⟩ := result
          obtain ⟨sptr', new, next, here', run, _, length, _, owns', _⟩ :=
            each kidRep owns first
          have rest : flushKids (flush recno h) kids (dirty ++ new).length =
              none := by
            rw [List.length_append, length]
            rw [flushKids, first] at flushed
            cases others : flushKids (flush recno h) kids middle with
            | none => rfl
            | some found =>
                simp [others] at flushed
          rw [run]
          change StateT.run (getDirtySlots helper ptrs (dirty ++ new) >>=
            fun found => pure (sptr' :: found.1, found.2)) next = _
          rw [StateT.run_bind, inductionHypothesis restRep
            (owns'.of_eq (add_left_comm here' there frame)) rest]
          rfl

/-- Where `flush` fails, `get_dirty_helper` fails its assertion. -/
theorem kidStuck
    {depth : Nat}
    {kid : Kid (Tree h)}
    (deep : h ≤ depth)
    (kidRep : KidRep (Rep log h) sptr kid cells)
    (owns : Owns heap (cells + frame))
    (flushed : flush recno h kid dirty.length = none) :
    (getDirtyHelper recno depth sptr dirty).run heap =
      .error .checkpointPointer := by
  induction h generalizing depth sptr cells heap frame dirty with
  | zero => cases flushed
  | succ h inductionHypothesis =>
      cases kid with
      | unloaded saved seen stored => cases flushed
      | loaded saved child =>
          obtain ⟨depth, rfl⟩ := Nat.exists_eq_add_of_le' deep
          obtain ⟨loaded, _, this, node, below, isSt, rfl, nodeRep⟩ := kidRep
          have owns := owns.of_eq (add_assoc _ _ _)
          have owned := owns.of_eq (add_left_comm _ _ _)
          have isDirty : Node.dirty (C := Tree h) child = true := by
            by_contra clean
            rw [flush, if_neg clean] at flushed
            cases flushed
          rw [flush, if_pos isDirty] at flushed
          rw [← Nat.add_assoc, getDirtyHelper_loaded loaded isSt,
            StateT.run_bind, run_loadNode owns]
          change StateT.run (if node.dirty then _ else _) heap = _
          rw [if_pos (nodeRep.dirty.trans isDirty), StateT.run_bind]
          have each := fun {sptr : SubtreePtr} {kid kid' : Kid (Tree h)}
              {cells : Part} {heap : Heap} {frame : Part}
              {dirty : List FtNode} {count : Nat}
              (kidRep : KidRep (Rep log h) sptr kid cells)
              (owns : Owns heap (cells + frame))
              (flushed : flush recno h kid dirty.length =
                some (kid', count)) =>
            kidFlushed (Nat.le_add_left h depth) kidRep owns flushed
          cases slots : flushKids (flush recno h)
              (Node.kids (C := Tree h) child) dirty.length with
          | none =>
              rw [kidsStuck each (fun kidRep owns stuck =>
                inductionHypothesis (Nat.le_add_left _ _) kidRep owns stuck)
                nodeRep.kids owned slots]
              rfl
          | some result =>
              obtain ⟨kids, last⟩ := result
              rw [slots] at flushed
              have unwritable : kids.all Kid.writable = false := by
                cases writable : kids.all Kid.writable with
                | false => rfl
                | true => simp [-List.all_eq_true, writable] at flushed
              obtain ⟨ptrs, new, next, below', run, _, length, kidsRep, owns',
                _⟩ := kidsFlushed each nodeRep.kids owned slots
              rw [run]
              change StateT.run (storeNode this _ >>= fun _ => _) next = _
              rw [StateT.run_bind,
                run_storeNode (owns'.of_eq (add_left_comm _ _ _)),
                writtenPtrs_of_not_writable kidsRep unwritable]
              rfl

end Flush

end FigTree
end Gdpfs
