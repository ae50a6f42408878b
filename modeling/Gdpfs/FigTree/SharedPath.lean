import Gdpfs.FigTree.Partly

/-!
# The path that both continuations share

A write in the middle of an entry leaves a rest on either side of it.  The rest
on the right is inserted first, and nodes may split all the way up to the root
while it is.  The left rest is then inserted from the path that this leaves
behind: it still leads from the root to the gap left of the new entry.
-/

namespace Gdpfs
namespace FigTree

open Log Effect
open Cells (Owns Holds cell Store)

/-! ## The entry right of a hole -/

/-- The first entry on the right of the hole. -/
def Ctx.nextEntry : Ctx h top → Option FtEnt
  | .nil => none
  | .cons frame outer => (frame.right.head?.map Prod.fst).or outer.nextEntry

section Next

variable {h middle top : Nat}

theorem Ctx.nextEntry_append
    (ctx : Ctx h middle)
    (above : Ctx middle top) :
    (ctx.append above).nextEntry = ctx.nextEntry.or above.nextEntry := by
  induction ctx with
  | nil => rfl
  | cons frame outer inductionHypothesis =>
      simp only [Ctx.append, Ctx.nextEntry, inductionHypothesis,
        Option.or_assoc]

/-- The entry on the right of the gap stays there when the node splits, or it
is the one that goes up. -/
theorem settle_next
    {frame : Frame (Tree h)}
    (right : frame.right = (entry, kid) :: rest) :
    frame.settle.1.right.head?.map Prod.fst = some entry ∨
      frame.settle.1.right = [] ∧
        ∃ raised, frame.settle.2 = some raised ∧ raised.side = .left ∧
          raised.entry = entry := by
  unfold Frame.settle
  split
  · unfold Frame.split
    split
    · dsimp only
      rw [right]
      cases ftOrder - frame.left.length with
      | zero => exact Or.inr ⟨rfl, _, rfl, rfl, rfl⟩
      | succ keep => exact Or.inl rfl
    · left
      dsimp only
      rw [right]
      rfl
  · left
    rw [right]
    rfl

/-- An entry that goes up with the hole on its left stays next to the hole. -/
theorem Ctx.push_next
    (ctx : Ctx h top)
    (raised : Raised h)
    (onLeft : raised.side = .left) :
    (ctx.push (some raised)).1.nextEntry = some raised.entry ∨
      (ctx.push (some raised)).1.nextEntry = none ∧
        ∃ above, (ctx.push (some raised)).2 = some above ∧
          above.side = .left ∧ above.entry = raised.entry := by
  induction ctx with
  | nil => exact Or.inr ⟨rfl, raised, rfl, onLeft, rfl⟩
  | cons frame outer inductionHypothesis =>
      have right : (frame.insert raised).right =
          (raised.entry, .loaded none raised.other) :: frame.right := by
        rw [Frame.insert, onLeft]
      rcases settle_next right with stays | ⟨empty, up, isUp, upLeft, same⟩
      · left
        simp only [Ctx.push, Ctx.nextEntry, stays, Option.some_or]
      · simp only [Ctx.push, Ctx.nextEntry, empty, isUp, List.head?_nil,
          Option.map_none, Option.none_or, ← same]
        exact inductionHypothesis up upLeft

theorem pushRoot_next
    (root : RootCtx h)
    (raised : Raised h)
    (onLeft : raised.side = .left) :
    (pushRoot root (some raised)).ctx.nextEntry = some raised.entry := by
  have pushed := root.ctx.push_next raised onLeft
  unfold pushRoot
  dsimp only
  generalize root.ctx.push (some raised) = result at *
  obtain ⟨ctx, _ | above⟩ := result
  · rcases pushed with found | ⟨_, _, impossible, _⟩
    · exact found
    · cases impossible
  · rw [Ctx.nextEntry_append]
    rcases pushed with found | ⟨missing, _, isAbove, aboveLeft, same⟩
    · rw [found, Option.some_or]
    · cases isAbove
      rw [missing, Option.none_or, rootFrame, aboveLeft, ← same]
      rfl

/-- However far up nodes split, the entry on the right of a gap stays there. -/
theorem settle_pushRoot_next
    {frame : Frame (Tree h)}
    (height : Nat)
    (outer : Ctx (h + 1) (height + 1))
    (right : frame.right = (entry, kid) :: rest) :
    Ctx.nextEntry (.cons frame.settle.1
      (pushRoot ⟨height, outer⟩ frame.settle.2).ctx) = some entry := by
  rcases settle_next right with stays | ⟨empty, up, isUp, upLeft, same⟩
  · rw [Ctx.nextEntry, stays, Option.some_or]
  · rw [Ctx.nextEntry, empty, isUp, pushRoot_next _ up upLeft, same]
    rfl

end Next

/-! ## Paths in the heap -/

/-- The pointer in the gap that an element of a path names. -/
def PathEnt.subtree (heap : Heap) (ent : PathEnt) : Option SubtreePtr :=
  (heap.read ent.node).bind (·.subtrees[ent.index]?)

/-- The entry on the right of the gap that an element of a path names. -/
def PathEnt.entry (heap : Heap) (ent : PathEnt) : Option FtEnt :=
  (heap.read ent.node).bind (·.entries[ent.index]?)

/-- A path leads from a root to the pointer in its last gap. -/
structure LeadsTo
    (heap : Heap)
    (root : Option Addr)
    (path : List PathEnt)
    (hole : Option Addr) : Prop where
  first : (path.head?.map PathEnt.node).or hole = root
  link : ∀ k ent next, path[k]? = some ent → path[k + 1]? = some next →
    ∃ sptr, ent.subtree heap = some sptr ∧ sptr.inmemory = true ∧
      sptr.st = some next.node
  last : ∀ ent, path.getLast? = some ent →
    ∃ sptr, ent.subtree heap = some sptr ∧ sptr.inmemory = true ∧
      sptr.st = hole

section Paths

variable {log : List LogRecord} {heap : Heap} {h top : Nat}
  {ctx : Ctx h top} {path : List PathEnt} {hole root : Option Addr}
  {cells frame : Part}

theorem leadsTo_concat
    {ent : PathEnt}
    (outer : LeadsTo heap root path (some ent.node))
    (gap : ∃ sptr, ent.subtree heap = some sptr ∧ sptr.inmemory = true ∧
      sptr.st = hole) :
    LeadsTo heap root (path ++ [ent]) hole := by
  refine ⟨?_, ?_, ?_⟩
  · rw [← outer.first]
    cases path <;> rfl
  · intro k before next isBefore isNext
    by_cases inside : k + 1 < path.length
    · rw [List.getElem?_append_left (by omega)] at isBefore
      rw [List.getElem?_append_left inside] at isNext
      exact outer.link k before next isBefore isNext
    · have bound := (List.getElem?_eq_some_iff.mp isNext).1
      rw [List.length_append, List.length_singleton] at bound
      have atEnd : k + 1 = path.length := by omega
      rw [List.getElem?_append_left (by omega)] at isBefore
      rw [List.getElem?_append_right (by omega), atEnd, Nat.sub_self]
        at isNext
      cases Option.some.inj isNext
      refine outer.last before ?_
      rw [List.getLast?_eq_getElem?, ← atEnd]
      exact isBefore
  · intro final isFinal
    rw [List.getLast?_concat] at isFinal
    cases isFinal
    exact gap

/-- The gap of a node that is represented. -/
theorem FrameRep.gap
    {gapFrame : Frame (Tree h)}
    (frameRep : FrameRep (Rep log h) h node gapFrame hole below)
    (loaded : gapFrame.hole.isLoaded = true) :
    (∃ sptr, node.subtrees[gapFrame.left.length]? = some sptr ∧
      sptr.inmemory = true ∧ sptr.st = hole) ∧
      node.entries[gapFrame.left.length]? =
        gapFrame.right.head?.map Prod.fst := by
  obtain ⟨before, sptr, after, left, right, shape, _, leftRep, _, holeRep⟩ :=
    frameRep.subtrees
  have length : before.length = gapFrame.left.length := by
    rw [leftRep.length_eq]
    simp
  refine ⟨⟨sptr, ?_, ?_⟩, ?_⟩
  · rw [shape, ← length]
    simp
  · cases isHole : gapFrame.hole with
    | loaded saved child =>
        rw [isHole] at holeRep
        exact ⟨holeRep.1, holeRep.2.2⟩
    | unloaded saved seen stored =>
        rw [isHole] at loaded
        cases loaded
  · rw [frameRep.entries, List.getElem?_append_right (by simp)]
    simp [List.head?_eq_getElem?]

/-- The path of a context in the heap leads to its hole, next to the entry on
the right of the hole. -/
theorem CtxRep.leads
    (ctxRep : CtxRep log ctx path hole root cells)
    (loaded : ctx.AllLoaded)
    (owns : Owns heap (cells + frame)) :
    LeadsTo heap root path hole ∧
      path.reverse.findSome? (PathEnt.entry heap) = ctx.nextEntry := by
  induction ctx generalizing path hole cells frame with
  | nil =>
      obtain ⟨rfl, rfl, rfl⟩ := ctxRep
      refine ⟨⟨rfl, fun k ent next isEnt => ?_, fun ent isEnt => ?_⟩, rfl⟩
      · cases isEnt
      · cases isEnt
  | cons gapFrame outer inductionHypothesis =>
      obtain ⟨this, node, above, below, outerCells, rfl, rfl, frameRep,
        outerRep⟩ := ctxRep
      obtain ⟨leads, beside⟩ := inductionHypothesis outerRep loaded.2
        (owns.of_eq (show _ = outerCells + (cell this node + below + frame)
          by abel))
      have live : heap.read this = some node :=
        (owns.of_eq (show _ = cell this node + (below + outerCells + frame)
          by abel)).read
      obtain ⟨gap, entry⟩ := frameRep.gap loaded.1
      refine ⟨leadsTo_concat leads ?_, ?_⟩
      · rw [PathEnt.subtree, live]
        exact gap
      · rw [List.reverse_concat, List.findSome?_cons, PathEnt.entry, live,
          Option.bind_some, entry, beside, Ctx.nextEntry]
        cases gapFrame.right.head?.map Prod.fst <;> rfl

end Paths

/-! ## Trees that stay in memory -/

/-- The states that writes below the last byte index and checkpoints reach from
a new tree, while records are appended to the log. -/
inductive MemoryReached : List LogRecord → Figtree → Heap → Prop
  | init
      (run : ftInit.run Store.empty = .ok (this, heap)) :
      MemoryReached log this heap
  | write
      (reached : MemoryReached log this heap)
      (ends : start ≤ stop)
      (below : stop < byteIndexMax)
      (run : (ftWrite log this start stop value).run heap =
        .ok (this', heap')) :
      MemoryReached log this' heap'
  | chkpt
      (reached : MemoryReached log this heap)
      (run : (getDirty this recno).run heap = .ok (nodes, heap')) :
      MemoryReached log this heap'
  | append
      (reached : MemoryReached log this heap)
      (grown : log <+: later) :
      MemoryReached later this heap

section Chkpt

variable {regime : Regime} {h low high recno count : Nat}

theorem flushKids_forall₂
    {flush : Kid C → Nat → Option (Kid C × Nat)}
    {kids kids' : List (Kid C)}
    (flushed : flushKids flush kids count = some (kids', count')) :
    List.Forall₂ (fun kid kid' => ∃ before after,
      flush kid before = some (kid', after)) kids kids' := by
  induction kids generalizing kids' count with
  | nil =>
      cases flushed
      exact .nil
  | cons kid kids inductionHypothesis =>
      obtain ⟨first, middle, others, isFirst, isOthers, rfl⟩ :=
        flushKids_cons.mp flushed
      exact .cons ⟨count, middle, isFirst⟩ (inductionHypothesis isOthers)

/-- A checkpoint keeps a tree sound where nothing is asked of the log. -/
theorem SoundKid.flush
    {kid kid' : Kid (Tree h)}
    (trusting : regime.Trusting)
    (sound : SoundKid regime h low high kid)
    (flushed : FigTree.flush recno h kid count = some (kid', count')) :
    SoundKid regime h low high kid' := by
  induction h generalizing low high count count' with
  | zero =>
      cases flushed
      exact sound
  | succ h inductionHypothesis =>
      cases kid with
      | unloaded saved seen stored =>
          cases flushed
          exact sound
      | loaded saved child =>
          rcases flush_loaded.mp flushed with
            ⟨_, rfl, _⟩ | ⟨_, kids, last, isKids, _, rfl, _⟩
          · exact sound
          · have length := length_flushKids isKids
            have entries : (Node.withKids (C := Tree h) child kids).entries =
                Node.entries (C := Tree h) child :=
              Node.entries_withKids length
            have each := flushKids_forall₂ isKids
            rw [← Node.kids_withKids length] at each
            refine ⟨?_, fun _ => trusting _ _ _ _ _⟩
            refine NodeOk.transfer sound.1 entries each ?_
            rintro first last kid kid' ⟨before, after, isKid⟩ kidSound
            exact inductionHypothesis kidSound isKid

end Chkpt

section Reached

variable {log : List LogRecord} {heap : Heap} {this : Figtree}

/-- Every such state holds a sound tree. -/
theorem MemoryReached.sound
    (reached : MemoryReached log this heap) :
    ∃ fig : Fig, fig.Sound belowMax ∧ Holds (FigRep log fig this) 0 heap := by
  induction reached with
  | @init _ _ log run =>
      have made := (@ensures_ftInit log) (Owns.nothing Store.empty)
      rw [ensures_of_run run] at made
      exact ⟨Fig.empty, Fig.empty_sound _, made⟩
  | @write _ _ _ _ _ value _ _ _ ends below run inductionHypothesis =>
      obtain ⟨fig, sound, holds⟩ := inductionHypothesis
      have written := ensures_write_eager id sound holds ends below
        (sound.edgeClear rfl ends below le_rfl) value
      rw [ensures_of_run run] at written
      obtain ⟨fig', sound', holds', _⟩ := written
      exact ⟨fig', sound', holds'⟩
  | @chkpt _ _ _ recno _ _ _ run inductionHypothesis =>
      obtain ⟨fig, sound, cells, rep, owns⟩ := inductionHypothesis
      cases flushed : flush recno (fig.height + 1) (.loaded none fig.tree) 0 with
      | none =>
          have stuck := getDirty_stuck rep owns flushed
          cases stuck.symm.trans run
      | some result =>
          obtain ⟨kid', count⟩ := result
          obtain ⟨saved, tree', rfl⟩ := flush_root flushed
          have trusting : belowMax.Trusting := fun _ _ _ _ _ => trivial
          have kept := SoundKid.flush trusting
            (SoundKid.of_touched sound (fun _ => Or.inl trusting) none) flushed
          have copied := ensures_getDirty rep owns flushed
          rw [ensures_of_run run] at copied
          exact ⟨⟨fig.height, tree'⟩, kept.1, copied.2.1⟩
  | append _ grown inductionHypothesis =>
      obtain ⟨fig, sound, cells, rep, owns⟩ := inductionHypothesis
      exact ⟨fig, sound, cells, rep.grow grown, owns⟩

end Reached

/-! ## Between the continuations -/

/-- `ft_write` up to the point where its left continuation starts. -/
def ftWriteUpto
    (log : List LogRecord)
    (this : Figtree)
    (start stop : Nat)
    (value : Int) : FigM (Figtree × List PathEnt × InsertCont) := do
  let maxdepth := (← loadNode this.root).height + 2
  ftWriteShared log maxdepth this start stop value

/-- The path leads from the root of the tree to the gap on the left of an
entry; in a leaf the gap has no subtree. -/
structure PathShared
    (heap : Heap)
    (this : Figtree)
    (path : List PathEnt)
    (leftAt : Option Addr)
    (entry : FtEnt) : Prop where
  root : path.head?.map PathEnt.node = some this.root
  link : ∀ k ent next, path[k]? = some ent → path[k + 1]? = some next →
    ∃ sptr, ent.subtree heap = some sptr ∧ sptr.inmemory = true ∧
      sptr.st = some next.node
  gap : ∃ ent node sptr, path.getLast? = some ent ∧
    heap.read ent.node = some node ∧ ent.subtree heap = some sptr ∧
    sptr.inmemory = true ∧ sptr.st = leftAt ∧
    (node.height = 0 ↔ leftAt = none)
  beside : path.reverse.findSome? (PathEnt.entry heap) = some entry

section Shared

variable {log : List LogRecord} {heap : Heap} {this : Figtree}

/-- What a null pointer is, seen from the height above it. -/
theorem Rep.null_iff
    {h : Nat}
    {tree : Tree h}
    (rep : Rep log h (.memory ptr) tree cells) :
    h = 0 ↔ ptr = none := by
  cases h with
  | zero => exact ⟨fun _ => rep.1, fun _ => rfl⟩
  | succ h =>
      obtain ⟨_, _, _, rfl, _⟩ := rep
      simp

theorem Hit.rightPart_head
    {hit : Hit h}
    {right : List (FtEnt × Kid (Tree h))}
    (shape : hit.rightPart range value = some right) :
    ∃ kid rest, right = (⟨range, value⟩, kid) :: rest := by
  unfold Hit.rightPart at shape
  dsimp only at shape
  split at shape
  · split at shape
    · cases shape
    · split at shape <;> cases shape <;> exact ⟨_, _, rfl⟩
  · cases shape
    exact ⟨_, _, rfl⟩

/-- The path survives the right continuation of a write: it leads from the root
to the gap on the left of the new entry, where the left continuation starts,
whatever nodes were split. -/
theorem shared_path_survives
    (reached : MemoryReached log this heap)
    (ends : start ≤ stop)
    (below : stop < byteIndexMax)
    (value : Int) :
    Ensures (ftWriteUpto log this start stop value)
      (fun result next => ∀ leftc, result.2.2.leftc = some leftc →
        result.2.2.rightc.isSome = true →
        PathShared next result.1 result.2.1 leftc.startNode
          ⟨iInit start stop, value⟩) heap := by
  obtain ⟨fig, sound, cells, rep, owns⟩ := reached.sound
  have edgeClear : fig.EdgeClear (iInit start stop) :=
    sound.edgeClear rfl ends below le_rfl
  have way := sound.wayLoaded id rfl ends below edgeClear
  have whole := rep
  obtain ⟨_, node, beneath, same, rfl, nodeRep⟩ := rep
  cases same
  rw [ftWriteUpto,
    ensures_run_bind (run_loadNode (owns.of_eq (add_assoc _ _ _))),
    nodeRep.height]
  refine ensures_ftWriteShared whole sound ends below edgeClear (Or.inr way)
    owns value ?_ ?_
  · intro leaf lands next this' path' holds leftc isLeft
    cases isLeft
  · intro h inner hit right shared leftPtr leftStart rightc here leftGap next
      this' path' cells' ctxRep owns leftc isLeft _
    obtain ⟨pathOk, _⟩ := shared.overlap.path_ok shared.rightOk shared.ok
      shared.lows shared.highs
    obtain ⟨kid, rest, isRight⟩ := Hit.rightPart_head shared.rightShape
    have beside := (@settle_pushRoot_next _ _ _ _
      (hit.frame (iInit start stop) right)) fig.height inner isRight
    obtain ⟨leads, found⟩ := ctxRep.leads (pathOk.allLoaded id) owns
    obtain ⟨last, lastNode, above, below, outerCells, rfl, rfl, frameRep,
      _⟩ := ctxRep
    have live : next.read last = some lastNode :=
      (owns.of_eq (show _ = cell last lastNode +
        (below + outerCells + (here + 0)) by abel)).read
    dsimp only at isLeft
    split at isLeft
    · next hasLeft =>
        cases isLeft
        have null := (leftGap.child (Or.inl hasLeft)).null_iff
        obtain ⟨sptr, isSubtree, inMemory, isLeft⟩ :=
          leads.last _ List.getLast?_concat
        refine ⟨?_, leads.link, ⟨_, lastNode, sptr, List.getLast?_concat,
          live, isSubtree, inMemory, isLeft, ?_⟩, found.trans beside⟩
        · rw [← leads.first]
          cases above <;> rfl
        · rw [frameRep.height]
          exact null
    · cases isLeft

/-- Writes below the last byte index are a part of such a run. -/
theorem MemoryReached.writes
    {calls : List WriteCall}
    (reached : MemoryReached log this heap)
    (below : CallsBelow byteIndexMax calls)
    (run : (ftWrites log this calls).run heap = .ok (this', heap')) :
    MemoryReached log this' heap' := by
  induction calls generalizing this heap with
  | nil =>
      cases run
      exact reached
  | cons call calls inductionHypothesis =>
      obtain ⟨ends, upper⟩ := below call List.mem_cons_self
      rw [ftWrites, StateT.run_bind] at run
      cases first : (ftWrite log this call.start call.stop call.value).run
          heap with
      | error fault =>
          rw [first] at run
          cases run
      | ok result =>
          rw [first] at run
          exact inductionHypothesis (reached.write ends upper first)
            (fun other member => below other (List.mem_cons_of_mem _ member))
            run

/-- Writes that leave a full root over a full leaf, which holds a long entry. -/
def fullPath : List WriteCall :=
  ⟨0, 9, 1⟩ :: (List.range 13).map (fun i =>
    ⟨100 * (i + 1), 100 * (i + 1), i⟩) ++ [⟨20, 20, 2⟩, ⟨30, 30, 3⟩]

/-- A write in the middle of the long entry needs both continuations; the right
one splits the leaf and the root. -/
theorem shared_path_survives_nested :
    ∃ this heap result next leftc,
      (ftRun [] fullPath).run Store.empty = .ok (this, heap) ∧
      (ftWriteUpto [] this 3 5 2).run heap = .ok (result, next) ∧
      (heap.read this.root).map FtNode.height = some 1 ∧
      (next.read result.1.root).map FtNode.height = some 2 ∧
      result.2.2.leftc = some leftc ∧ result.2.2.rightc.isSome = true ∧
      PathShared next result.1 result.2.1 leftc.startNode ⟨iInit 3 5, 2⟩ := by
  have facts : (((ftRun [] fullPath).run Store.empty).toOption.bind
      fun made => ((ftWriteUpto [] made.1 3 5 2).run made.2).toOption.map
        fun wrote => ((made.2.read made.1.root).map FtNode.height,
          (wrote.2.read wrote.1.1.root).map FtNode.height,
          wrote.1.2.2.leftc.isSome, wrote.1.2.2.rightc.isSome)) =
      some (some 1, some 2, true, true) := by
    decide +kernel
  obtain ⟨⟨this, heap⟩, made, facts⟩ := Option.bind_eq_some_iff.mp facts
  obtain ⟨⟨result, next⟩, wrote, facts⟩ := Option.map_eq_some_iff.mp facts
  simp only [Prod.mk.injEq] at facts
  obtain ⟨low, high, isLeft, isRight⟩ := facts
  obtain ⟨leftc, left⟩ := Option.isSome_iff_exists.mp isLeft
  have ran := run_of_toOption made
  have run := run_of_toOption wrote
  have init : ftInit.run Store.empty = .ok (⟨0⟩, _) := rfl
  have writes := ran
  rw [ftRun, run_bind_of_run init] at writes
  have below : CallsBelow byteIndexMax fullPath := by
    unfold CallsBelow
    decide
  have reached : MemoryReached [] this heap :=
    (MemoryReached.init init).writes below writes
  have shared := (ensures_of_run run).mp
    (shared_path_survives reached (show 3 ≤ 5 by decide)
      (show 5 < byteIndexMax by decide) 2)
  exact ⟨this, heap, result, next, leftc, ran, run, low, high, left, isRight,
    shared leftc left isRight⟩

end Shared

end FigTree
end Gdpfs
