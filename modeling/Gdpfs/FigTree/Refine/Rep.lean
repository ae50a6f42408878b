import Gdpfs.FigTree.Abstract.Walk
import Gdpfs.FigTree.Checkpoint
import Gdpfs.FigTree.Read
import Mathlib.Tactic.Abel

/-!
# How the heap represents a tree

A tree value is represented by a pointer and the cells below it, and one that
was only checkpointed by a position in the log.  A path is represented by the
elements of `path` and `pathIndices` and the cells of its nodes without what is
below the hole.
-/

namespace Gdpfs
namespace FigTree

open Log Effect
open Cells (Owns Holds cell)

/-- A part of the heap. -/
abbrev Part := Multiset (Addr × FtNode)

/-! ## Primitive operations -/

section Primitive

variable {heap : Heap} {this : Addr} {node : FtNode} {rest : Part}

theorem run_loadNode
    (owns : Owns heap (cell this node + rest)) :
    (loadNode this).run heap = .ok (node, heap) := by
  have live := owns.read
  simp [loadNode, live]
  rfl

theorem run_storeNode
    (owns : Owns heap (cell this node + rest))
    (value : FtNode) :
    (storeNode this value).run heap = .ok ((), heap.write this value) := by
  have live := owns.read
  simp [storeNode, live]
  rfl

theorem run_memAlloc (heap : Heap) (value : FtNode) :
    (memAlloc value).run heap = .ok (heap.fresh, heap.alloc value) :=
  rfl

theorem run_memFree
    (owns : Owns heap (cell this node + rest)) :
    (memFree (some this)).run heap = .ok ((), heap.free this) := by
  have live := owns.read
  simp [memFree, live]
  rfl

theorem run_ensure
    {condition : Bool}
    (holds : condition = true)
    (fault : Fault)
    (heap : Heap) :
    (ensure condition fault).run heap = .ok ((), heap) := by
  rw [ensure, if_pos holds]
  rfl

theorem run_lift_ok (value : α) (heap : Heap) :
    (liftM (Except.ok value : Except Fault α) : FigM α).run heap =
      .ok (value, heap) :=
  rfl

end Primitive

/-! ## Trees -/

/-- Where a tree is kept. -/
inductive Source
  | memory (ptr : Option Addr)
  | log (position : Nat × Nat)

/-- Child pointers represent a list of children, each in a part of its own. -/
def RepKids (rep : SubtreePtr → Kid C → Part → Prop) :
    List SubtreePtr → List (Kid C) → Part → Prop
  | [], [], cells => cells = 0
  | sptr :: ptrs, kid :: kids, cells =>
      ∃ here there, cells = here + there ∧ rep sptr kid here ∧
        RepKids rep ptrs kids there
  | _, _, _ => False

/-- A child pointer represents a child. -/
def KidRep (rep : Source → C → Part → Prop) (sptr : SubtreePtr) :
    Kid C → Part → Prop
  | .loaded saved child, cells =>
      sptr.inmemory = true ∧
        (∀ position, saved = some position →
          (sptr.recno, sptr.offset) = position) ∧
        rep (.memory sptr.st) child cells
  | .unloaded saved seen stored, cells =>
      sptr.inmemory = false ∧ sptr.st.isSome = seen ∧
        (sptr.recno, sptr.offset) = saved ∧
        rep (.log saved) stored 0 ∧ cells = 0

/-- The contents of a cell represent a node. -/
structure NodeRep
    (rep : SubtreePtr → Kid C → Part → Prop)
    (height : Nat)
    (node : FtNode)
    (tree : Node C)
    (below : Part) : Prop where
  entries : node.entries = tree.entries
  height : node.height = height
  dirty : node.dirty = tree.dirty
  kids : RepKids rep node.subtrees tree.kids below

/-- The heap or the log represents a tree. -/
def Rep (log : List LogRecord) :
    (h : Nat) → Source → Tree h → Part → Prop
  | 0, .memory ptr, _, cells => ptr = none ∧ cells = 0
  | 0, .log _, _, _ => False
  | h + 1, .memory ptr, tree, cells =>
      ∃ this node below, ptr = some this ∧ cells = cell this node + below ∧
        NodeRep (KidRep (Rep log h)) h node (tree : Node (Tree h)) below
  | h + 1, .log position, tree, cells =>
      ∃ node, fetchNode log position.1 position.2 = .ok node ∧ cells = 0 ∧
        NodeRep (KidRep (Rep log h)) h node (tree : Node (Tree h)) 0

/-- A cell and what is below it hold a tree. -/
theorem holds_node
    {log : List LogRecord}
    {h : Nat}
    {heap : Heap}
    {node : FtNode}
    {tree : Node (Tree h)}
    {below frame : Part}
    (nodeRep : NodeRep (KidRep (Rep log h)) h node tree below)
    (owns : Owns heap (cell this node + (below + frame))) :
    Holds (Rep log (h + 1) (.memory (some this)) tree) frame heap :=
  ⟨cell this node + below, ⟨this, node, below, rfl, rfl, nodeRep⟩,
    owns.of_eq (add_assoc _ _ _).symm⟩

section Kids

variable {rep : SubtreePtr → Kid C → Part → Prop}

@[simp] theorem repKids_nil :
    RepKids rep ptrs [] cells ↔ ptrs = [] ∧ cells = 0 := by
  cases ptrs <;> simp [RepKids]

@[simp] theorem repKids_cons :
    RepKids rep ptrs (kid :: kids) cells ↔
      ∃ sptr rest here there, ptrs = sptr :: rest ∧ cells = here + there ∧
        rep sptr kid here ∧ RepKids rep rest kids there := by
  cases ptrs with
  | nil => simp [RepKids]
  | cons sptr rest =>
      simp only [RepKids, List.cons.injEq]
      constructor
      · rintro ⟨here, there, split, kidRep, restRep⟩
        exact ⟨sptr, rest, here, there, ⟨rfl, rfl⟩, split, kidRep, restRep⟩
      · rintro ⟨_, _, here, there, ⟨rfl, rfl⟩, split, kidRep, restRep⟩
        exact ⟨here, there, split, kidRep, restRep⟩

theorem repKids_singleton
    (kidRep : rep sptr kid cells) :
    RepKids rep [sptr] [kid] cells :=
  ⟨cells, 0, (add_zero _).symm, kidRep, rfl⟩

theorem RepKids.length_eq
    (kids : RepKids rep ptrs children cells) :
    ptrs.length = children.length := by
  induction children generalizing ptrs cells with
  | nil =>
      obtain ⟨rfl, _⟩ := repKids_nil.mp kids
      rfl
  | cons kid children inductionHypothesis =>
      obtain ⟨sptr, rest, here, there, rfl, _, _, tail⟩ :=
        repKids_cons.mp kids
      simp [inductionHypothesis tail]

theorem repKids_append
    {first second : List (Kid C)} :
    RepKids rep ptrs (first ++ second) cells ↔
      ∃ before after here there, ptrs = before ++ after ∧
        cells = here + there ∧ RepKids rep before first here ∧
          RepKids rep after second there := by
  induction first generalizing ptrs cells with
  | nil =>
      constructor
      · intro kids
        exact ⟨[], ptrs, 0, cells, rfl, (zero_add _).symm,
          repKids_nil.mpr ⟨rfl, rfl⟩, kids⟩
      · rintro ⟨before, after, here, there, rfl, rfl, none, kids⟩
        obtain ⟨rfl, rfl⟩ := repKids_nil.mp none
        simpa using kids
  | cons kid first inductionHypothesis =>
      simp only [List.cons_append, repKids_cons, inductionHypothesis]
      constructor
      · rintro ⟨sptr, _, here, _, rfl, rfl, kidRep,
          before, after, left, right, rfl, rfl, firstRep, secondRep⟩
        exact ⟨sptr :: before, after, here + left, right, rfl,
          (add_assoc _ _ _).symm,
          ⟨sptr, before, here, left, rfl, rfl, kidRep, firstRep⟩,
          secondRep⟩
      · rintro ⟨_, after, _, right, rfl, rfl,
          ⟨sptr, before, here, left, rfl, rfl, kidRep, firstRep⟩,
          secondRep⟩
        exact ⟨sptr, before ++ after, here, left + right, rfl,
          add_assoc _ _ _, kidRep, before, after, left, right, rfl, rfl,
          firstRep, secondRep⟩

/-- Every slot of a node points to one of its children. -/
theorem RepKids.of_slot
    (kids : RepKids rep ptrs children cells)
    (slot : sptr ∈ ptrs) :
    ∃ kid ∈ children, ∃ here rest, cells = here + rest ∧
      rep sptr kid here := by
  induction children generalizing ptrs cells with
  | nil =>
      obtain ⟨rfl, _⟩ := repKids_nil.mp kids
      cases slot
  | cons first children inductionHypothesis =>
      obtain ⟨other, ptrs, here, there, rfl, rfl, kidRep, tail⟩ :=
        repKids_cons.mp kids
      rcases List.mem_cons.mp slot with rfl | later
      · exact ⟨first, List.mem_cons_self, here, there, rfl, kidRep⟩
      · obtain ⟨kid, inKids, part, rest, split, kidRep'⟩ :=
          inductionHypothesis tail later
        refine ⟨kid, List.mem_cons_of_mem _ inKids, part, here + rest, ?_,
          kidRep'⟩
        rw [split]
        abel

/-- Every cell below a node belongs to one of its children. -/
theorem RepKids.of_cell
    (kids : RepKids rep ptrs children cells)
    (member : one ∈ cells) :
    ∃ sptr ∈ ptrs, ∃ kid ∈ children, ∃ here rest, cells = here + rest ∧
      rep sptr kid here ∧ one ∈ here := by
  induction children generalizing ptrs cells with
  | nil =>
      obtain ⟨_, rfl⟩ := repKids_nil.mp kids
      exact absurd member (Multiset.notMem_zero _)
  | cons first children inductionHypothesis =>
      obtain ⟨sptr, ptrs, here, there, rfl, rfl, kidRep, tail⟩ :=
        repKids_cons.mp kids
      rcases Multiset.mem_add.mp member with inFirst | inRest
      · exact ⟨sptr, List.mem_cons_self, first, List.mem_cons_self, here,
          there, rfl, kidRep, inFirst⟩
      · obtain ⟨sptr', slot, kid, inKids, part, rest, split, kidRep',
          inside⟩ := inductionHypothesis tail inRest
        refine ⟨sptr', List.mem_cons_of_mem _ slot, kid,
          List.mem_cons_of_mem _ inKids, part, here + rest, ?_, kidRep',
          inside⟩
        rw [split]
        abel

end Kids

/-! ## Nodes with a gap -/

theorem kids_zipUp
    (left : List (FtEnt × Kid C))
    (kid : Kid C)
    (right : List (FtEnt × Kid C)) :
    (zipUp left kid right).1 :: (zipUp left kid right).2.map Prod.snd =
      (left.map Prod.snd).reverse ++ kid :: right.map Prod.snd := by
  induction left generalizing kid right with
  | nil => rfl
  | cons head left inductionHypothesis =>
      obtain ⟨entry, before⟩ := head
      rw [zipUp, inductionHypothesis]
      simp

theorem entries_zipUp
    (left : List (FtEnt × Kid C))
    (kid : Kid C)
    (right : List (FtEnt × Kid C)) :
    (zipUp left kid right).2.map Prod.fst =
      (left.map Prod.fst).reverse ++ right.map Prod.fst := by
  induction left generalizing kid right with
  | nil => rfl
  | cons head left inductionHypothesis =>
      obtain ⟨entry, before⟩ := head
      rw [zipUp, inductionHypothesis]
      simp

/-- The pointer in a gap, whose child is being worked on. -/
def HoleRep (rep : Source → C → Part → Prop) (sptr : SubtreePtr) :
    Kid C → Option Addr → Prop
  | .loaded saved _, hole =>
      sptr.inmemory = true ∧
        (∀ position, saved = some position →
          (sptr.recno, sptr.offset) = position) ∧
        sptr.st = hole
  | .unloaded saved seen stored, _ =>
      sptr.inmemory = false ∧ sptr.st.isSome = seen ∧
        (sptr.recno, sptr.offset) = saved ∧ rep (.log saved) stored 0

/-- The contents of a cell represent a node with a gap. -/
structure FrameRep
    (rep : Source → C → Part → Prop)
    (height : Nat)
    (node : FtNode)
    (frame : Frame C)
    (hole : Option Addr)
    (below : Part) : Prop where
  entries : node.entries =
    (frame.left.map Prod.fst).reverse ++ frame.right.map Prod.fst
  height : node.height = height
  dirty : node.dirty = frame.dirty
  subtrees : ∃ before sptr after left right,
    node.subtrees = before ++ sptr :: after ∧ below = left + right ∧
      RepKids (KidRep rep) before (frame.left.map Prod.snd).reverse left ∧
      RepKids (KidRep rep) after (frame.right.map Prod.snd) right ∧
      HoleRep rep sptr frame.hole hole

section Frame

variable {rep : Source → C → Part → Prop} {node : FtNode} {frame : Frame C}
  {level : Nat} {hole : Option Addr} {below cells : Part}

/-- Put a child that is in memory back into its gap. -/
theorem FrameRep.fill
    (frameRep : FrameRep rep level node frame hole below)
    (loaded : frame.hole.isLoaded = true)
    (child : C)
    (childRep : rep (.memory hole) child cells) :
    NodeRep (KidRep rep) level node (frame.fill child)
      (below + cells) := by
  obtain ⟨before, sptr, after, left, right, shape, rfl, leftRep, rightRep,
    holeRep⟩ := frameRep.subtrees
  refine ⟨frameRep.entries.trans (entries_zipUp _ _ _).symm,
    frameRep.height, frameRep.dirty, ?_⟩
  rw [shape]
  simp only [Node.kids, Frame.fill]
  rw [kids_zipUp]
  refine repKids_append.mpr ⟨before, sptr :: after, left, cells + right,
    rfl, by abel, leftRep, repKids_cons.mpr
      ⟨sptr, after, cells, right, rfl, rfl, ?_, rightRep⟩⟩
  cases holeShape : frame.hole with
  | loaded saved old =>
      rw [holeShape] at holeRep
      exact ⟨holeRep.1, holeRep.2.1, holeRep.2.2 ▸ childRep⟩
  | unloaded saved seen stored =>
      rw [holeShape] at loaded
      cases loaded

/-- What was done to a child that is only in the log is lost. -/
theorem FrameRep.fill_unloaded
    (frameRep : FrameRep rep level node frame hole below)
    (unloaded : frame.hole.isLoaded = false)
    (child : C) :
    NodeRep (KidRep rep) level node (frame.fill child) below := by
  obtain ⟨before, sptr, after, left, right, shape, rfl, leftRep, rightRep,
    holeRep⟩ := frameRep.subtrees
  refine ⟨frameRep.entries.trans (entries_zipUp _ _ _).symm,
    frameRep.height, frameRep.dirty, ?_⟩
  rw [shape]
  simp only [Node.kids, Frame.fill]
  rw [kids_zipUp]
  refine repKids_append.mpr ⟨before, sptr :: after, left, 0 + right,
    rfl, by abel, leftRep, repKids_cons.mpr
      ⟨sptr, after, 0, right, rfl, rfl, ?_, rightRep⟩⟩
  cases holeShape : frame.hole with
  | loaded saved old =>
      rw [holeShape] at unloaded
      cases unloaded
  | unloaded saved seen stored =>
      rw [holeShape] at holeRep
      exact ⟨holeRep.1, holeRep.2.1, holeRep.2.2.1, holeRep.2.2.2, rfl⟩

/-- Single out the child in a gap of a node. -/
theorem NodeRep.focus
    {tree : Node C}
    {left right : List (FtEnt × Kid C)}
    {kid : Kid C}
    (nodeRep : NodeRep (KidRep rep) level node tree below)
    (shape : zipUp left kid right = (tree.first, tree.rest)) :
    node.entries = (left.map Prod.fst).reverse ++ right.map Prod.fst ∧
      ∃ before sptr after leftCells here rightCells,
        node.subtrees = before ++ sptr :: after ∧
          before.length = left.length ∧
          below = leftCells + rightCells + here ∧
          RepKids (KidRep rep) before (left.map Prod.snd).reverse
            leftCells ∧
          KidRep rep sptr kid here ∧
          RepKids (KidRep rep) after (right.map Prod.snd) rightCells := by
  have entries := nodeRep.entries
  have kids := nodeRep.kids
  unfold Node.entries at entries
  unfold Node.kids at kids
  have firstShape : tree.first = (zipUp left kid right).1 := by rw [shape]
  have restShape : tree.rest = (zipUp left kid right).2 := by rw [shape]
  rw [restShape] at entries
  rw [firstShape, restShape, kids_zipUp] at kids
  rw [entries_zipUp] at entries
  obtain ⟨before, rest, leftCells, others, subtrees, split, leftRep,
    restRep⟩ := repKids_append.mp kids
  obtain ⟨sptr, after, here, rightCells, rfl, rfl, kidRep, rightRep⟩ :=
    repKids_cons.mp restRep
  refine ⟨entries, before, sptr, after, leftCells, here, rightCells,
    subtrees, ?_, ?_, leftRep, kidRep, rightRep⟩
  · rw [leftRep.length_eq]
    simp
  · rw [split]
    abel

end Frame

/-! ## Paths -/

/-- The heap represents a path from a hole up to the root pointer. -/
def CtxRep (log : List LogRecord) :
    Ctx h top → List PathEnt → (hole root : Option Addr) → Part → Prop
  | .nil, path, hole, root, cells => path = [] ∧ root = hole ∧ cells = 0
  | .cons (h := h) frame outer, path, hole, root, cells =>
      ∃ this node above below outerCells,
        path = above ++ [⟨this, frame.left.length⟩] ∧
          cells = cell this node + below + outerCells ∧
          FrameRep (Rep log h) h node frame hole below ∧
          CtxRep log outer above (some this) root outerCells

section Paths

variable {log : List LogRecord} {h top : Nat} {ctx : Ctx h top}

/-- A path with a tree in its hole is a tree; when the path leads through a
child that is only in the log, some cells are leaked. -/
theorem CtxRep.plug
    {tree : Tree h}
    (ctxRep : CtxRep log ctx path hole root cells)
    (treeRep : Rep log h (.memory hole) tree below) :
    ∃ leaked owned, cells + below = leaked + owned ∧
      Rep log top (.memory root) (ctx.plug tree) owned := by
  induction ctx generalizing path hole cells below with
  | nil =>
      obtain ⟨_, rfl, rfl⟩ := ctxRep
      exact ⟨0, below, rfl, treeRep⟩
  | cons frame outer inductionHypothesis =>
      obtain ⟨this, node, above, beside, outerCells, _, rfl, frameRep,
        outerRep⟩ := ctxRep
      by_cases loaded : frame.hole.isLoaded = true
      · obtain ⟨leaked, owned, split, rep⟩ := inductionHypothesis
          outerRep
          ⟨this, node, beside + below, rfl, rfl,
            frameRep.fill loaded tree treeRep⟩
        refine ⟨leaked, owned, ?_, rep⟩
        rw [← split]
        abel
      · obtain ⟨leaked, owned, split, rep⟩ := inductionHypothesis
          outerRep
          ⟨this, node, beside, rfl, rfl,
            frameRep.fill_unloaded (by simpa using loaded) tree⟩
        refine ⟨leaked + below, owned, ?_, rep⟩
        rw [add_right_comm leaked, ← split]
        abel

theorem CtxRep.length_path
    (ctxRep : CtxRep log ctx path hole root cells) :
    path.length + h = top := by
  induction ctx generalizing path hole cells with
  | nil =>
      obtain ⟨rfl, _⟩ := ctxRep
      simp
  | cons frame outer inductionHypothesis =>
      obtain ⟨this, node, above, beside, outerCells, rfl, _, _,
        outerRep⟩ := ctxRep
      have lengths := inductionHypothesis outerRep
      simp only [List.length_append, List.length_singleton]
      omega

end Paths

/-! ## Longer logs -/

section Grow

variable {log later : List LogRecord}

theorem recordAt_grow
    (grown : log <+: later)
    (found : recordAt log recno = some datum) :
    recordAt later recno = some datum := by
  obtain ⟨rest, rfl⟩ := grown
  unfold recordAt at found ⊢
  split at found
  · cases found
  · next positive =>
      rw [if_neg positive]
      obtain ⟨bound, _⟩ := List.getElem?_eq_some_iff.mp found
      rw [List.getElem?_append_left bound]
      exact found

theorem fetchNode_grow
    (grown : log <+: later)
    (fetches : fetchNode log recno offset = .ok node) :
    fetchNode later recno offset = .ok node := by
  unfold fetchNode gdpfsLogEntOpen at fetches ⊢
  cases found : recordAt log recno with
  | none =>
      rw [found] at fetches
      cases fetches
  | some datum =>
      rw [found] at fetches
      rw [recordAt_grow grown found]
      exact fetches

theorem RepKids.imp
    {rep rep' : SubtreePtr → Kid C → Part → Prop}
    (weaken : ∀ sptr kid cells, rep sptr kid cells → rep' sptr kid cells)
    (kids : RepKids rep ptrs children cells) :
    RepKids rep' ptrs children cells := by
  induction children generalizing ptrs cells with
  | nil => exact repKids_nil.mpr (repKids_nil.mp kids)
  | cons kid children inductionHypothesis =>
      obtain ⟨sptr, ptrs, here, there, rfl, rfl, kidRep, tail⟩ :=
        repKids_cons.mp kids
      exact repKids_cons.mpr ⟨sptr, ptrs, here, there, rfl, rfl,
        weaken _ _ _ kidRep, inductionHypothesis tail⟩

theorem KidRep.imp
    {rep rep' : Source → C → Part → Prop}
    {kid : Kid C}
    (weaken : ∀ source tree cells, rep source tree cells →
      rep' source tree cells)
    (kidRep : KidRep rep sptr kid cells) :
    KidRep rep' sptr kid cells := by
  cases kid with
  | loaded saved child =>
      exact ⟨kidRep.1, kidRep.2.1, weaken _ _ _ kidRep.2.2⟩
  | unloaded saved seen stored =>
      obtain ⟨unloaded, isSeen, isSaved, childRep, none⟩ := kidRep
      exact ⟨unloaded, isSeen, isSaved, weaken _ _ _ childRep, none⟩

/-- A representation stays one in a log that holds all nodes that it holds. -/
theorem Rep.kept
    {h : Nat}
    {source : Source}
    {tree : Tree h}
    (kept : ∀ recno offset node, fetchNode log recno offset = .ok node →
      fetchNode later recno offset = .ok node)
    (rep : Rep log h source tree cells) :
    Rep later h source tree cells := by
  induction h generalizing source cells with
  | zero => cases source <;> exact rep
  | succ h inductionHypothesis =>
      have kids : ∀ {node : FtNode} {tree : Node (Tree h)} {below : Part},
          NodeRep (KidRep (Rep log h)) h node tree below →
          NodeRep (KidRep (Rep later h)) h node tree below := by
        intro node tree below nodeRep
        exact ⟨nodeRep.entries, nodeRep.height, nodeRep.dirty,
          nodeRep.kids.imp fun _ _ _ kidRep =>
            kidRep.imp fun _ _ _ => inductionHypothesis⟩
      cases source with
      | memory ptr =>
          obtain ⟨this, node, below, isThis, isCells, nodeRep⟩ := rep
          exact ⟨this, node, below, isThis, isCells, kids nodeRep⟩
      | log position =>
          obtain ⟨node, fetches, none, nodeRep⟩ := rep
          exact ⟨node, kept _ _ _ fetches, none, kids nodeRep⟩

/-- A representation stays one when the log grows. -/
theorem Rep.grow
    {h : Nat}
    {source : Source}
    {tree : Tree h}
    (grown : log <+: later)
    (rep : Rep log h source tree cells) :
    Rep later h source tree cells :=
  rep.kept fun _ _ _ => fetchNode_grow grown

end Grow
end FigTree
end Gdpfs
