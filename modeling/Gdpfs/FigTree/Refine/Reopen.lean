import Gdpfs.FigTree.Refine.Flush
import Gdpfs.FigTree.Refine.Read

/-!
# Checkpoints that are read back

A checkpoint becomes a record of the log, and `open_file` takes its last node as
the root of a tree.  Both trees can be read node by node; they are the same if
the pointers to clean nodes named stored copies of them.
-/

namespace Gdpfs
namespace FigTree

open Log Effect
open Cells (Owns Holds cell Store)

/-! ## Records -/

/-- The later log holds the records of the log and another one, where the log
had no checkpoint. -/
structure Files
    (log later : List LogRecord)
    (recno : Nat)
    (datum : LogRecord) : Prop where
  fresh : ∀ old, recordAt log recno = some old →
    old.header.logentType = .data
  kept : ∀ other old, other ≠ recno → recordAt log other = some old →
    recordAt later other = some old
  filed : recordAt later recno = some datum

section Records

variable {log later : List LogRecord} {recno : Nat} {header : Fmeta}
  {nodes : List FtNode}

/-- A node that can be fetched is in a checkpoint. -/
theorem fetchNode_ok
    (fetches : fetchNode log recno offset = .ok node) :
    ∃ datum, recordAt log recno = some datum ∧
      datum.header.logentType = .chkpt := by
  unfold fetchNode gdpfsLogEntOpen at fetches
  cases found : recordAt log recno with
  | none =>
      rw [found] at fetches
      cases fetches
  | some datum =>
      refine ⟨datum, rfl, ?_⟩
      rw [found] at fetches
      simp only [Option.map_some, readFmeta] at fetches
      by_cases whole : gdpfsLogEntLength ⟨datum, 0⟩ =
          sizeofFmeta + datum.header.entSize
      · rw [if_pos whole] at fetches
        by_contra data
        simp only [bind, Except.bind, data, if_false] at fetches
        cases fetches
      · rw [if_neg whole] at fetches
        cases fetches

theorem fetchNode_congr
    (same : recordAt later recno = recordAt log recno)
    (offset : Nat) :
    fetchNode later recno offset = fetchNode log recno offset := by
  unfold fetchNode gdpfsLogEntOpen
  rw [same]

theorem readFmeta_chkptRecord (header : Fmeta) (nodes : List FtNode) :
    readFmeta ⟨chkptRecord header nodes, 0⟩ =
      .ok ((chkptRecord header nodes).header,
        ⟨chkptRecord header nodes, sizeofFmeta⟩) := by
  have whole : gdpfsLogEntLength ⟨chkptRecord header nodes, 0⟩ =
      sizeofFmeta + (chkptRecord header nodes).header.entSize := rfl
  rw [readFmeta, if_pos whole]
  rfl

theorem readFtNode_chkptRecord
    (isNode : nodes[i]? = some node)
    (place : position = sizeofFmeta + i * sizeofFtNode) :
    readFtNode ⟨chkptRecord header nodes, position⟩ = some node := by
  have start : sizeofFmeta + i * sizeofFtNode - sizeofFmeta =
      i * sizeofFtNode := Nat.add_sub_cancel_left _ _
  simp only [readFtNode, chkptRecord, place, start, Nat.mul_mod_left,
    Nat.le_add_right, and_self, if_true]
  rw [Nat.mul_div_cancel i (by decide), isNode]

/-- The nodes of a checkpoint are fetched from their positions. -/
theorem fetchNode_chkptRecord
    (filed : recordAt log recno = some (chkptRecord header nodes))
    (isNode : nodes[i]? = some node) :
    fetchNode log recno (i * sizeofFtNode) = .ok node := by
  have reads : readFtNode (gdpfsLogEntDrain
      ⟨chkptRecord header nodes, sizeofFmeta⟩ (i * sizeofFtNode)) =
      some node := readFtNode_chkptRecord isNode rfl
  unfold fetchNode gdpfsLogEntOpen
  rw [filed]
  simp only [Option.map_some, readFmeta_chkptRecord, bind, Except.bind,
    reads]
  rfl

theorem Files.archive
    (files : Files log later recno (chkptRecord header nodes)) :
    Archive log later recno nodes where
  kept := by
    intro recno' offset node fetches
    obtain ⟨datum, found, isChkpt⟩ := fetchNode_ok fetches
    by_cases same : recno' = recno
    · rw [same] at found
      rw [files.fresh datum found] at isChkpt
      cases isChkpt
    · rw [fetchNode_congr ((files.kept recno' datum same found).trans
        found.symm)]
      exact fetches
  filed := fun _ _ isNode => fetchNode_chkptRecord files.filed isNode

/-- `open_file` takes the last node of a checkpoint as the root. -/
theorem run_openRoot
    (filed : recordAt log recno = some (chkptRecord header nodes))
    (isNode : nodes[nodes.length - 1]? = some node)
    (heap : Heap) :
    (openRoot log recno).run heap =
      .ok (⟨heap.fresh⟩, heap.alloc node) := by
  have positive : 0 < nodes.length := by
    refine Nat.pos_of_ne_zero fun none => ?_
    rw [List.length_eq_zero_iff.mp none] at isNode
    cases isNode
  have reads : readFtNode (gdpfsLogEntDrain ⟨chkptRecord header nodes, 0⟩
      (gdpfsLogEntLength ⟨chkptRecord header nodes, 0⟩ - sizeofFtNode)) =
      some node := by
    refine readFtNode_chkptRecord isNode ?_
    have size : gdpfsLogEntLength ⟨chkptRecord header nodes, 0⟩ =
        sizeofFmeta + nodes.length * sizeofFtNode := rfl
    rw [size, Nat.sub_mul, Nat.one_mul, Nat.zero_add]
    exact Nat.add_sub_assoc (Nat.le_mul_of_pos_left _ positive) _
  have isChkpt : (chkptRecord header nodes).header.logentType = .chkpt ∧
      (chkptRecord header nodes).header.entSize % sizeofFtNode = 0 ∧
      0 < (chkptRecord header nodes).header.entSize :=
    ⟨rfl, Nat.mul_mod_left _ _, Nat.mul_pos positive (by decide)⟩
  rw [openRoot, gdpfsLogEntOpen, filed]
  simp only [Option.map_some, readFmeta_chkptRecord]
  change StateT.run (if _ ∧ _ ∧ _ then _ else _) heap = _
  rw [if_pos isChkpt, reads]
  rfl

end Records

/-! ## Trees node by node -/

/-- What is seen of a node: `HEIGHT`, its entries and the number of its
subtrees. -/
structure NodeView where
  height : Nat
  entries : List FtEnt
  subtrees : Nat
  deriving DecidableEq, Repr

/-- Read the subtrees of a node from the `i`-th on. -/
def readSlots
    (log : List LogRecord)
    (visit : Option Addr → FigM (List (Option NodeView)))
    (this : Addr) :
    (count i : Nat) → FigM (List (Option NodeView))
  | 0, _ => pure []
  | count + 1, i => do
      let child ← subtreeGet log this i
      let first ← visit child
      let others ← readSlots log visit this count (i + 1)
      pure (first ++ others)

/-- Read all nodes of a tree, parents before children; a null pointer has no
node. -/
def readNodes (log : List LogRecord) :
    (depth : Nat) → Option Addr → FigM (List (Option NodeView))
  | _, none => pure [none]
  | 0, some _ => throw .tooDeep
  | depth + 1, some this => do
      let node ← loadNode this
      let below ← readSlots log (readNodes log depth) this
        node.subtrees.length 0
      pure (some ⟨node.height, node.entries, node.subtrees.length⟩ :: below)

/-- Read all nodes of a tree. -/
def readTree (log : List LogRecord) (this : Figtree) :
    FigM (List (Option NodeView)) := do
  let node ← loadNode this.root
  readNodes log (node.height + 1) (some this.root)

/-- The nodes of a tree value. -/
def views : (h : Nat) → Tree h → List (Option NodeView)
  | 0, _ => [none]
  | h + 1, tree =>
      some ⟨h, Node.entries (C := Tree h) tree,
        (Node.kids (C := Tree h) tree).length⟩ ::
        (Node.kids (C := Tree h) tree).flatMap fun kid => views h kid.get

section Views

variable {log : List LogRecord} {heap : Heap} {h : Nat}

/-- A tree that is represented can be read, if need be from the log. -/
theorem seen_of_rep
    {source : Source}
    {tree : Tree h}
    (rep : Rep log h source tree cells)
    (owns : Owns heap (cells + frame)) :
    Seen True log heap h source tree := by
  induction h generalizing source cells frame with
  | zero =>
      cases source with
      | memory ptr => exact congrArg Source.memory rep.1
      | log position => exact rep.elim
  | succ h inductionHypothesis =>
      have kids : ∀ {node : FtNode} {below rest : Part},
          NodeRep (KidRep (Rep log h)) h node (tree : Node (Tree h)) below →
          Owns heap (below + rest) →
          List.Forall₂ (SeenKid True log heap h)
            (node.subtrees.map SubtreePtr.source)
            (Node.kids (C := Tree h) tree) := by
        intro node below rest nodeRep owns
        rw [List.forall₂_map_left_iff]
        refine nodeRep.kids.forall₂ ?_
        rintro sptr kid here others _ rfl kidRep
        have owned := owns.of_eq (add_assoc here others rest)
        cases kid with
        | loaded saved child =>
            obtain ⟨loaded, _, childRep⟩ := kidRep
            rw [SubtreePtr.source, if_pos loaded]
            exact inductionHypothesis childRep owned
        | unloaded saved seen stored =>
            obtain ⟨unloaded, _, isSaved, childRep, rfl⟩ := kidRep
            rw [SubtreePtr.source, unloaded, if_neg Bool.false_ne_true,
              isSaved]
            exact inductionHypothesis childRep owned
      cases source with
      | memory ptr =>
          obtain ⟨this, node, below, rfl, rfl, nodeRep⟩ := rep
          have owned := owns.of_eq (add_assoc _ _ _)
          exact ⟨node, ⟨this, rfl, owned.read⟩, nodeRep.height,
            nodeRep.entries, kids nodeRep owned.drop⟩
      | log position =>
          obtain ⟨node, fetches, rfl, nodeRep⟩ := rep
          exact ⟨node, ⟨trivial, fetches⟩, nodeRep.height, nodeRep.entries,
            kids nodeRep owns⟩

theorem ensures_readSlots
    {visit : Option Addr → FigM (List (Option NodeView))}
    (each : ∀ {ptr : Option Addr} {tree : Tree h} {heap : Heap},
      Seen True log heap h (.memory ptr) tree →
      Ensures (visit ptr)
        (fun found next => Kept True heap next ∧ found = views h tree) heap)
    {kids : List (Kid (Tree h))}
    {i : Nat}
    (live : heap.read this = some node)
    (seen : List.Forall₂ (SeenKid True log heap h)
      ((node.subtrees.map SubtreePtr.source).drop i) kids) :
    Ensures (readSlots log visit this kids.length i)
      (fun found next => Kept True heap next ∧
        found = kids.flatMap fun kid => views h kid.get) heap := by
  induction kids generalizing heap node i with
  | nil => exact ensures_pure.mpr ⟨Kept.refl _ _, rfl⟩
  | cons kid kids inductionHypothesis =>
      obtain ⟨source, sources, isSource, seenKid, rest⟩ :
          ∃ source sources,
            (node.subtrees.map SubtreePtr.source).drop i =
              source :: sources ∧
            SeenKid True log heap h source kid ∧
            List.Forall₂ (SeenKid True log heap h) sources kids := by
        cases shape : (node.subtrees.map SubtreePtr.source).drop i with
        | nil =>
            rw [shape] at seen
            cases seen
        | cons source sources =>
            rw [shape] at seen
            cases seen with
            | cons first others => exact ⟨source, sources, rfl, first, others⟩
      have slot : (node.subtrees.map SubtreePtr.source)[i]? =
          some source := by
        have first := congrArg List.head? isSource
        rwa [List.head?_drop] at first
      have after : (node.subtrees.map SubtreePtr.source).drop (i + 1) =
          sources := by
        rw [← List.tail_drop, isSource]
        rfl
      rw [List.length_cons, readSlots]
      refine (ensures_subtreeGet_seen live slot seenKid).bind ?_
      rintro ptr next ⟨kept, seenChild⟩
      refine (each seenChild).bind ?_
      rintro _ next' ⟨kept', rfl⟩
      have both := kept.trans kept'
      obtain ⟨subtrees, live', sources'⟩ := both.nodes this node live
      refine (inductionHypothesis (i := i + 1) live' ?_).bind ?_
      · dsimp only
        rw [sources', after]
        exact rest.imp fun _ _ => Seen.keep both
      · rintro _ last ⟨kept'', rfl⟩
        exact ensures_pure.mpr ⟨both.trans kept'', rfl⟩

/-- The nodes of a tree that can be read. -/
theorem ensures_readNodes
    {depth : Nat}
    {tree : Tree h}
    (deep : h ≤ depth)
    (seen : Seen True log heap h (.memory ptr) tree) :
    Ensures (readNodes log depth ptr)
      (fun found next => Kept True heap next ∧ found = views h tree)
      heap := by
  induction h generalizing depth ptr heap with
  | zero =>
      cases seen
      cases depth <;> exact ensures_pure.mpr ⟨Kept.refl _ _, rfl⟩
  | succ h inductionHypothesis =>
      obtain ⟨depth, rfl⟩ := Nat.exists_eq_add_of_le' deep
      obtain ⟨node, ⟨this, rfl, live⟩, height, entries, kids⟩ := seen
      have count : node.subtrees.length =
          (Node.kids (C := Tree h) tree).length := by
        have lengths := kids.length_eq
        rwa [List.length_map] at lengths
      rw [← Nat.add_assoc, readNodes,
        ensures_run_bind (run_loadNode (Owns.of_read live)), count]
      refine (ensures_readSlots (i := 0) (fun seen => inductionHypothesis
        (Nat.le_add_left _ _) seen) live kids).bind ?_
      rintro _ next ⟨kept, rfl⟩
      refine ensures_pure.mpr ⟨kept, ?_⟩
      rw [views, height, entries]

theorem ensures_readTree
    {fig : Fig}
    (rep : FigRep log fig this cells)
    (owns : Owns heap (cells + frame)) :
    Ensures (readTree log this)
      (fun found _ => found = views (fig.height + 1) fig.tree) heap := by
  have seen := seen_of_rep rep owns
  obtain ⟨_, node, below, same, rfl, nodeRep⟩ := rep
  cases same
  rw [readTree, ensures_run_bind (run_loadNode (owns.of_eq
    (add_assoc _ _ _))), nodeRep.height]
  exact (ensures_readNodes le_rfl seen).mono fun _ _ found => found.2

/-- `open_file` has the root of a stored tree in memory. -/
theorem ensures_openRoot
    {nodes : List FtNode}
    {tree : Tree (h + 1)}
    (filed : recordAt log recno = some (chkptRecord header nodes))
    (rep : Rep log (h + 1)
      (.log (recno, (nodes.length - 1) * sizeofFtNode)) tree 0)
    (nonempty : 0 < nodes.length)
    (owns : Owns heap frame) :
    Ensures (openRoot log recno)
      (fun this next => Holds (FigRep log ⟨h, tree⟩ this) frame next)
      heap := by
  obtain ⟨node, fetches, _, nodeRep⟩ := rep
  obtain ⟨image, isImage⟩ : ∃ image,
      nodes[nodes.length - 1]? = some image :=
    ⟨_, List.getElem?_eq_getElem (by omega)⟩
  have same : node = image := Except.ok.inj
    (fetches.symm.trans (fetchNode_chkptRecord filed isImage))
  subst same
  rw [ensures_of_run (run_openRoot filed isImage heap)]
  refine ⟨cell heap.fresh node + 0, ⟨_, node, 0, rfl, rfl, nodeRep⟩, ?_⟩
  exact (owns.alloc node).of_eq (by rw [add_zero])

end Views

end FigTree
end Gdpfs
