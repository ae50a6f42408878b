import Gdpfs.FigTree.Refine.Reopen

/-!
# Checkpoints round-trip

A tree whose dirty nodes have dirty parents and whose pointers to clean nodes
name stored copies is stored whole by a checkpoint.
-/

namespace Gdpfs
namespace FigTree

open Log Effect
open Cells (Owns Holds cell Store)

/-! ## `get_dirty` -/

section GetDirty

variable {log : List LogRecord} {heap : Heap} {frame : Part} {fig : Fig}
  {this : Figtree} {recno count : Nat}

/-- The pointer that `get_dirty` makes up for the root. -/
theorem kidRep_root
    (rep : FigRep log fig this cells) :
    KidRep (Rep log (fig.height + 1)) ⟨0, 0, some this.root, true⟩
      (.loaded none fig.tree) cells := by
  refine ⟨rfl, fun position impossible => ?_, rep⟩
  cases impossible

/-- `get_dirty` copies the dirty nodes. -/
theorem ensures_getDirty
    {tree' : Tree (fig.height + 1)}
    (rep : FigRep log fig this cells)
    (owns : Owns heap (cells + frame))
    (flushed : flush recno (fig.height + 1) (.loaded none fig.tree) 0 =
      some (.loaded saved tree', count)) :
    Ensures (getDirty this recno)
      (fun nodes next => nodes.length = count ∧
        Holds (FigRep log ⟨fig.height, tree'⟩ this) frame next ∧
        (∀ image ∈ nodes, CopiedFrom cells image) ∧
        ∀ later, Archive log later recno nodes →
          Backs log (fig.height + 1) (.loaded none fig.tree) →
          Refiled log later (fig.height + 1) (.loaded none fig.tree)
            (.loaded saved tree')) heap := by
  have kidRep := kidRep_root rep
  obtain ⟨_, node, below, same, rfl, nodeRep⟩ := rep
  cases same
  obtain ⟨sptr, nodes, next, cells', run, ⟨isSt, _, copied⟩, length, kidRep',
    owns', files⟩ := kidFlushed le_rfl kidRep owns
      (show flush recno (fig.height + 1) _ [].length = _ from flushed)
  rw [getDirty, ensures_run_bind (run_loadNode (owns.of_eq (add_assoc _ _ _))),
    nodeRep.height, ensures_run_bind run, ensures_pure]
  refine ⟨?_, ⟨cells', ?_, owns'⟩, copied, fun later archive backs => ?_⟩
  · rw [← length]
    simp
  · obtain ⟨_, _, rep'⟩ := kidRep'
    rw [isSt] at rep'
    exact rep'
  · exact (files later nodes (List.prefix_rfl) archive backs).1

/-- Where the pointers do not allow copies, `get_dirty` fails its
assertion. -/
theorem getDirty_stuck
    (rep : FigRep log fig this cells)
    (owns : Owns heap (cells + frame))
    (stuck : flush recno (fig.height + 1) (.loaded none fig.tree) 0 = none) :
    (getDirty this recno).run heap = .error .checkpointPointer := by
  have kidRep := kidRep_root rep
  obtain ⟨_, node, below, same, rfl, nodeRep⟩ := rep
  cases same
  rw [getDirty, StateT.run_bind,
    run_loadNode (owns.of_eq (add_assoc _ _ _))]
  change StateT.run (getDirtyHelper recno (node.height + 1)
    ⟨0, 0, some this.root, true⟩ [] >>= fun found => pure found.2) heap = _
  rw [nodeRep.height, StateT.run_bind, kidStuck le_rfl kidRep owns stuck]
  rfl

/-- A tree in memory stays one when its root is flushed. -/
theorem flush_root
    {tree : Tree (h + 1)}
    (flushed : flush recno (h + 1) (.loaded saved tree) 0 =
      some (kid', count)) :
    ∃ saved' tree', kid' = .loaded saved' tree' := by
  rcases flush_loaded.mp flushed with
    ⟨_, rfl, _⟩ | ⟨_, kids, last, _, _, rfl, _⟩
  · exact ⟨_, _, rfl⟩
  · exact ⟨_, _, rfl⟩

end GetDirty

/-! ## Stored copies -/

/-- Whether the node of a child is dirty. -/
def Kid.isDirty : {h : Nat} → Kid (Tree h) → Bool
  | 0, _ => false
  | h + 1, kid => Node.dirty (C := Tree h) kid.get

/-- A child in memory with everything below it: the children of clean nodes
are clean, and the pointer to a clean node names a stored copy of its
subtree. -/
def Archived (log : List LogRecord) : (h : Nat) → Kid (Tree h) → Prop
  | 0, kid => kid.isLoaded = true
  | _ + 1, .unloaded _ _ _ => False
  | h + 1, .loaded saved child =>
      (∀ kid ∈ Node.kids (C := Tree h) child, Archived log h kid) ∧
        (Node.dirty (C := Tree h) child = false →
          (∀ kid ∈ Node.kids (C := Tree h) child, kid.isDirty = false) ∧
          ∃ position copy, saved = some position ∧
            Rep log (h + 1) (.log position) copy 0 ∧
            views (h + 1) copy = views (h + 1) child)

/-- The same for a whole tree, to whose root there is no pointer. -/
def Fig.Archived (log : List LogRecord) (fig : Fig) : Prop :=
  (∀ kid ∈ Node.kids (C := Tree fig.height) fig.tree,
      FigTree.Archived log fig.height kid) ∧
    (Node.dirty (C := Tree fig.height) fig.tree = false →
      ∀ kid ∈ Node.kids (C := Tree fig.height) fig.tree, kid.isDirty = false)

section Archived

variable {log later : List LogRecord} {h : Nat}

theorem archived_loaded
    {child : Node (Tree h)} :
    Archived log (h + 1) (.loaded saved child) ↔
      (∀ kid ∈ child.kids, Archived log h kid) ∧
        (child.dirty = false →
          (∀ kid ∈ child.kids, kid.isDirty = false) ∧
          ∃ position copy, saved = some position ∧
            Rep log (h + 1) (.log position) copy 0 ∧
            views (h + 1) copy = views (h + 1) child) :=
  Iff.rfl

/-- A node is seen with what is seen of its children. -/
theorem views_eq
    {tree other : Node (Tree h)}
    (entries : other.entries = tree.entries)
    (kids : List.Forall₂ (fun kid kid' : Kid (Tree h) =>
      views h kid'.get = views h kid.get) tree.kids other.kids) :
    views (h + 1) other = views (h + 1) tree := by
  have below : ∀ {first second : List (Kid (Tree h))},
      List.Forall₂ (fun kid kid' : Kid (Tree h) =>
        views h kid'.get = views h kid.get) first second →
      (second.flatMap fun kid => views h kid.get) =
        first.flatMap fun kid => views h kid.get := by
    intro first second same
    induction same with
    | nil => rfl
    | cons head _ tail =>
        rw [List.flatMap_cons, List.flatMap_cons, head, tail]
  change some _ :: _ = some _ :: _
  rw [entries, ← kids.length_eq, below kids]

/-- A source has one tree to be seen. -/
theorem seen_views
    {partly : Prop}
    {heap : Heap}
    {source : Source}
    {tree other : Tree h}
    (seen : Seen partly log heap h source tree)
    (seen' : Seen partly log heap h source other) :
    views h other = views h tree := by
  induction h generalizing source with
  | zero => rfl
  | succ h inductionHypothesis =>
      obtain ⟨node, finds, _, entries, kids⟩ := seen
      obtain ⟨node', finds', _, entries', kids'⟩ := seen'
      have same : node' = node := by
        cases source with
        | memory ptr =>
            obtain ⟨this, rfl, live⟩ := finds
            obtain ⟨_, isThis, live'⟩ := finds'
            cases isThis
            exact Option.some.inj (live'.symm.trans live)
        | log position =>
            exact Except.ok.inj (finds'.2.symm.trans finds.2)
      subst same
      refine views_eq (entries'.symm.trans entries) ?_
      refine List.forall₂_iff_get.mpr ⟨?_, fun i bound bound' => ?_⟩
      · exact kids.length_eq.symm.trans kids'.length_eq
      · have first := (List.forall₂_iff_get.mp kids).2 i
          (by rw [kids.length_eq]; exact bound) bound
        have second := (List.forall₂_iff_get.mp kids').2 i
          (by rw [kids'.length_eq]; exact bound') bound'
        exact inductionHypothesis first second

theorem stored_views
    {copy other : Tree h}
    (rep : Rep log h (.log position) copy 0)
    (rep' : Rep log h (.log position) other 0) :
    views h other = views h copy := by
  have nothing : Owns (Store.empty : Heap) (0 + 0) :=
    (Owns.nothing _).of_eq (add_zero _).symm
  exact seen_views (seen_of_rep rep nothing) (seen_of_rep rep' nothing)

/-- Everything in memory can be flushed. -/
theorem Archived.flushable
    {kid : Kid (Tree h)}
    (archived : Archived log h kid) :
    FigTree.flushable h kid = true := by
  induction h with
  | zero => rfl
  | succ h inductionHypothesis =>
      cases kid with
      | unloaded saved seen stored => rfl
      | loaded saved child =>
          rw [FigTree.flushable, Bool.or_eq_true, List.all_eq_true]
          refine Or.inr fun kid member => ?_
          have below := archived.1 kid member
          rw [inductionHypothesis below, Bool.and_true]
          cases kid with
          | loaded saved' child' => rfl
          | unloaded saved' seen' stored' =>
              cases h with
              | zero => cases below
              | succ h => exact below.elim

theorem Archived.backs
    {kid : Kid (Tree h)}
    (archived : Archived log h kid) :
    Backs log h kid := by
  induction h with
  | zero => trivial
  | succ h inductionHypothesis =>
      cases kid with
      | unloaded saved seen stored => exact archived
      | loaded saved child =>
          obtain ⟨below, stored⟩ := archived_loaded.mp archived
          refine backs_loaded.mpr ?_
          split
          · exact fun kid member => inductionHypothesis (below kid member)
          · next clean =>
              obtain ⟨_, position, copy, isSaved, rep, _⟩ :=
                stored (by simpa using clean)
              exact ⟨position, copy, isSaved, rep⟩

/-- What a checkpoint stores of a child is seen like the child. -/
theorem Archived.views_assembled
    {kid stored : Kid (Tree h)}
    (archived : Archived log h kid)
    (assembled : Assembled log h kid stored) :
    views h stored.get = views h kid.get := by
  induction h with
  | zero => rfl
  | succ h inductionHypothesis =>
      cases kid with
      | unloaded saved seen old => exact archived.elim
      | loaded saved child =>
          obtain ⟨below, clean⟩ := archived_loaded.mp archived
          obtain ⟨position, copy, rfl, made⟩ :=
            assembled_loaded.mp assembled
          split at made
          · obtain ⟨_, entries, kids⟩ := made
            refine views_eq entries ?_
            refine ((List.forall₂_and_left _ _).mpr ⟨below, kids⟩).imp ?_
            rintro kid stored ⟨archived', assembled'⟩
            exact inductionHypothesis archived' assembled'
          · next isClean =>
              obtain ⟨same, rep⟩ := made
              cases same
              obtain ⟨_, _, copy', isSaved, rep', seen⟩ :=
                clean (by simpa using isClean)
              cases isSaved
              exact (stored_views rep' rep).trans seen

/-- Below a clean node everything is clean. -/
theorem Archived.allClean
    {kid : Kid (Tree h)}
    (archived : Archived log h kid)
    (clean : kid.isDirty = false) :
    FigTree.allClean h kid.get = true := by
  induction h with
  | zero => rfl
  | succ h inductionHypothesis =>
      cases kid with
      | unloaded saved seen stored => exact archived.elim
      | loaded saved child =>
          have isClean : Node.dirty (C := Tree h) child = false := clean
          obtain ⟨below, stored⟩ := archived_loaded.mp archived
          rw [Kid.get, FigTree.allClean, isClean]
          refine (Bool.true_and _).trans (List.all_eq_true.mpr ?_)
          intro kid member
          have rest := inductionHypothesis (below kid member)
            ((stored isClean).1 kid member)
          cases kid with
          | loaded saved' child' => exact rest
          | unloaded saved' seen' stored' => rfl

theorem Archived.kept
    {kid : Kid (Tree h)}
    (kept : ∀ recno offset node, fetchNode log recno offset = .ok node →
      fetchNode later recno offset = .ok node)
    (archived : Archived log h kid) :
    Archived later h kid := by
  induction h with
  | zero => exact archived
  | succ h inductionHypothesis =>
      cases kid with
      | unloaded saved seen stored => exact archived
      | loaded saved child =>
          obtain ⟨below, stored⟩ := archived_loaded.mp archived
          refine archived_loaded.mpr ⟨fun kid member =>
            inductionHypothesis (below kid member), fun clean => ?_⟩
          obtain ⟨kids, position, copy, isSaved, rep, seen⟩ := stored clean
          exact ⟨kids, position, copy, isSaved, rep.kept kept, seen⟩

/-- After a checkpoint the child is clean, and every pointer names a stored
copy. -/
theorem Archived.refiled
    {kid kid' : Kid (Tree h)}
    (kept : ∀ recno offset node, fetchNode log recno offset = .ok node →
      fetchNode later recno offset = .ok node)
    (archived : Archived log h kid)
    (refiled : Refiled log later h kid kid') :
    Archived later h kid' ∧ kid'.isDirty = false ∧
      views h kid'.get = views h kid.get := by
  induction h with
  | zero =>
      cases refiled
      exact ⟨archived, rfl, rfl⟩
  | succ h inductionHypothesis =>
      cases kid with
      | unloaded saved seen stored => exact archived.elim
      | loaded saved child =>
          obtain ⟨below, stored⟩ := archived_loaded.mp archived
          have made := refiled_loaded.mp refiled
          split at made
          · obtain ⟨position, copy, child', rfl, assembled, rep, clean,
              entries, kids⟩ := made
            have each := ((List.forall₂_and_left _ _).mpr ⟨below, kids⟩).imp
              fun kid kid' both => inductionHypothesis both.1 both.2
            have seen : views (h + 1) child' = views (h + 1) child :=
              views_eq entries (each.imp fun _ _ found => found.2.2)
            have here : ∀ kid' ∈ child'.kids,
                Archived later h kid' ∧ kid'.isDirty = false := by
              intro kid' member
              obtain ⟨i, bound, rfl⟩ := List.mem_iff_getElem.mp member
              have found := (List.forall₂_iff_get.mp each).2 i
                (by rw [each.length_eq]; exact bound) bound
              exact ⟨found.1, found.2.1⟩
            refine ⟨archived_loaded.mpr ⟨fun kid' member =>
              (here kid' member).1, fun _ => ⟨fun kid' member =>
                (here kid' member).2, position, copy, rfl, rep, ?_⟩⟩,
              clean, seen⟩
            exact (archived.views_assembled assembled).trans seen.symm
          · next clean =>
              subst made
              have isClean : child.dirty = false := by simpa using clean
              exact ⟨archived.kept kept, isClean, rfl⟩

end Archived

/-! ## The round trip -/

section RoundTrip

variable {log : List LogRecord} {heap : Heap} {fig : Fig} {this : Figtree}

/-- A dirty root does not need a stored copy. -/
theorem Fig.Archived.root
    (archived : fig.Archived log)
    (isDirty : Node.dirty (C := Tree fig.height) fig.tree = true) :
    FigTree.Archived log (fig.height + 1) (.loaded none fig.tree) := by
  refine ⟨archived.1, fun clean => ?_⟩
  rw [isDirty] at clean
  cases clean

theorem Fig.Archived.flush
    (archived : fig.Archived log)
    (recno : Nat) :
    ∃ saved tree' count,
      FigTree.flush recno (fig.height + 1) (.loaded none fig.tree) 0 =
        some (.loaded saved tree', count) := by
  have able : flushable (fig.height + 1) (.loaded none fig.tree) = true := by
    cases isDirty : Node.dirty (C := Tree fig.height) fig.tree with
    | true => exact (archived.root isDirty).flushable
    | false =>
        rw [flushable, isDirty]
        rfl
  rw [← @flush_isSome recno _ _ 0] at able
  obtain ⟨⟨kid', count⟩, flushed⟩ := Option.isSome_iff_exists.mp able
  obtain ⟨saved, tree', rfl⟩ := flush_root flushed
  exact ⟨saved, tree', count, flushed⟩

/-- Checkpoints round-trip: if the dirty nodes of a tree in memory have dirty
parents and its pointers to clean nodes name stored copies of them, then a
checkpoint of it that is not empty, filed as a record, is read back as the same
tree, node by node.  All nodes in memory are then clean, and all pointers to
them name stored copies. -/
theorem checkpoint_round_trips
    (holds : Holds (FigRep log fig this) 0 heap)
    (archived : fig.Archived log)
    (recno : Nat) :
    ∃ tree, Ensures (readTree log this) (fun found _ => found = tree) heap ∧
      Ensures (getDirty this recno)
        (fun nodes next => 0 < nodes.length → ∀ later header,
          Files log later recno (chkptRecord header nodes) →
          (∀ other,
            Ensures (do
              let root ← openRoot later recno
              readTree later root) (fun found _ => found = tree) other) ∧
          ∃ fig', Holds (FigRep later fig' this) 0 next ∧
            allClean (fig'.height + 1) fig'.tree = true ∧
            fig'.Archived later ∧
            Ensures (readTree later this) (fun found _ => found = tree) next)
        heap := by
  obtain ⟨cells, rep, owns⟩ := holds
  refine ⟨_, ensures_readTree rep owns, ?_⟩
  obtain ⟨saved, tree', count, flushed⟩ := archived.flush recno
  refine (ensures_getDirty rep owns flushed).mono ?_
  rintro nodes next ⟨length, ⟨cells', rep', owns'⟩, _, refiles⟩ nonempty
    later header files
  rcases flush_loaded.mp flushed with
    ⟨_, _, isCount⟩ | ⟨isDirty, kids, last, _, _, isKid, isCount⟩
  · omega
  · have root := archived.root isDirty
    have archive := files.archive
    have refiled := refiles later archive root.backs
    obtain ⟨archived', clean, seen⟩ := root.refiled archive.kept refiled
    have made := refiled_loaded.mp refiled
    rw [if_pos isDirty] at made
    obtain ⟨position, copy, child', isKid', assembled, copyRep, _⟩ := made
    obtain ⟨rfl, _⟩ := Kid.loaded.inj isKid
    obtain ⟨isPosition, _⟩ := Kid.loaded.inj isKid'
    cases isPosition
    obtain rfl : last = nodes.length - 1 := by omega
    have kept : FigRep later ⟨fig.height, tree'⟩ this cells' :=
      rep'.kept archive.kept
    refine ⟨fun other => ?_, ⟨fig.height, tree'⟩, ⟨cells', kept, owns'⟩,
      archived'.allClean clean, ⟨archived'.1, fun _ => ?_⟩, ?_⟩
    · refine (ensures_openRoot files.filed copyRep nonempty
        (Owns.nothing other)).bind ?_
      rintro opened after ⟨held, heldRep, heldOwns⟩
      refine (ensures_readTree heldRep heldOwns).mono ?_
      rintro found _ rfl
      exact root.views_assembled assembled
    · exact (archived'.2 clean).1
    · refine (ensures_readTree kept owns').mono ?_
      rintro found _ rfl
      exact seen

end RoundTrip

/-- The value of a leaf with a single byte. -/
def leafTree (dirty : Bool) (x : Nat) (value : Int) : Tree 1 :=
  (⟨dirty, .loaded none (), [(⟨iInit x x, value⟩, .loaded none ())]⟩ :
    Node (Tree 0))

/-- A leaf with a single byte. -/
def leafNode (dirty : Bool) (x : Nat) (value : Int) : FtNode :=
  ⟨[⟨iInit x x, value⟩], [⟨0, 0, none, true⟩, ⟨0, 0, none, true⟩], 0, dirty⟩

theorem nodeRep_leafNode
    (log : List LogRecord)
    (dirty : Bool)
    (x : Nat)
    (value : Int) :
    NodeRep (KidRep (Rep log 0)) 0 (leafNode dirty x value)
      (leafTree dirty x value : Node (Tree 0)) 0 := by
  have null : KidRep (Rep log 0) ⟨0, 0, none, true⟩ (.loaded none ()) 0 := by
    refine ⟨rfl, fun position impossible => ?_, rfl, rfl⟩
    cases impossible
  exact ⟨rfl, rfl, rfl, repKids_cons.mpr ⟨_, _, 0, 0, rfl, rfl, null,
    repKids_singleton null⟩⟩

/-- A log with a checkpoint of a single leaf. -/
def leafLog : List LogRecord :=
  [chkptRecord ⟨1, 420, .regular, .chkpt, -1, 0, magicNumber⟩
    [leafNode false 0 1]]

/-- A dirty root over a clean leaf and a dirty one. -/
def mixedHeap : Heap :=
  ⟨[some ⟨[⟨iInit 10 10, 2⟩], [⟨1, 0, some 1, true⟩, ⟨0, 0, some 2, true⟩],
      1, true⟩,
    some (leafNode false 0 1), some (leafNode true 20 3)]⟩

/-- The tree in that heap. -/
def mixedFig : Fig :=
  ⟨1, (⟨true, .loaded (some (1, 0)) (leafTree false 0 1),
    [(⟨iInit 10 10, 2⟩, .loaded none (leafTree true 20 3))]⟩ :
      Node (Tree 1))⟩

theorem holds_mixedFig (log : List LogRecord) :
    Holds (FigRep log mixedFig ⟨0⟩) 0 mixedHeap := by
  refine ⟨cell 0 ⟨[⟨iInit 10 10, 2⟩], [⟨1, 0, some 1, true⟩,
      ⟨0, 0, some 2, true⟩], 1, true⟩ + (cell 1 (leafNode false 0 1) +
        cell 2 (leafNode true 20 3)),
    ⟨0, _, _, rfl, rfl, rfl, rfl, rfl, ?_⟩, ?_, ?_⟩
  · refine repKids_cons.mpr ⟨_, _, _, _, rfl, rfl, ?_, repKids_singleton ?_⟩
    · exact ⟨rfl, fun _ same => Option.some.inj same, 1, _, 0, rfl,
        (add_zero _).symm, nodeRep_leafNode _ _ _ _⟩
    · refine ⟨rfl, fun _ impossible => ?_, 2, _, 0, rfl, (add_zero _).symm,
        nodeRep_leafNode _ _ _ _⟩
      cases impossible
  · simp [cell]
  · simp [cell, mixedHeap, Store.read]

/-- A clean node that an earlier checkpoint stored is not stored again. -/
theorem checkpoint_round_trips_mixed :
    ∃ tree, Ensures (readTree leafLog ⟨0⟩) (fun found _ => found = tree)
        mixedHeap ∧
      Ensures (getDirty ⟨0⟩ 2)
        (fun nodes next => 0 < nodes.length → ∀ later header,
          Files leafLog later 2 (chkptRecord header nodes) →
          (∀ other,
            Ensures (do
              let root ← openRoot later 2
              readTree later root) (fun found _ => found = tree) other) ∧
          ∃ fig', Holds (FigRep later fig' ⟨0⟩) 0 next ∧
            allClean (fig'.height + 1) fig'.tree = true ∧
            fig'.Archived later ∧
            Ensures (readTree later ⟨0⟩) (fun found _ => found = tree) next)
        mixedHeap := by
  refine checkpoint_round_trips (holds_mixedFig leafLog) ⟨?_, fun clean => ?_⟩ 2
  · intro kid member
    rcases List.mem_cons.mp member with rfl | member
    · refine ⟨?_, fun _ => ⟨?_, (1, 0), leafTree false 0 1, rfl,
        ⟨_, rfl, rfl, nodeRep_leafNode _ _ _ _⟩, rfl⟩⟩
      · simp [leafTree, Node.kids, Archived, Kid.isLoaded]
      · simp [leafTree, Node.kids, Kid.isDirty]
    · rw [List.mem_singleton.mp member]
      refine ⟨?_, fun clean => ?_⟩
      · simp [leafTree, Node.kids, Archived, Kid.isLoaded]
      · cases clean
  · cases clean

end FigTree
end Gdpfs
