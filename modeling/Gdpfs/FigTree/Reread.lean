import Gdpfs.FigTree.Partly
import Gdpfs.FigTree.Filed

/-!
# Reads keep what is stored

A read may leave fetched nodes behind the slots of children that are in the
log.  It changes no place that a slot names, so that what was stored of a tree
before the read is what is stored of it afterwards.
-/

namespace Gdpfs
namespace FigTree

open Log Effect
open Cells (Owns Holds cell Store)

/-! ## What reads change -/

/-- The place in the log that a child pointer names, followed or not. -/
def SubtreePtr.place (sptr : SubtreePtr) : Nat × Nat :=
  (sptr.recno, sptr.offset)

/-- Nothing of the nodes changes but where their slots lead in memory. -/
def Placed (heap next : Heap) : Prop :=
  ∀ this node, heap.read this = some node → ∃ subtrees,
    next.read this = some { node with subtrees := subtrees } ∧
      subtrees.map SubtreePtr.place = node.subtrees.map SubtreePtr.place

section Placed

variable {log : List LogRecord} {heap next after : Heap}

theorem Placed.refl (heap : Heap) : Placed heap heap :=
  fun _ node live => ⟨node.subtrees, live, rfl⟩

theorem Placed.trans
    (first : Placed heap next)
    (second : Placed next after) :
    Placed heap after := by
  intro this node live
  obtain ⟨subtrees, live', places⟩ := first this node live
  obtain ⟨subtrees', live'', places'⟩ := second this _ live'
  exact ⟨subtrees', live'', places'.trans places⟩

/-- Two actions, one after the other. -/
theorem Placed.bind
    {action : FigM α}
    {rest : α → FigM β}
    (first : Allows action (fun _ next => Placed heap next) heap)
    (second : ∀ value next,
      Allows (rest value) (fun _ after => Placed next after) next) :
    Allows (action >>= rest) (fun _ after => Placed heap after) heap := by
  refine first.bind fun value next placed => ?_
  exact (second value next).mono fun _ after more => placed.trans more

theorem placed_pure (value : α) (heap : Heap) :
    Allows (pure value : FigM α) (fun _ next => Placed heap next) heap :=
  allows_pure.mpr (Placed.refl heap)

theorem placed_loadNode (this : Addr) (heap : Heap) :
    Allows (loadNode this) (fun _ next => Placed heap next) heap := by
  refine (allows_loadNode this heap).mono ?_
  rintro _ _ ⟨_, rfl⟩
  exact Placed.refl _

/-- Code that is not about the heap. -/
theorem placed_lift (result : Except Fault α) (heap : Heap) :
    Allows (result : FigM α) (fun _ next => Placed heap next) heap := by
  cases result with
  | error fault => exact allows_throw
  | ok value => exact placed_pure value heap

theorem placed_subtreeGet
    (log : List LogRecord)
    (this : Addr)
    (i : Nat)
    (heap : Heap) :
    Allows (subtreeGet log this i) (fun _ next => Placed heap next) heap := by
  rw [subtreeGet]
  refine (allows_loadNode this heap).bind ?_
  rintro node next ⟨live, same⟩
  subst same
  split
  · exact allows_throw
  · next sptr slot =>
      split
      · exact placed_pure _ _
      · cases fetches : fetchNode log sptr.recno sptr.offset with
        | error fault => exact allows_throw
        | ok fetched =>
            have owns := Owns.of_read live
            have fresh := owns.alloc fetched
            rw [allows_run_bind (run_lift_ok _ _),
              allows_run_bind (run_memAlloc _ _),
              allows_run_bind (run_storeNode (fresh.of_eq (add_comm _ _)) _),
              allows_pure]
            intro other node' live'
            by_cases same : other = this
            · cases same
              cases live.symm.trans live'
              refine ⟨_, Store.read_write_self
                (Store.read_alloc_of_live live fetched) _, ?_⟩
              obtain ⟨bound, rfl⟩ := List.getElem?_eq_some_iff.mp slot
              have inside : i < (node.subtrees.map SubtreePtr.place).length := by
                rwa [List.length_map]
              have place : SubtreePtr.place { node.subtrees[i] with
                  st := some next.fresh } =
                  (node.subtrees.map SubtreePtr.place)[i] := by
                rw [List.getElem_map]
                rfl
              rw [List.map_set, place, List.set_getElem_self]
            · refine ⟨node'.subtrees, ?_, rfl⟩
              rw [Store.read_write_of_ne _ _ same]
              exact Store.read_alloc_of_live live' fetched

theorem placed_ftReadPush
    (log : List LogRecord)
    (entries : List FtEnt)
    (currnode : Addr)
    (rs : FigtreeIterstate)
    (pos : Nat)
    (heap : Heap) :
    Allows (ftReadPush log entries currnode rs pos)
      (fun _ next => Placed heap next) heap := by
  rw [ftReadPush]
  refine Placed.bind (placed_subtreeGet _ _ _ _) fun subtree next => ?_
  exact Placed.bind (placed_lift _ _) fun valid after => placed_pure _ after

theorem placed_ftReadDown
    (log : List LogRecord)
    (start room : Nat)
    (rs : FigtreeIterstate)
    (outer : List FigtreeIterstate)
    (heap : Heap) :
    Allows (ftReadDown log start room rs outer)
      (fun _ next => Placed heap next) heap := by
  induction room generalizing rs outer heap with
  | zero => exact allows_throw
  | succ room inductionHypothesis =>
      rw [ftReadDown]
      split
      · exact placed_pure _ heap
      · refine Placed.bind (placed_loadNode _ _) fun node next => ?_
        dsimp only
        split
        · exact placed_pure _ next
        · exact Placed.bind (placed_ftReadPush _ _ _ _ _ _)
            fun top after => inductionHypothesis top _ after
        · exact Placed.bind (placed_ftReadPush _ _ _ _ _ _)
            fun top after => inductionHypothesis top _ after

theorem placed_backtrack
    (nullDone : Bool)
    (states : List FigtreeIterstate)
    (heap : Heap) :
    Allows (backtrack nullDone states) (fun _ next => Placed heap next)
      heap := by
  induction states generalizing heap with
  | nil => exact placed_pure _ heap
  | cons rs outer inductionHypothesis =>
      have rest : ∀ (done : Bool) (next : Heap),
          Allows (if done = true then backtrack nullDone outer
            else pure (rs :: outer)) (fun _ after => Placed next after)
            next := by
        intro done next
        split
        · exact inductionHypothesis next
        · exact placed_pure _ next
      rw [backtrack]
      split
      · split
        · exact Placed.bind (placed_pure true heap) rest
        · exact allows_throw
      · refine Placed.bind (placed_loadNode _ _) fun node next => ?_
        exact Placed.bind (placed_pure _ next) rest

theorem placed_ftRead
    (log : List LogRecord)
    (this : Figtree)
    (start stop : Nat)
    (heap : Heap) :
    Allows (ftRead log this start stop) (fun _ next => Placed heap next)
      heap := by
  rw [ftRead]
  refine Placed.bind (placed_loadNode _ _) fun node next => ?_
  refine Placed.bind (placed_ftReadDown _ _ _ _ _ _) fun states after => ?_
  exact Placed.bind (placed_backtrack _ _ _) fun _ last => placed_pure _ last

theorem placed_ftiDrill
    (log : List LogRecord)
    (room : Nat)
    (subtree : Option Addr)
    (leftlimit rightlimit : Nat)
    (oldvalid : Interval)
    (states : List FigtreeIterstate)
    (heap : Heap) :
    Allows (ftiDrill log room subtree leftlimit rightlimit oldvalid states)
      (fun _ next => Placed heap next) heap := by
  induction room generalizing subtree leftlimit rightlimit oldvalid states
    heap with
  | zero =>
      cases subtree with
      | none => exact placed_pure _ heap
      | some this => exact allows_throw
  | succ room inductionHypothesis =>
      cases subtree with
      | none => exact placed_pure _ heap
      | some this =>
          rw [ftiDrill]
          refine Placed.bind (placed_lift _ _) fun valid next => ?_
          refine Placed.bind (placed_loadNode _ _) fun node after => ?_
          dsimp only
          split
          · split
            · exact placed_pure _ after
            · exact Placed.bind (placed_subtreeGet _ _ _ _)
                fun ptr last => inductionHypothesis _ _ _ _ _ last
          · exact Placed.bind (placed_subtreeGet _ _ _ _)
              fun ptr last => inductionHypothesis _ _ _ _ _ last

/-- `fti_next` moves the iterator and fetches nodes. -/
theorem placed_ftiNext
    (log : List LogRecord)
    (this : FigtreeIter)
    (heap : Heap) :
    Allows (ftiNext log this) (fun _ next => Placed heap next) heap := by
  rw [ftiNext]
  split
  · exact placed_pure _ heap
  · split
    · exact allows_throw
    · refine Placed.bind (placed_loadNode _ _) fun node next => ?_
      dsimp only
      split
      · exact allows_throw
      · refine Placed.bind (placed_lift _ _) fun irange after => ?_
        have rest : ∀ (value : Int) (states : List FigtreeIterstate)
            (last : Heap),
            Allows (do
              let states ← backtrack false states
              pure (some (FtEnt.mk irange value),
                { this with states := states }))
              (fun _ final => Placed last final) last :=
          fun value states last => Placed.bind (placed_backtrack _ _ last)
            fun _ final => placed_pure _ final
        split
        · exact Placed.bind (placed_pure _ after) (rest _)
        · split
          · refine Placed.bind (placed_subtreeGet _ _ _ _) fun ptr last => ?_
            exact Placed.bind (placed_ftiDrill _ _ _ _ _ _ _ last) (rest _)
          · exact Placed.bind (placed_pure _ after) (rest _)

end Placed

/-! ## Trees that were read -/

/-- The cell with what it holds in another heap. -/
def touched (next : Heap) (entry : Addr × FtNode) : Addr × FtNode :=
  (entry.1, (next.read entry.1).getD entry.2)

/-- A tree with the same nodes, of which as much is stored. -/
structure Reread (h : Nat) (tree tree' : Tree h) : Prop where
  views : views h tree' = views h tree
  clean : allClean h tree' = allClean h tree
  sound : ∀ regime low high, Sound regime h low high tree →
    Sound regime h low high tree'

/-- A child with the same nodes, of which as much is stored. -/
structure RereadKid (h : Nat) (kid kid' : Kid (Tree h)) : Prop where
  views : FigTree.views h kid'.get = FigTree.views h kid.get
  clean : kid'.allClean = kid.allClean
  sound : ∀ regime low high, SoundKid regime h low high kid →
    SoundKid regime h low high kid'

section Reread

variable {partly : Prop} {log : List LogRecord} {heap next : Heap}
  {frame : Part} {h : Nat}

theorem Kept.touched_eq
    (kept : Kept partly heap next)
    (live : heap.read this = some node) :
    ∃ subtrees, touched next (this, node) =
        (this, { node with subtrees := subtrees }) ∧
      subtrees.map SubtreePtr.source =
        node.subtrees.map SubtreePtr.source := by
  obtain ⟨subtrees, live', sources⟩ := kept.nodes this node live
  refine ⟨subtrees, ?_, sources⟩
  rw [touched, live']
  rfl

/-- What was owned is owned after reads, with other slots. -/
theorem Kept.owns
    (kept : Kept partly heap next)
    (owns : Owns heap cells) :
    Owns next (cells.map (touched next)) := by
  refine ⟨?_, fun entry member => ?_⟩
  · rw [Multiset.map_map]
    exact owns.1
  · obtain ⟨old, inside, rfl⟩ := Multiset.mem_map.mp member
    obtain ⟨subtrees, live', _⟩ := kept.nodes _ _ (owns.2 old inside)
    rw [touched, live']
    rfl

theorem SubtreePtr.source_of_inmemory
    {sptr sptr' : SubtreePtr}
    (same : sptr'.source = sptr.source)
    (loaded : sptr.inmemory = true) :
    sptr'.inmemory = true ∧ sptr'.st = sptr.st := by
  rw [SubtreePtr.source, SubtreePtr.source, if_pos loaded] at same
  split at same
  · next loaded' => exact ⟨loaded', Source.memory.inj same⟩
  · cases same

theorem SubtreePtr.source_of_not_inmemory
    {sptr sptr' : SubtreePtr}
    (same : sptr'.source = sptr.source)
    (unloaded : sptr.inmemory = false) :
    sptr'.inmemory = false ∧
      (sptr'.recno, sptr'.offset) = (sptr.recno, sptr.offset) := by
  rw [SubtreePtr.source, SubtreePtr.source, unloaded,
    if_neg Bool.false_ne_true] at same
  split at same
  · cases same
  · next unloaded' =>
      exact ⟨Bool.eq_false_iff.mpr unloaded', Source.log.inj same⟩

theorem Reread.loaded
    {child child' : Tree h}
    (reread : Reread h child child')
    (saved : Option (Nat × Nat)) :
    RereadKid h (.loaded saved child) (.loaded saved child') := by
  refine ⟨reread.views, reread.clean, ?_⟩
  rintro regime low high ⟨sound, backed⟩
  refine ⟨reread.sound regime low high sound, ?_⟩
  cases h with
  | zero => rfl
  | succ h =>
      intro isClean
      refine regime.keep (fun x lower upper => ⟨lower, upper, ?_⟩)
        (backed (reread.clean.symm.trans isClean))
      exact (look_of_views reread.views x).symm

theorem RereadKid.followed
    (saved : Nat × Nat)
    (seen seen' : Bool)
    (stored : Tree h) :
    RereadKid h (.unloaded saved seen stored)
      (.unloaded saved seen' stored) := by
  refine ⟨rfl, rfl, ?_⟩
  rintro regime low high ⟨sound, backed⟩
  refine ⟨sound, ?_⟩
  cases h with
  | zero => exact backed
  | succ h => exact backed

theorem all_allClean
    {kids kids' : List (Kid (Tree h))}
    (reread : List.Forall₂ (RereadKid h) kids kids') :
    kids'.all Kid.allClean = kids.all Kid.allClean := by
  induction reread with
  | nil => rfl
  | cons head _ inductionHypothesis =>
      rw [List.all_cons, List.all_cons, head.clean, inductionHypothesis]

/-- A node whose children were read. -/
theorem Reread.node
    {tree tree' : Node (Tree h)}
    (entries : tree'.entries = tree.entries)
    (dirty : tree'.dirty = tree.dirty)
    (kids : List.Forall₂ (RereadKid h) tree.kids tree'.kids) :
    Reread (h + 1) tree tree' := by
  refine ⟨views_eq entries (kids.imp fun _ _ kid => kid.views), ?_, ?_⟩
  · rw [allClean_node, allClean_node, dirty, all_allClean kids]
  · intro regime low high sound
    have ok : NodeOk regime.limit _ tree := sound
    exact ok.transfer entries kids fun _ _ kid kid' same good =>
      same.sound regime _ _ good

/-- Other pointers that agree in some key represent children, if each of them
does so alone. -/
theorem RepKids.along
    {rep : SubtreePtr → Kid C → Part → Prop}
    {related : Kid C → Kid C → Prop}
    {change : Addr × FtNode → Addr × FtNode}
    {key : SubtreePtr → κ}
    (kids : RepKids rep ptrs children cells)
    (keys : ptrs'.map key = ptrs.map key)
    (each : ∀ sptr sptr' kid here others, cells = here + others →
      key sptr' = key sptr → rep sptr kid here →
      ∃ kid', rep sptr' kid' (here.map change) ∧ related kid kid') :
    ∃ children', RepKids rep ptrs' children' (cells.map change) ∧
      List.Forall₂ related children children' := by
  induction children generalizing ptrs ptrs' cells with
  | nil =>
      obtain ⟨rfl, rfl⟩ := repKids_nil.mp kids
      rw [List.map_eq_nil_iff.mp keys]
      exact ⟨[], rfl, .nil⟩
  | cons kid children inductionHypothesis =>
      obtain ⟨sptr, ptrs, here, there, rfl, rfl, kidRep, tail⟩ :=
        repKids_cons.mp kids
      cases ptrs' with
      | nil => cases keys
      | cons sptr' ptrs' =>
          obtain ⟨first, others⟩ := List.cons.inj keys
          obtain ⟨kid', kidRep', isKid⟩ :=
            each sptr sptr' kid here there rfl first kidRep
          obtain ⟨children', tail', areKids⟩ :=
            inductionHypothesis tail others
              fun sptr sptr' kid part rest split => by
                refine each sptr sptr' kid part (here + rest) ?_
                rw [split]
                exact add_left_comm _ _ _
          refine ⟨kid' :: children', repKids_cons.mpr ⟨sptr', ptrs', _, _,
            rfl, Multiset.map_add _ _ _, kidRep', tail'⟩, .cons isKid areKids⟩

/-- A child pointer after a read. -/
theorem KidRep.reread
    {kid : Kid (Tree h)}
    (below : ∀ {ptr cells} {tree : Tree h},
      Rep log h (.memory ptr) tree cells → Owns heap (cells + frame) →
      ∃ tree', Rep log h (.memory ptr) tree'
        (cells.map (FigTree.touched next)) ∧ Reread h tree tree')
    (source : sptr'.source = sptr.source)
    (place : sptr'.place = sptr.place)
    (kidRep : KidRep (Rep log h) sptr kid cells)
    (owns : Owns heap (cells + frame)) :
    ∃ kid', KidRep (Rep log h) sptr' kid' (cells.map (FigTree.touched next)) ∧
      RereadKid h kid kid' := by
  cases kid with
  | loaded saved child =>
      obtain ⟨loaded, isSaved, childRep⟩ := kidRep
      obtain ⟨loaded', sameSt⟩ := SubtreePtr.source_of_inmemory source loaded
      obtain ⟨child', childRep', reread⟩ := below childRep owns
      refine ⟨.loaded saved child', ⟨loaded', fun position names => ?_, ?_⟩,
        reread.loaded saved⟩
      · exact place.trans (isSaved position names)
      · rw [sameSt]
        exact childRep'
  | unloaded saved seen stored =>
      obtain ⟨unloaded, _, isSaved, storedRep, rfl⟩ := kidRep
      obtain ⟨unloaded', _⟩ :=
        SubtreePtr.source_of_not_inmemory source unloaded
      exact ⟨.unloaded saved sptr'.st.isSome stored, ⟨unloaded', rfl,
        place.trans isSaved, storedRep, rfl⟩, .followed saved _ _ stored⟩

/-- The cell of a node after a read. -/
theorem Placed.touched_eq
    (placed : Placed heap next)
    (kept : Kept partly heap next)
    (live : heap.read this = some node) :
    ∃ subtrees, touched next (this, node) =
        (this, { node with subtrees := subtrees }) ∧
      subtrees.map (fun sptr => (sptr.source, sptr.place)) =
        node.subtrees.map fun sptr => (sptr.source, sptr.place) := by
  obtain ⟨subtrees, live', places⟩ := placed this node live
  obtain ⟨others, isTouched, sources⟩ := kept.touched_eq live
  have same : subtrees = others := by
    rw [touched, live'] at isTouched
    exact congrArg (FtNode.subtrees ∘ Prod.snd) isTouched
  subst same
  have both : ∀ ptrs : List SubtreePtr,
      ptrs.map (fun sptr => (sptr.source, sptr.place)) =
        (ptrs.map SubtreePtr.source).zip (ptrs.map SubtreePtr.place) :=
    fun ptrs => List.zip_map'.symm
  refine ⟨subtrees, isTouched, ?_⟩
  rw [both, both, sources, places]

/-- The heap after a read represents a tree of which as much is stored. -/
theorem Rep.reread
    {tree : Tree h}
    (kept : Kept partly heap next)
    (placed : Placed heap next)
    (rep : Rep log h (.memory ptr) tree cells)
    (owns : Owns heap (cells + frame)) :
    ∃ tree', Rep log h (.memory ptr) tree'
        (cells.map (FigTree.touched next)) ∧ Reread h tree tree' := by
  induction h generalizing ptr cells frame with
  | zero =>
      obtain ⟨rfl, rfl⟩ := rep
      exact ⟨tree, ⟨rfl, rfl⟩, rfl, rfl, fun _ _ _ sound => sound⟩
  | succ h inductionHypothesis =>
      obtain ⟨this, node, below, rfl, rfl, nodeRep⟩ := rep
      have owned := owns.of_eq (add_assoc _ _ _)
      obtain ⟨subtrees, isTouched, keys⟩ := placed.touched_eq kept owned.read
      obtain ⟨kids', kidsRep, reread⟩ := nodeRep.kids.along keys
        fun sptr sptr' kid here others split same kidRep =>
          kidRep.reread inductionHypothesis (congrArg Prod.fst same)
            (congrArg Prod.snd same)
            (owned.drop.of_eq (by rw [split]; exact add_assoc here others _))
      have length := reread.length_eq.symm
      let tree' : Node (Tree h) := { Node.withKids (C := Tree h) tree kids' with
        dirty := Node.dirty (C := Tree h) tree }
      have isKids : tree'.kids = kids' :=
        (@Node.kids_withKids _ (tree : Node (Tree h)) kids') length
      have isEntries : tree'.entries = Node.entries (C := Tree h) tree :=
        (@Node.entries_withKids _ (tree : Node (Tree h)) kids') length
      refine ⟨tree', ⟨this, { node with subtrees := subtrees },
        below.map (FigTree.touched next), rfl, ?_, ?_⟩, ?_⟩
      · rw [Multiset.map_add, cell, Multiset.map_singleton, isTouched]
        rfl
      · exact ⟨nodeRep.entries.trans isEntries.symm, nodeRep.height,
          nodeRep.dirty, isKids.symm ▸ kidsRep⟩
      · exact Reread.node isEntries rfl (isKids.symm ▸ reread)

/-- What a regime asks of a tree holds of it after a read. -/
theorem Placed.fig
    {regime : Regime}
    {fig : Fig}
    {this : Figtree}
    (placed : Placed heap next)
    (kept : Kept partly heap next)
    (sound : fig.Sound regime)
    (holds : Holds (FigRep log fig this) 0 heap) :
    ∃ fig' : Fig, fig'.Sound regime ∧ Holds (FigRep log fig' this) 0 next ∧
      ∀ x, fig'.look x = fig.look x := by
  obtain ⟨cells, rep, owns⟩ := holds
  obtain ⟨tree', rep', reread⟩ := Rep.reread kept placed rep owns
  refine ⟨⟨fig.height, tree'⟩, reread.sound regime _ _ sound,
    ⟨cells.map (touched next), rep', ?_⟩, look_of_views reread.views⟩
  rw [add_zero] at owns ⊢
  exact kept.owns owns

end Reread

end FigTree
end Gdpfs
