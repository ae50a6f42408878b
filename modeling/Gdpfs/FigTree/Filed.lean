import Gdpfs.FigTree.Incremental
import Gdpfs.FigTree.Pruned

/-!
# Checkpoints of trees that are partly in the log

A tree that was opened from a checkpoint may be checkpointed again.  The copies
keep the pointers to the children that were never loaded, so that the new
checkpoint stores the whole tree as long as no node is dirty below a clean one.
What the log stores is in order, because only nodes of sound trees get there.
-/

namespace Gdpfs
namespace FigTree

open Log Effect
open Cells (Owns Holds cell Store)

/-! ## Nodes in the log -/

section Nodes

/-- Entries in order, as `Ordered` has them with their children. -/
def InOrder (low high : Nat) : List FtEnt → Prop
  | [] => True
  | entry :: rest =>
      entry.irange.nonempty = true ∧ low ≤ entry.irange.left ∧
        entry.irange.left ≤ entry.irange.right ∧ entry.irange.right < high ∧
          InOrder (entry.irange.right + 1) high rest

theorem ordered_iff_inOrder
    {rest : List (FtEnt × Kid C)}
    {low high : Nat} :
    Ordered low high rest ↔ InOrder low high (rest.map Prod.fst) := by
  induction rest generalizing low with
  | nil => exact Iff.rfl
  | cons item rest inductionHypothesis =>
      obtain ⟨entry, kid⟩ := item
      rw [Ordered, List.map_cons, InOrder, inductionHypothesis]

/-- The entries of a node of a tree. -/
def EntriesOk (entries : List FtEnt) : Prop :=
  entries.length ≤ 2 * ftOrder ∧ InOrder 0 byteIndexMax entries

theorem NodeOk.entriesOk
    {good : Nat → Nat → Kid C → Prop}
    {node : Node C}
    (ok : NodeOk byteIndexMax good node) :
    EntriesOk node.entries := by
  refine ⟨?_, ordered_iff_inOrder.mp ok.ordered⟩
  rw [Node.entries, List.length_map]
  exact ok.count

/-- Every node that the log stores has its entries in order. -/
def NodesFiled (log : List LogRecord) : Prop :=
  ∀ recno offset node, fetchNode log recno offset = .ok node →
    EntriesOk node.entries

variable {log : List LogRecord} {regime : Regime} {h low high : Nat}

theorem repKids_zero
    {rep : SubtreePtr → Kid C → Part → Prop}
    (kids : RepKids rep ptrs children 0)
    (member : kid ∈ children) :
    ∃ sptr, rep sptr kid 0 := by
  induction children generalizing ptrs with
  | nil => cases member
  | cons first children inductionHypothesis =>
      obtain ⟨sptr, ptrs, here, there, rfl, none, kidRep, tail⟩ :=
        repKids_cons.mp kids
      obtain rfl : here = 0 :=
        Multiset.le_zero.mp (none ▸ Multiset.le_add_right here there)
      obtain rfl : there = 0 := (zero_add there).symm.trans none.symm
      rcases List.mem_cons.mp member with rfl | inRest
      · exact ⟨sptr, kidRep⟩
      · exact inductionHypothesis tail inRest

/-- A tree in the log is sound wherever nothing is asked of clean nodes in
memory. -/
theorem NodesFiled.sound
    {tree : Tree h}
    (filed : NodesFiled log)
    (limits : regime.limit = byteIndexMax)
    (partly : regime.partly)
    (rep : Rep log h (.log position) tree 0) :
    Sound regime h low high tree := by
  induction h generalizing position low high with
  | zero => trivial
  | succ h inductionHypothesis =>
      obtain ⟨node, fetches, _, nodeRep⟩ := rep
      obtain ⟨count, inOrder⟩ := filed _ _ _ fetches
      rw [nodeRep.entries] at count inOrder
      have good : ∀ kid ∈ Node.kids (C := Tree h) tree, ∀ low high,
          SoundKid regime h low high kid := by
        intro kid member low high
        obtain ⟨sptr, kidRep⟩ := repKids_zero nodeRep.kids member
        cases kid with
        | loaded saved child =>
            cases h with
            | zero => exact ⟨trivial, rfl⟩
            | succ h =>
                -- A node in memory would have a cell.
                obtain ⟨_, _, _, _, below, _, isCell, _⟩ := kidRep
                exact absurd (congrArg Multiset.card isCell.symm)
                  (by simp [cell])
        | unloaded saved seen stored =>
            obtain ⟨_, _, _, storedRep, _⟩ := kidRep
            refine ⟨inductionHypothesis storedRep, ?_⟩
            cases h with
            | zero => exact storedRep.elim
            | succ h => exact partly
      refine ⟨?_, ?_, (kidsIn_const_iff.mpr good).imp fun _ _ _ each =>
        each _ _⟩
      · exact (List.length_map Prod.fst).symm.trans_le count
      · rw [limits]
        exact ordered_iff_inOrder.mpr inOrder

/-- The nodes of a sound tree in memory have their entries in order. -/
theorem Sound.entriesOk
    {tree : Tree h}
    (limits : regime.limit = byteIndexMax)
    (sound : Sound regime h low high tree)
    (rep : Rep log h source tree cells)
    (member : (st, node) ∈ cells) :
    EntriesOk node.entries := by
  induction h generalizing low high source cells with
  | zero =>
      cases source with
      | memory ptr =>
          rw [rep.2] at member
          exact absurd member (Multiset.notMem_zero _)
      | log position => exact rep.elim
  | succ h inductionHypothesis =>
      have nodeOk : NodeOk regime.limit _ tree := sound
      rw [limits] at nodeOk
      cases source with
      | memory ptr =>
          obtain ⟨this, root, below, _, rfl, nodeRep⟩ := rep
          rcases Multiset.mem_add.mp member with isRoot | beneath
          · obtain ⟨_, rfl⟩ := Prod.mk.inj (Multiset.mem_singleton.mp isRoot)
            rw [nodeRep.entries]
            exact nodeOk.entriesOk
          · obtain ⟨sptr, _, kid, inKids, part, _, _, kidRep, inPart⟩ :=
              nodeRep.kids.of_cell beneath
            obtain ⟨_, _, good⟩ := KidsIn.exists_good sound.kids inKids
            cases kid with
            | loaded saved child =>
                exact inductionHypothesis good.1 kidRep.2.2 inPart
            | unloaded saved seen stored =>
                rw [kidRep.2.2.2.2] at inPart
                exact absurd inPart (Multiset.notMem_zero _)
      | log position =>
          obtain ⟨_, _, rfl, _⟩ := rep
          exact absurd member (Multiset.notMem_zero _)

theorem recordAt_append_of_ne
    (datum : LogRecord)
    (notLast : recno ≠ log.length + 1) :
    recordAt (log ++ [datum]) recno = recordAt log recno := by
  unfold recordAt
  split
  · rfl
  · rcases Nat.lt_or_ge (recno - 1) log.length with inside | past
    · exact List.getElem?_append_left inside
    · rw [List.getElem?_eq_none past, List.getElem?_eq_none]
      rw [List.length_append, List.length_singleton]
      omega

theorem mem_of_readFtNode
    {ent : LogEnt}
    (isNodes : ent.datum.payload = .nodes nodes)
    (reads : readFtNode ent = some node) :
    node ∈ nodes := by
  unfold readFtNode at reads
  rw [isNodes] at reads
  dsimp only at reads
  split at reads
  · exact List.mem_of_getElem? reads
  · cases reads

/-- What is fetched from a checkpoint is one of its nodes. -/
theorem mem_of_fetchNode
    (isChkpt : recordAt log recno = some (chkptRecord header nodes))
    (fetches : fetchNode log recno offset = .ok node) :
    node ∈ nodes := by
  unfold fetchNode gdpfsLogEntOpen at fetches
  rw [isChkpt] at fetches
  simp only [Option.map_some, readFmeta_chkptRecord, bind, Except.bind]
    at fetches
  cases found : readFtNode (gdpfsLogEntDrain
      ⟨chkptRecord header nodes, sizeofFmeta⟩ offset) with
  | none =>
      rw [found] at fetches
      cases fetches
  | some image =>
      rw [found] at fetches
      cases fetches
      exact mem_of_readFtNode rfl found

/-- A record leaves the nodes of a log in order if it is none of them or a
checkpoint of such nodes. -/
theorem NodesFiled.append
    {datum : LogRecord}
    (filed : NodesFiled log)
    (new : datum.header.logentType = .data ∨ ∃ header nodes,
      datum = chkptRecord header nodes ∧
      ∀ image ∈ nodes, EntriesOk image.entries) :
    NodesFiled (log ++ [datum]) := by
  intro recno offset node fetches
  have files := Files.append log datum
  by_cases isLast : recno = log.length + 1
  · subst isLast
    rcases new with isData | ⟨header, nodes, rfl, each⟩
    · obtain ⟨other, isOther, isChkpt⟩ := fetchNode_ok fetches
      cases files.filed.symm.trans isOther
      cases isData.symm.trans isChkpt
    · exact each node (mem_of_fetchNode files.filed fetches)
  · refine filed recno offset node ?_
    rwa [fetchNode_congr (recordAt_append_of_ne datum isLast)] at fetches

end Nodes

/-! ## What a checkpoint stores -/

/-- Trees that may have children in the log, and whose clean parts in memory
are stored. -/
def partlyStored (log : List LogRecord) : Regime :=
  { storedRegime log with partly := True }

/-- The bytes of a region, and those that no entry covers. -/
def Visible (low high x : Nat) : Prop :=
  low ≤ x ∧ x < high ∨ byteIndexMax ≤ x

/-- A child that is as sound as it was and gives the same answers. -/
def KeptAs
    (log later : List LogRecord)
    (h : Nat)
    (kid kid' : Kid (Tree h)) : Prop :=
  ∀ low high, SoundKid (partlyStored log) h low high kid →
    SoundKid (partlyStored later) h low high kid' ∧
      ∀ x, Visible low high x → look h kid'.get x = look h kid.get x

/-- A stored child that gives the same answers. -/
def StoredAs (log : List LogRecord) (h : Nat) (kid stored : Kid (Tree h)) :
    Prop :=
  ∀ low high, SoundKid (partlyStored log) h low high kid →
    ∀ x, Visible low high x → look h stored.get x = look h kid.get x

/-- What becomes of a child, and of the pointer to it in the copy of its
parent. -/
def KidStored
    (log later : List LogRecord)
    (h : Nat)
    (kid kid' : Kid (Tree h))
    (sptr : SubtreePtr) : Prop :=
  KeptAs log later h kid kid' ∧
    (kid.writable = true → ∃ written stored, writtenPtr sptr = .ok written ∧
      KidRep (Rep later h) written stored 0 ∧ StoredAs log h kid stored)

/-- The same of all children of a node. -/
def KidsStored
    (log later : List LogRecord)
    (h : Nat)
    (kids kids' : List (Kid (Tree h)))
    (ptrs : List SubtreePtr) : Prop :=
  List.Forall₂ (KeptAs log later h) kids kids' ∧
    (kids.all Kid.writable = true → ∃ written stored,
      writtenPtrs ptrs = .ok written ∧
      RepKids (KidRep (Rep later h)) written stored 0 ∧
      List.Forall₂ (StoredAs log h) kids stored)

/-- A sound child below which no node is dirty below a clean one. -/
def Able (log : List LogRecord) (h : Nat) (kid : Kid (Tree h)) : Prop :=
  (∃ low high, SoundKid (partlyStored log) h low high kid) ∧
    dirtyOnTop h kid = true

section Stored

variable {log fetched later : List LogRecord} {recno h low high : Nat}
  {heap : Heap} {frame : Part} {dirty images : List FtNode}

theorem Sound.kept_partly
    {tree : Tree h}
    (kept : ∀ recno offset node, fetchNode log recno offset = .ok node →
      fetchNode later recno offset = .ok node)
    (sound : Sound (partlyStored log) h low high tree) :
    Sound (partlyStored later) h low high tree :=
  (@Sound.weaken (partlyStored log) (partlyStored later)) rfl id
    (StoredLike.kept kept) sound

theorem SoundKid.kept_partly
    {kid : Kid (Tree h)}
    (kept : ∀ recno offset node, fetchNode log recno offset = .ok node →
      fetchNode later recno offset = .ok node)
    (sound : SoundKid (partlyStored log) h low high kid) :
    SoundKid (partlyStored later) h low high kid :=
  (@SoundKid.weaken (partlyStored log) (partlyStored later)) rfl id
    (StoredLike.kept kept) sound

theorem keptAs_refl
    (kept : ∀ recno offset node, fetchNode log recno offset = .ok node →
      fetchNode later recno offset = .ok node)
    (kid : Kid (Tree h)) :
    KeptAs log later h kid kid :=
  fun _ _ sound => ⟨sound.kept_partly kept, fun _ _ => rfl⟩

/-- Two nodes with the same entries answer alike if their children do where
they are visible. -/
theorem look_of_kids
    {node node' : Node (Tree h)}
    {related : Kid (Tree h) → Kid (Tree h) → Prop}
    (sound : Sound (partlyStored log) (h + 1) low high node)
    (entries : node'.entries = node.entries)
    (each : List.Forall₂ related node.kids node'.kids)
    (agrees : ∀ low high kid kid', SoundKid (partlyStored log) h low high kid →
      related kid kid' → ∀ x, Visible low high x →
        look h kid'.get x = look h kid.get x)
    (visible : Visible low high x) :
    look (h + 1) node' x = look (h + 1) node x := by
  refine lookIn_region sound.ordered sound.kids entries each ?_
    (Nat.zero_le x)
  intro first last kid kid' good same inside
  refine agrees _ _ kid kid' good same x ?_
  rcases visible with ⟨lower, upper⟩ | past
  · exact inside.imp_left fun within =>
      ⟨max_le lower within.1, lt_min upper within.2⟩
  · exact Or.inr past

/-- A child that is not in memory stays in the log. -/
theorem kidStored_unloaded
    {tree : Tree h}
    (kept : ∀ recno offset node, fetchNode log recno offset = .ok node →
      fetchNode later recno offset = .ok node)
    (within : ∀ recno offset node, fetchNode fetched recno offset = .ok node →
      fetchNode log recno offset = .ok node)
    (kidRep : KidRep (Rep fetched h) sptr (.unloaded saved seen tree) cells) :
    KidStored log later h (.unloaded saved seen tree)
      (.unloaded saved seen tree) sptr := by
  obtain ⟨_, isSeen, isSaved, rep, _⟩ := kidRep
  refine ⟨keptAs_refl kept _, fun writable => ?_⟩
  have followed : sptr.st.isSome = true := isSeen.trans writable
  obtain ⟨st, isSt⟩ := Option.isSome_iff_exists.mp followed
  refine ⟨{ sptr with inmemory := false, st := none },
    .unloaded saved false tree, ?_, ⟨rfl, rfl, isSaved,
      (rep.kept within).kept kept, rfl⟩, fun _ _ _ _ _ => rfl⟩
  rw [writtenPtr, isSt]

/-- A clean child in memory keeps its stored copy. -/
theorem kidStored_clean
    {child : Node (Tree h)}
    (kept : ∀ recno offset node, fetchNode log recno offset = .ok node →
      fetchNode later recno offset = .ok node)
    (kidRep : KidRep (Rep fetched (h + 1)) sptr (.loaded saved child) cells)
    (clean : child.dirty = false)
    (able : Able log (h + 1) (.loaded saved child)) :
    KidStored log later (h + 1) (.loaded saved child) (.loaded saved child)
      sptr := by
  obtain ⟨⟨_, _, sound⟩, onTop⟩ := able
  have isOnTop := dirtyOnTop_loaded.symm.trans onTop
  rw [clean, if_neg Bool.false_ne_true] at isOnTop
  obtain ⟨_, isSaved, this, node, below, isSt, _⟩ := kidRep
  obtain ⟨position, copy, rfl, rep, _⟩ := sound.2 isOnTop
  refine ⟨keptAs_refl kept _, fun _ =>
    ⟨{ sptr with inmemory := false, st := none },
      .unloaded position false copy, ?_,
      ⟨rfl, rfl, isSaved position rfl, rep.kept kept, rfl⟩, ?_⟩⟩
  · rw [writtenPtr, isSt]
  · intro low high sound x visible
    obtain ⟨_, copy', same, rep', agrees, none⟩ := sound.2 isOnTop
    cases same
    refine (look_of_views (stored_views rep' rep) x).trans ?_
    rcases visible with ⟨lower, upper⟩ | past
    · exact agrees x lower upper
    · exact (none x past).trans (sound.1.look_past past).symm

/-- A dirty child is stored with its children. -/
theorem kidStored_dirty
    {sptr : SubtreePtr}
    {child : Node (Tree h)}
    {kids stored : List (Kid (Tree h))}
    (kept : List.Forall₂ (KeptAs log later h) child.kids kids)
    (storedAs : List.Forall₂ (StoredAs log h) child.kids stored)
    (isSt : sptr.st = some st)
    (copyRep : Rep later (h + 1) (.log position) (child.withKids stored) 0) :
    KidStored log later (h + 1) (.loaded saved child)
      (.loaded (some position) (child.withKids kids))
      { sptr with recno := position.1, offset := position.2 } := by
  have lengths : kids.length = child.kids.length := kept.length_eq.symm
  have lengths' : stored.length = child.kids.length :=
    storedAs.length_eq.symm
  have entries := Node.entries_withKids lengths
  rw [← Node.kids_withKids lengths] at kept
  rw [← Node.kids_withKids lengths'] at storedAs
  have copySeen : ∀ low high,
      SoundKid (partlyStored log) (h + 1) low high (.loaded saved child) →
      ∀ x, Visible low high x →
        look (h + 1) (child.withKids stored) x = look (h + 1) child x :=
    fun low high sound x visible => look_of_kids sound.1
      (Node.entries_withKids lengths') storedAs
      (fun low high kid kid' good same => same low high good) visible
  refine ⟨fun low high sound => ?_, fun _ =>
    ⟨{ sptr with
        recno := position.1, offset := position.2
        inmemory := false, st := none },
      .unloaded position false (child.withKids stored), ?_,
      ⟨rfl, rfl, rfl, copyRep, rfl⟩, copySeen⟩⟩
  · have seen : ∀ x, Visible low high x →
        look (h + 1) (child.withKids kids) x = look (h + 1) child x :=
      fun x visible => look_of_kids sound.1 entries kept
        (fun low high kid kid' good same => (same low high good).2) visible
    refine ⟨⟨NodeOk.transfer sound.1 entries kept ?_, fun _ => ?_⟩, seen⟩
    · exact fun first last kid kid' same good => (same _ _ good).1
    · refine ⟨position, child.withKids stored, rfl, copyRep,
        fun x lower upper => ?_, fun x past => ?_⟩
      · have inside : Visible low high x := Or.inl ⟨lower, upper⟩
        exact (copySeen low high sound x inside).trans (seen x inside).symm
      · exact (copySeen low high sound x (Or.inr past)).trans
          (sound.1.look_past past)
  · simp only [writtenPtr, isSt]

theorem Able.kids
    {child : Node (Tree h)}
    (able : Able log (h + 1) (.loaded saved child))
    (isDirty : child.dirty = true)
    (member : kid ∈ child.kids) :
    Able log h kid := by
  obtain ⟨⟨_, _, sound⟩, onTop⟩ := able
  have isOnTop := dirtyOnTop_loaded.symm.trans onTop
  rw [isDirty, if_pos rfl] at isOnTop
  obtain ⟨low, high, good⟩ := KidsIn.exists_good sound.1.kids member
  exact ⟨⟨_, _, good⟩, List.all_eq_true.mp isOnTop kid member⟩

/-- The loop over the children of a node. -/
theorem allows_kidsStored
    {helper : SubtreePtr → List FtNode → FigM (SubtreePtr × List FtNode)}
    (each : ∀ {sptr : SubtreePtr} {kid kid' : Kid (Tree h)} {cells : Part}
      {heap : Heap} {frame : Part} {dirty : List FtNode} {count : Nat},
      KidRep (Rep fetched h) sptr kid cells → Owns heap (cells + frame) →
      flush recno h kid dirty.length = some (kid', count) →
      KidFlushed fetched recno h frame dirty kid kid' count sptr cells
        ((helper sptr dirty).run heap))
    (stores : ∀ {sptr : SubtreePtr} {kid kid' : Kid (Tree h)} {cells : Part}
      {heap : Heap} {frame : Part} {dirty : List FtNode} {count : Nat},
      KidRep (Rep fetched h) sptr kid cells → Owns heap (cells + frame) →
      flush recno h kid dirty.length = some (kid', count) → Able log h kid →
      Allows (helper sptr dirty)
        (fun result _ => ∀ later images, result.2 <+: images →
          Archive log later recno images →
          KidStored log later h kid kid' result.1) heap)
    {kids kids' : List (Kid (Tree h))}
    (kidsRep : RepKids (KidRep (Rep fetched h)) ptrs kids cells)
    (owns : Owns heap (cells + frame))
    (flushed : flushKids (flush recno h) kids dirty.length =
      some (kids', count))
    (able : ∀ kid ∈ kids, Able log h kid) :
    Allows (getDirtySlots helper ptrs dirty)
      (fun result _ => ∀ later images, result.2 <+: images →
        Archive log later recno images →
        KidsStored log later h kids kids' result.1) heap := by
  induction kids generalizing ptrs cells kids' dirty heap frame with
  | nil =>
      obtain ⟨rfl, rfl⟩ := repKids_nil.mp kidsRep
      cases flushed
      rw [getDirtySlots, allows_pure]
      exact fun _ _ _ _ => ⟨.nil, fun _ => ⟨[], [], rfl,
        repKids_nil.mpr ⟨rfl, rfl⟩, .nil⟩⟩
  | cons kid kids inductionHypothesis =>
      obtain ⟨sptr, ptrs, here, there, rfl, rfl, kidRep, restRep⟩ :=
        repKids_cons.mp kidsRep
      obtain ⟨first, middle, others, isFirst, isOthers, rfl⟩ :=
        flushKids_cons.mp flushed
      rw [add_assoc] at owns
      have stored := stores kidRep owns isFirst (able kid List.mem_cons_self)
      obtain ⟨sptr', new, next, here', run, _, length, _, owns', _⟩ :=
        each kidRep owns isFirst
      rw [← length, ← List.length_append] at isOthers
      have owned := owns'.of_eq (add_left_comm here' there frame)
      have rest := inductionHypothesis restRep owned isOthers
        fun other member => able other (List.mem_cons_of_mem _ member)
      obtain ⟨ptrs', new', after, _, run', _⟩ :=
        kidsFlushed each restRep owned isOthers
      rw [getDirtySlots, allows_run_bind run]
      dsimp only
      rw [allows_run_bind run', allows_pure]
      intro later images isPrefix archive
      obtain ⟨kept, storedAs⟩ := stored _ _ run later images
        ((List.prefix_append _ _).trans isPrefix) archive
      obtain ⟨kepts, storedAll⟩ := rest _ _ run' later images isPrefix archive
      refine ⟨.cons kept kepts, fun writable => ?_⟩
      rw [List.all_cons, Bool.and_eq_true] at writable
      obtain ⟨written, copy, isWritten, copyRep, same⟩ := storedAs writable.1
      obtain ⟨writtens, copies, areWritten, copiesRep, sames⟩ :=
        storedAll writable.2
      refine ⟨written :: writtens, copy :: copies, ?_, repKids_cons.mpr
        ⟨written, writtens, 0, 0, rfl, rfl, copyRep, copiesRep⟩,
        .cons same sames⟩
      rw [writtenPtrs, isWritten, areWritten]
      rfl

/-- `get_dirty_helper` stores what it copies. -/
theorem allows_kidStored
    {depth : Nat}
    {kid kid' : Kid (Tree h)}
    (deep : h ≤ depth)
    (within : ∀ recno offset node, fetchNode fetched recno offset = .ok node →
      fetchNode log recno offset = .ok node)
    (kidRep : KidRep (Rep fetched h) sptr kid cells)
    (owns : Owns heap (cells + frame))
    (flushed : flush recno h kid dirty.length = some (kid', count))
    (able : Able log h kid) :
    Allows (getDirtyHelper recno depth sptr dirty)
      (fun result _ => ∀ later images, result.2 <+: images →
        Archive log later recno images →
        KidStored log later h kid kid' result.1) heap := by
  induction h generalizing depth sptr cells heap frame dirty count with
  | zero =>
      cases flushed
      cases kid with
      | unloaded saved seen stored => exact kidRep.2.2.2.1.elim
      | loaded saved child =>
          obtain ⟨loaded, _, noSt, rfl⟩ := kidRep
          rw [allows_of_run (run_getDirtyHelper_skip (Or.inr noSt) _ _ _ _)]
          intro later images _ archive
          refine ⟨keptAs_refl archive.kept _, fun _ => ⟨sptr,
            .loaded none (), ?_, ⟨loaded, fun _ impossible => ?_, noSt, rfl⟩,
            fun _ _ _ _ _ => rfl⟩⟩
          · rw [writtenPtr, noSt, loaded]
            rfl
          · cases impossible
  | succ h inductionHypothesis =>
      cases kid with
      | unloaded saved seen stored =>
          cases flushed
          rw [allows_of_run (run_getDirtyHelper_skip (Or.inl kidRep.1) _ _ _
            _)]
          exact fun _ _ _ archive => kidStored_unloaded archive.kept within
            kidRep
      | loaded saved child =>
          obtain ⟨depth, rfl⟩ := Nat.exists_eq_add_of_le' deep
          have whole := kidRep
          obtain ⟨loaded, _, this, node, below, isSt, rfl, nodeRep⟩ := kidRep
          have owned := owns.of_eq (add_assoc _ _ _)
          rw [← Nat.add_assoc, getDirtyHelper_loaded loaded isSt,
            allows_run_bind (run_loadNode owned)]
          rcases flush_loaded.mp flushed with
            ⟨clean, rfl, _⟩ | ⟨isDirty, kids, last, isKids, writable, rfl, _⟩
          · rw [nodeRep.dirty, clean, if_neg Bool.false_ne_true, allows_pure]
            exact fun _ _ _ archive =>
              kidStored_clean archive.kept whole clean able
          · rw [nodeRep.dirty, isDirty, if_pos rfl]
            have each := fun {sptr : SubtreePtr} {kid kid' : Kid (Tree h)}
                {cells : Part} {heap : Heap} {frame : Part}
                {dirty : List FtNode} {count : Nat}
                (kidRep : KidRep (Rep fetched h) sptr kid cells)
                (owns : Owns heap (cells + frame))
                (flushed : flush recno h kid dirty.length =
                  some (kid', count)) =>
              kidFlushed (Nat.le_add_left h depth) kidRep owns flushed
            have slots := owned.of_eq (add_left_comm _ _ _)
            have stored := allows_kidsStored each
              (fun kidRep owns flushed able => inductionHypothesis
                (Nat.le_add_left _ _) kidRep owns flushed able)
              nodeRep.kids slots isKids (fun _ member =>
                able.kids isDirty member)
            obtain ⟨ptrs, new, next, below', run, _, length, kidsRep, owns',
              _⟩ := kidsFlushed each nodeRep.kids slots isKids
            obtain ⟨written, isWritten⟩ :=
              writtenPtrs_of_writable kidsRep writable
            have isLast : (dirty ++ new).length = last := by
              rw [List.length_append, length]
            rw [allows_run_bind run]
            dsimp only
            rw [allows_run_bind
              (run_storeNode (owns'.of_eq (add_left_comm _ _ _)) _),
              isWritten]
            refine allows_pure.mpr fun later images isPrefix archive => ?_
            obtain ⟨kept, storedAs⟩ := stored _ _ run later images
              ((List.prefix_append _ _).trans isPrefix) archive
            rw [← all_writable_flushKids isKids] at storedAs
            obtain ⟨written', copies, isWritten', copiesRep, same⟩ :=
              storedAs writable
            cases isWritten.symm.trans isWritten'
            have lengths := same.length_eq.symm
            rw [isLast] at isPrefix ⊢
            refine kidStored_dirty kept same isSt
              ⟨{ node with subtrees := written, dirty := false },
                archive.filed last _ ?_, rfl, ?_, nodeRep.height, ?_, ?_⟩
            · obtain ⟨rest, rfl⟩ := isPrefix
              rw [← isLast]
              simp
            · rw [Node.entries_withKids lengths]
              exact nodeRep.entries
            · exact (Node.dirty_withKids lengths).symm
            · rw [Node.kids_withKids lengths]
              exact copiesRep

/-- A checkpoint of a tree with a dirty root, in which no node is dirty below a
clean one: it stores nodes in order, and gives the same answers as the tree,
which stays as it should be. -/
theorem allows_getDirty_stored
    {fig : Fig}
    {this : Figtree}
    (sound : fig.Sound (partlyStored log))
    (within : ∀ recno offset node, fetchNode fetched recno offset = .ok node →
      fetchNode log recno offset = .ok node)
    (rep : FigRep fetched fig this cells)
    (owns : Owns heap (cells + 0))
    (isDirty : Node.dirty (C := Tree fig.height) fig.tree = true)
    (guard : this.noneLeft heap = true)
    (recno : Nat) :
    Allows (getDirty this recno)
      (fun nodes next => 0 < nodes.length ∧
        (∀ image ∈ nodes, EntriesOk image.entries) ∧
        ∃ tree' : Tree (fig.height + 1),
          Holds (FigRep fetched ⟨fig.height, tree'⟩ this) 0 next ∧
          ∀ later, Archive log later recno nodes →
            Fig.Sound (partlyStored later) ⟨fig.height, tree'⟩ ∧
            (∀ x, look (fig.height + 1) tree' x = fig.look x) ∧
            ∃ copy : Tree (fig.height + 1),
              Rep later (fig.height + 1)
                (.log (recno, (nodes.length - 1) * sizeofFtNode)) copy 0 ∧
              ∀ x, look (fig.height + 1) copy x = fig.look x) heap := by
  have visible : ∀ x, Visible 0 byteIndexMax x := fun x =>
    (Nat.lt_or_ge x byteIndexMax).imp_left fun below => ⟨Nat.zero_le x, below⟩
  have kid : SoundKid (partlyStored log) (fig.height + 1) 0 byteIndexMax
      (.loaded none fig.tree) := SoundKid.of_dirty sound isDirty none
  have onTop := Figtree.dirtyOnTop_of_noneLeft rep owns isDirty guard
  have kidRep := kidRep_root rep
  cases flushed : flush recno (fig.height + 1) (.loaded none fig.tree) 0 with
  | none =>
      intro nodes next run
      cases (getDirty_stuck rep owns flushed).symm.trans run
  | some result =>
      obtain ⟨kid', count⟩ := result
      rcases flush_loaded.mp flushed with
        ⟨isClean, _⟩ | ⟨_, kids, last, _, _, rfl, rfl⟩
      · cases isDirty.symm.trans isClean
      have stores := allows_kidStored le_rfl within kidRep owns
        (show flush recno (fig.height + 1) _ [].length = _ from flushed)
        ⟨⟨_, _, kid⟩, onTop⟩
      obtain ⟨sptr, nodes, next, cells', run, ⟨isSt, _, copied⟩, length,
        kidRep', owns', _⟩ := kidFlushed le_rfl kidRep owns
          (show flush recno (fig.height + 1) _ [].length = _ from flushed)
      have whole := rep
      obtain ⟨_, node, below, isRoot, rfl, nodeRep⟩ := rep
      cases isRoot
      rw [getDirty,
        allows_run_bind (run_loadNode (owns.of_eq (add_assoc _ _ _))),
        nodeRep.height, allows_run_bind run, allows_pure]
      have isCount : nodes.length = last + 1 := by simpa using length
      obtain ⟨_, isPosition, rep'⟩ := kidRep'
      rw [isSt] at rep'
      refine ⟨by rw [List.nil_append]; omega, fun image member => ?_,
        Node.withKids (C := Tree fig.height) fig.tree kids,
        ⟨cells', rep', owns'⟩, fun later archive => ?_⟩
      · obtain ⟨st, found, inside, entries, _⟩ := copied image member
        rw [entries]
        exact Sound.entriesOk rfl sound whole inside
      · obtain ⟨kept, storedAs⟩ := stores _ _ run later _ (List.prefix_rfl)
          archive
        obtain ⟨sound', same⟩ := kept 0 byteIndexMax kid
        obtain ⟨written, stored, isWritten, storedRep, copySame⟩ :=
          storedAs rfl
        refine ⟨sound'.1, fun x => same x (visible x), ?_⟩
        rw [writtenPtr, isSt] at isWritten
        cases isWritten
        cases stored with
        | loaded saved copy => cases storedRep.1
        | unloaded position seen copy =>
            obtain ⟨_, _, place, copyRep, _⟩ := storedRep
            refine ⟨copy, ?_, fun x => copySame 0 byteIndexMax kid x
              (visible x)⟩
            have isLast : ([] ++ nodes).length - 1 = last := by
              rw [List.nil_append, isCount, Nat.add_sub_cancel]
            rw [isLast, ← isPosition _ rfl]
            rwa [← place] at copyRep

end Stored

end FigTree
end Gdpfs
