import Gdpfs.FigTree.RoundTrip
import Gdpfs.FigTree.Runs
import Mathlib.Data.List.Induction

/-!
# Trees that are partly in the log

A tree that was opened from a checkpoint has its root in memory and reaches the
other nodes through their positions in the log.  Writes go through.  What
becomes of them depends on the children they follow, and whether the tree can be
checkpointed again on the children they leave alone.
-/

namespace Gdpfs
namespace FigTree

open Log Effect
open Cells (Owns Holds cell Store)

section Writes

variable {log : List LogRecord} {heap : Heap} {frame : Part} {fig : Fig}
  {this : Figtree} {calls : List WriteCall}

/-- Writes go through on a tree that is partly in the log. -/
theorem ensures_ftWrites_partly
    (sound : fig.Sound partlyLoaded)
    (holds : Holds (FigRep log fig this) frame heap)
    (below : CallsBelow byteIndexMax calls) :
    Ensures (ftWrites log this calls)
      (fun this' next => ∃ fig', fig'.Sound partlyLoaded ∧
        Holds (FigRep log fig' this') frame next) heap := by
  induction calls generalizing fig this heap with
  | nil => exact ensures_pure.mpr ⟨fig, sound, holds⟩
  | cons call calls inductionHypothesis =>
      obtain ⟨ends, upper⟩ := below call List.mem_cons_self
      rw [ftWrites, ensures_bind]
      refine (ensures_write sound holds ends upper
        (sound.edgeClear rfl ends upper le_rfl)
        (Or.inl partlyLoaded_trusting) call.value).mono ?_
      rintro this' next ⟨fig', sound', holds', _⟩
      exact inductionHypothesis sound' holds'
        fun other member => below other (List.mem_cons_of_mem _ member)

end Writes

/-! ## Checkpoints of re-opened trees -/

/-- A child pointer is in memory, or it was followed before. -/
def followedPtr (below : Addr → Bool) (sptr : SubtreePtr) : Bool :=
  if sptr.inmemory then
    match sptr.st with
    | none => true
    | some st => below st
  else sptr.st.isSome

/-- In every node that is dirty together with its ancestors, the child pointers
are in memory or were followed before. -/
def allFollowed (heap : Heap) : (depth : Nat) → Addr → Bool
  | 0, _ => true
  | depth + 1, this =>
      match heap.read this with
      | none => true
      | some node =>
          !node.dirty ||
            node.subtrees.all (followedPtr (allFollowed heap depth))

/-- The same from the root on. -/
def Figtree.allFollowed (this : Figtree) (heap : Heap) : Bool :=
  match heap.read this.root with
  | none => true
  | some node => FigTree.allFollowed heap (node.height + 1) this.root

section Followed

variable {log : List LogRecord} {heap : Heap} {frame : Part} {fig : Fig}
  {this : Figtree} {calls : List WriteCall} {h : Nat}

theorem all_eq_of_forall₂
    {first : α → Bool}
    {second : β → Bool}
    {items : List α}
    {others : List β}
    (same : List.Forall₂ (fun item other => first item = second other)
      items others) :
    items.all first = others.all second := by
  induction same with
  | nil => rfl
  | cons head _ tail => rw [List.all_cons, List.all_cons, head, tail]

/-- The pointers allow copies if they were followed. -/
theorem followedPtr_eq
    {kid : Kid (Tree h)}
    (kidRep : KidRep (Rep log h) sptr kid cells)
    (owns : Owns heap (cells + frame)) :
    followedPtr (allFollowed heap h) sptr =
      (kid.writable && flushable h kid) := by
  induction h generalizing sptr cells frame with
  | zero =>
      cases kid with
      | loaded saved child =>
          obtain ⟨loaded, _, noSt, _⟩ := kidRep
          rw [followedPtr, if_pos loaded, noSt]
          rfl
      | unloaded saved seen stored => exact kidRep.2.2.2.1.elim
  | succ h inductionHypothesis =>
      cases kid with
      | loaded saved child =>
          obtain ⟨loaded, _, st, node, below, isSt, rfl, nodeRep⟩ := kidRep
          have owned := owns.of_eq (add_assoc _ _ _)
          rw [followedPtr, if_pos loaded, isSt]
          dsimp only
          rw [allFollowed, owned.read]
          dsimp only
          rw [nodeRep.dirty, flushable, Kid.writable, Bool.true_and]
          congr 1
          refine all_eq_of_forall₂ (nodeRep.kids.forall₂ ?_)
          rintro sptr kid here others _ rfl kidRep
          exact inductionHypothesis kidRep
            (owned.drop.of_eq (add_assoc here others frame))
      | unloaded saved seen stored =>
          obtain ⟨unloaded, isSeen, _⟩ := kidRep
          rw [followedPtr, if_neg (by rw [unloaded]; exact
            Bool.false_ne_true), isSeen]
          exact (Bool.and_true _).symm

/-- A re-opened tree can be checkpointed after any sequence of writes exactly
if no node that is copied has a child pointer that is neither in memory nor was
followed; then every child that is not in memory keeps its position. -/
theorem getDirty_completes_iff
    (sound : fig.Sound partlyLoaded)
    (holds : Holds (FigRep log fig this) 0 heap)
    (calls : List WriteCall)
    (below : CallsBelow byteIndexMax calls)
    (recno : Nat) :
    Ensures (ftWrites log this calls)
      (fun this' next =>
        Ensures (getDirty this' recno)
          (fun nodes _ => ∀ image ∈ nodes, ∃ st node,
            next.read st = some node ∧ image.entries = node.entries ∧
            List.Forall₂ KeptPtr node.subtrees image.subtrees) next ↔
        this'.allFollowed next = true) heap := by
  refine (ensures_ftWrites_partly sound holds below).mono ?_
  rintro this' next ⟨fig', _, cells, rep, owns⟩
  have whole : this'.allFollowed next =
      flushable (fig'.height + 1) (.loaded none fig'.tree) := by
    have same := followedPtr_eq (kidRep_root rep) owns
    obtain ⟨_, node, beneath, isRoot, rfl, nodeRep⟩ := rep
    cases isRoot
    rw [Figtree.allFollowed, (owns.of_eq (add_assoc _ _ _)).read]
    dsimp only
    rw [nodeRep.height]
    exact same
  rw [whole, ← @flush_isSome recno _ _ 0]
  constructor
  · rintro ⟨nodes, after, run, _⟩
    cases flushed : flush recno (fig'.height + 1) (.loaded none fig'.tree)
        0 with
    | none =>
        rw [getDirty_stuck rep owns flushed] at run
        cases run
    | some result => rfl
  · intro able
    obtain ⟨⟨kid', count⟩, flushed⟩ := Option.isSome_iff_exists.mp able
    obtain ⟨saved, tree', rfl⟩ := flush_root flushed
    refine (ensures_getDirty rep owns flushed).mono ?_
    rintro nodes after ⟨_, _, copied, _⟩ image member
    obtain ⟨st, node, inside, entries, _, kept⟩ := copied image member
    exact ⟨st, node, owns.2 _ (Multiset.mem_add.mpr (Or.inl inside)),
      entries, kept⟩

end Followed

/-- A clean root over a leaf that is only in the log. -/
def reopenedHeap : Heap :=
  ⟨[some ⟨[⟨iInit 10 10, 2⟩], [⟨1, 0, none, false⟩, ⟨0, 0, some 1, true⟩], 1,
      false⟩,
    some (leafNode true 20 3)]⟩

/-- The tree in that heap. -/
def reopenedFig : Fig :=
  ⟨1, (⟨false, .unloaded (1, 0) false (leafTree false 0 1),
    [(⟨iInit 10 10, 2⟩, .loaded none (leafTree true 20 3))]⟩ :
      Node (Tree 1))⟩

theorem holds_reopenedFig :
    Holds (FigRep leafLog reopenedFig ⟨0⟩) 0 reopenedHeap := by
  refine ⟨cell 0 ⟨[⟨iInit 10 10, 2⟩], [⟨1, 0, none, false⟩,
      ⟨0, 0, some 1, true⟩], 1, false⟩ + (0 + cell 1 (leafNode true 20 3)),
    ⟨0, _, _, rfl, rfl, rfl, rfl, rfl, ?_⟩, ?_, ?_⟩
  · refine repKids_cons.mpr ⟨_, _, _, _, rfl, rfl, ?_, repKids_singleton ?_⟩
    · exact ⟨rfl, rfl, rfl, ⟨_, rfl, rfl, nodeRep_leafNode _ _ _ _⟩, rfl⟩
    · refine ⟨rfl, fun _ impossible => ?_, 1, _, 0, rfl, (add_zero _).symm,
        nodeRep_leafNode _ _ _ _⟩
      cases impossible
  · simp [cell]
  · simp [cell, reopenedHeap, Store.read]

theorem sound_leafTree
    (regime : Regime)
    (low high : Nat)
    (dirty : Bool)
    (value : Int)
    (below : x < regime.limit) :
    Sound regime 1 low high (leafTree dirty x value) :=
  ⟨by simp [leafTree, ftOrder],
    ⟨rfl, Nat.zero_le _, le_rfl, below, trivial⟩,
    ⟨trivial, rfl⟩, ⟨trivial, rfl⟩, trivial⟩

theorem sound_reopenedFig : reopenedFig.Sound partlyLoaded := by
  refine ⟨by simp [reopenedFig, ftOrder], ?_,
    ⟨sound_leafTree _ _ _ _ _ ?_, trivial⟩,
    ⟨sound_leafTree _ _ _ _ _ ?_, fun _ => trivial⟩, trivial⟩
  · exact ⟨rfl, by decide, le_rfl, by decide, trivial⟩
  all_goals decide

/-- A write below the leaf that is only in the log follows the pointer to
it. -/
theorem getDirty_completes_iff_followed :
    Ensures (ftWrites leafLog ⟨0⟩ [⟨0, 0, 9⟩])
      (fun this' next =>
        Ensures (getDirty this' 2)
          (fun nodes _ => ∀ image ∈ nodes, ∃ st node,
            next.read st = some node ∧ image.entries = node.entries ∧
            List.Forall₂ KeptPtr node.subtrees image.subtrees) next ↔
        this'.allFollowed next = true) reopenedHeap := by
  refine getDirty_completes_iff sound_reopenedFig holds_reopenedFig _ ?_ 2
  unfold CallsBelow
  decide

/-- The log with a checkpoint of the tree after some writes. -/
def chkptLog (calls : List WriteCall) : List LogRecord :=
  match outcome (do getDirty (← ftRun [] calls) 1) Store.empty with
  | some nodes =>
      [chkptRecord ⟨1, 420, .regular, .chkpt, -1, 0, magicNumber⟩ nodes]
  | none => []

/-- Five writes, which make a root with two leaves. -/
def fiveCalls : List WriteCall :=
  [⟨0, 0, 1⟩, ⟨10, 10, 2⟩, ⟨20, 20, 3⟩, ⟨30, 30, 4⟩, ⟨40, 40, 5⟩]

/-- After the tree is opened again, a write to the entry of its root follows no
pointer, and the next checkpoint fails its assertion. -/
theorem reopened_chkpt_fails :
    outcome (do
      let this ← openRoot (chkptLog fiveCalls) 1
      let this ← ftWrites (chkptLog fiveCalls) this [⟨20, 20, 9⟩]
      ftLookup (chkptLog fiveCalls) this 20) Store.empty = some (some 9) ∧
    outcome (do
      let this ← openRoot (chkptLog fiveCalls) 1
      let this ← ftWrites (chkptLog fiveCalls) this [⟨20, 20, 9⟩]
      getDirty this 2) Store.empty = none := by
  decide +kernel

/-! ## Copies answer alike -/

section Copies

variable {log : List LogRecord} {h : Nat}

/-- The nodes of the first of several trees can be told from what follows. -/
theorem views_append
    {tree other : Tree h}
    {rest rest' : List (Option NodeView)}
    (same : views h tree ++ rest = views h other ++ rest') :
    views h tree = views h other ∧ rest = rest' := by
  induction h generalizing rest rest' with
  | zero => exact ⟨rfl, List.cons.inj same |>.2⟩
  | succ h inductionHypothesis =>
      have below : ∀ {kids kids' : List (Kid (Tree h))},
          kids.length = kids'.length →
          (kids.flatMap fun kid => views h kid.get) ++ rest =
            (kids'.flatMap fun kid => views h kid.get) ++ rest' →
          (kids.flatMap fun kid => views h kid.get) =
            (kids'.flatMap fun kid => views h kid.get) ∧ rest = rest' := by
        intro kids
        induction kids with
        | nil =>
            intro kids' length same
            rw [List.length_eq_zero_iff.mp length.symm] at same ⊢
            exact ⟨rfl, same⟩
        | cons kid kids rest =>
            intro kids' length same
            cases kids' with
            | nil => cases length
            | cons kid' kids' =>
                rw [List.flatMap_cons, List.flatMap_cons, List.append_assoc,
                  List.append_assoc] at same
                obtain ⟨first, others⟩ := inductionHypothesis same
                obtain ⟨tail, final⟩ := rest (Nat.succ.inj length) others
                rw [List.flatMap_cons, List.flatMap_cons, first, tail]
                exact ⟨rfl, final⟩
      obtain ⟨head, tail⟩ := List.cons.inj same
      have parts := NodeView.mk.inj (Option.some.inj head)
      obtain ⟨kids, final⟩ := below parts.2.2 tail
      refine ⟨?_, final⟩
      rw [views, views, head, kids]

/-- Trees with the same nodes have the same entries, and children with the same
nodes. -/
theorem forall₂_of_views
    {tree other : Node (Tree h)}
    (same : views (h + 1) other = views (h + 1) tree) :
    other.entries = tree.entries ∧
      List.Forall₂ (fun kid kid' : Kid (Tree h) =>
        views h kid'.get = views h kid.get) tree.kids other.kids := by
  obtain ⟨head, tail⟩ := List.cons.inj same
  have parts := NodeView.mk.inj (Option.some.inj head)
  refine ⟨parts.2.1, ?_⟩
  have below : ∀ {kids kids' : List (Kid (Tree h))},
      kids'.length = kids.length →
      (kids'.flatMap fun kid => views h kid.get) =
        (kids.flatMap fun kid => views h kid.get) →
      List.Forall₂ (fun kid kid' : Kid (Tree h) =>
        views h kid'.get = views h kid.get) kids kids' := by
    intro kids
    induction kids with
    | nil =>
        intro kids' length _
        rw [List.length_eq_zero_iff.mp length]
        exact .nil
    | cons kid kids rest =>
        intro kids' length same
        cases kids' with
        | nil => cases length
        | cons kid' kids' =>
            obtain ⟨first, others⟩ := views_append same
            exact .cons first (rest (Nat.succ.inj length) others)
  exact below parts.2.2 tail

/-- Two scans over the same entries. -/
theorem lookIn_congr
    {answer : C → Option Int}
    {x : Nat}
    {first first' : Kid C}
    {rest rest' : List (FtEnt × Kid C)}
    (entries : rest'.map Prod.fst = rest.map Prod.fst)
    (kids : List.Forall₂ (fun kid kid' : Kid C =>
        answer kid'.get = answer kid.get)
      (first :: rest.map Prod.snd) (first' :: rest'.map Prod.snd)) :
    lookIn answer x first' rest' = lookIn answer x first rest := by
  induction rest generalizing first first' rest' with
  | nil =>
      cases rest' with
      | nil =>
          cases kids with
          | cons head _ => exact head
      | cons item rest' => cases entries
  | cons item rest inductionHypothesis =>
      cases rest' with
      | nil => cases entries
      | cons item' rest' =>
          obtain ⟨entry, next⟩ := item
          obtain ⟨entry', next'⟩ := item'
          obtain ⟨isEntry, others⟩ := List.cons.inj entries
          cases isEntry
          cases kids with
          | cons head tail =>
              simp only [lookIn, head, inductionHypothesis others tail]

/-- Trees with the same nodes give the same answers. -/
theorem look_of_views
    {tree other : Tree h}
    (same : views h other = views h tree)
    (x : Nat) :
    look h other x = look h tree x := by
  induction h with
  | zero => rfl
  | succ h inductionHypothesis =>
      obtain ⟨entries, kids⟩ := forall₂_of_views same
      exact lookIn_congr entries
        (kids.imp fun _ _ => inductionHypothesis)

theorem Ordered.congr
    {rest rest' : List (FtEnt × Kid C)}
    (ordered : Ordered low high rest)
    (entries : rest'.map Prod.fst = rest.map Prod.fst) :
    Ordered low high rest' := by
  induction rest generalizing low rest' with
  | nil =>
      rw [List.map_eq_nil_iff.mp entries]
      trivial
  | cons item rest inductionHypothesis =>
      cases rest' with
      | nil => cases entries
      | cons item' rest' =>
          obtain ⟨isEntry, others⟩ := List.cons.inj entries
          obtain ⟨flag, lower, ends, upper, tail⟩ := ordered
          rw [← isEntry] at flag lower ends upper tail
          exact ⟨flag, lower, ends, upper, inductionHypothesis tail others⟩

theorem highOf_congr
    {rest rest' : List (FtEnt × Kid C)}
    (entries : rest'.map Prod.fst = rest.map Prod.fst)
    (high : Nat) :
    highOf high rest' = highOf high rest := by
  cases rest with
  | nil => rw [List.map_eq_nil_iff.mp entries]
  | cons item rest =>
      cases rest' with
      | nil => cases entries
      | cons item' rest' =>
          obtain ⟨isEntry, _⟩ := List.cons.inj entries
          exact congrArg (fun entry : FtEnt => entry.irange.left) isEntry

theorem KidsRight.transfer
    {good good' : Nat → Nat → Kid C → Prop}
    {related : Kid C → Kid C → Prop}
    {rest rest' : List (FtEnt × Kid C)}
    (kids : KidsRight good high rest)
    (entries : rest'.map Prod.fst = rest.map Prod.fst)
    (each : List.Forall₂ related (rest.map Prod.snd) (rest'.map Prod.snd))
    (weaken : ∀ low high kid kid', related kid kid' → good low high kid →
      good' low high kid') :
    KidsRight good' high rest' := by
  induction rest generalizing rest' with
  | nil =>
      rw [List.map_eq_nil_iff.mp entries]
      trivial
  | cons item rest inductionHypothesis =>
      cases rest' with
      | nil => cases entries
      | cons item' rest' =>
          obtain ⟨isEntry, others⟩ := List.cons.inj entries
          cases each with
          | cons head tail =>
              obtain ⟨here, beyond⟩ := kids
              refine ⟨weaken _ _ _ _ head ?_,
                inductionHypothesis beyond others tail⟩
              rw [highOf_congr others, isEntry]
              exact here

/-- A node with the same entries, and children that are as good. -/
theorem NodeOk.transfer
    {good good' : Nat → Nat → Kid C → Prop}
    {related : Kid C → Kid C → Prop}
    {node node' : Node C}
    (ok : NodeOk limit good node)
    (entries : node'.entries = node.entries)
    (each : List.Forall₂ related node.kids node'.kids)
    (weaken : ∀ low high kid kid', related kid kid' → good low high kid →
      good' low high kid') :
    NodeOk limit good' node' := by
  refine ⟨?_, ok.ordered.congr entries, ?_⟩
  · have lengths := congrArg List.length entries
    simp only [Node.entries, List.length_map] at lengths
    rw [lengths]
    exact ok.count
  · obtain ⟨first, others⟩ := ok.kids
    cases each with
    | cons head tail =>
        refine ⟨weaken _ _ _ _ head ?_, others.transfer entries tail weaken⟩
        rw [highOf_congr entries]
        exact first

theorem RepKids.of_mem
    {rep : SubtreePtr → Kid C → Part → Prop}
    {kid : Kid C}
    (kids : RepKids rep ptrs children cells)
    (member : kid ∈ children) :
    ∃ sptr part, rep sptr kid part := by
  induction children generalizing ptrs cells with
  | nil => cases member
  | cons first children inductionHypothesis =>
      obtain ⟨sptr, ptrs, here, there, rfl, rfl, kidRep, tail⟩ :=
        repKids_cons.mp kids
      rcases List.mem_cons.mp member with rfl | rest
      · exact ⟨sptr, here, kidRep⟩
      · exact inductionHypothesis tail rest

/-- A child that is represented is sound where nothing is asked of the log. -/
theorem soundKid_of_rep
    {kid : Kid (Tree h)}
    (kidRep : KidRep (Rep log h) sptr kid cells)
    (sound : ∀ source part, Rep log h source kid.get part →
      Sound partlyLoaded h low high kid.get) :
    SoundKid partlyLoaded h low high kid := by
  cases kid with
  | loaded saved child =>
      refine ⟨sound _ _ kidRep.2.2, ?_⟩
      cases h with
      | zero => rfl
      | succ h => exact fun _ => trivial
  | unloaded saved seen stored =>
      refine ⟨sound _ _ kidRep.2.2.2.1, ?_⟩
      cases h with
      | zero => exact kidRep.2.2.2.1.elim
      | succ h => trivial

/-- A tree with the nodes of a sound tree is sound where nothing is asked of
the log. -/
theorem sound_of_views
    {regime : Regime}
    {low high : Nat}
    {source : Source}
    {tree other : Tree h}
    (limits : regime.limit = byteIndexMax)
    (sound : Sound regime h low high tree)
    (same : views h other = views h tree)
    (rep : Rep log h source other cells) :
    Sound partlyLoaded h low high other := by
  induction h generalizing low high source cells with
  | zero => trivial
  | succ h inductionHypothesis =>
      obtain ⟨entries, kids⟩ := forall₂_of_views same
      obtain ⟨node, below, nodeRep⟩ : ∃ node below,
          NodeRep (KidRep (Rep log h)) h node (other : Node (Tree h))
            below := by
        cases source with
        | memory ptr =>
            obtain ⟨_, node, below, _, _, nodeRep⟩ := rep
            exact ⟨node, below, nodeRep⟩
        | log position =>
            obtain ⟨node, _, _, nodeRep⟩ := rep
            exact ⟨node, 0, nodeRep⟩
      have good : ∀ first last (kid kid' : Kid (Tree h)),
          (kid' ∈ Node.kids (C := Tree h) other ∧
            views h kid'.get = views h kid.get) →
          SoundKid regime h (max low first) (min high last) kid →
          SoundKid partlyLoaded h (max low first) (min high last) kid' := by
        rintro first last kid kid' ⟨member, sameKid⟩ goodKid
        obtain ⟨sptr, part, kidRep⟩ := nodeRep.kids.of_mem member
        exact soundKid_of_rep kidRep fun source part kidRep =>
          inductionHypothesis goodKid.1 sameKid kidRep
      have each := ((List.forall₂_and_left _ _).mpr
        ⟨fun kid' (member : kid' ∈ Node.kids (C := Tree h) other) => member,
          kids.flip⟩).flip
      rw [Sound, limits] at sound
      exact NodeOk.transfer sound entries each good

end Copies

/-! ## Writing to a copy -/

/-- However the heap is read as a tree, the write meets no child that is not in
memory. -/
def WayLoaded
    (log : List LogRecord)
    (call : WriteCall)
    (this : Figtree)
    (heap : Heap) : Prop :=
  ∀ fig, fig.Sound partlyLoaded → Holds (FigRep log fig this) 0 heap →
    fig.wayLoaded (iInit call.start call.stop) = true

section Lazy

variable {log : List LogRecord} {heap other : Heap} {fig : Fig}
  {this : Figtree} {calls : List WriteCall}

theorem latest_cons (call : WriteCall) (calls : List WriteCall) (x : Nat) :
    latest (call :: calls) x =
      (latest calls x).or
        (if call.start ≤ x ∧ x ≤ call.stop then some call.value
        else none) := by
  induction calls using List.reverseRecOn with
  | nil =>
      rw [← List.nil_append [call], latest_concat]
      rfl
  | append_singleton calls last inductionHypothesis =>
      rw [← List.cons_append, latest_concat, latest_concat]
      split
      · rfl
      · exact inductionHypothesis

theorem or_covered
    (covered : Prop)
    [Decidable covered]
    (value old : Option Int) :
    (if covered then value else none).or old =
      if covered then value.or old else old := by
  by_cases inside : covered
  · rw [if_pos inside, if_pos inside]
  · rw [if_neg inside, if_neg inside]
    rfl

/-- Writes that follow children in memory only. -/
theorem ensures_ftWrites_loaded
    (sound : fig.Sound partlyLoaded)
    (holds : Holds (FigRep log fig this) 0 heap)
    (below : CallsBelow byteIndexMax calls)
    (ways : ∀ before call after, calls = before ++ call :: after →
      Allows (ftWrites log this before) (WayLoaded log call) heap) :
    Ensures (ftWrites log this calls)
      (fun this' next => ∃ fig', fig'.Sound partlyLoaded ∧
        Holds (FigRep log fig' this') 0 next ∧
        ∀ x, x < byteIndexMax →
          fig'.look x = (latest calls x).or (fig.look x)) heap := by
  induction calls generalizing fig this heap with
  | nil => exact ensures_pure.mpr ⟨fig, sound, holds, fun _ _ => rfl⟩
  | cons call calls inductionHypothesis =>
      obtain ⟨ends, upper⟩ := below call List.mem_cons_self
      have way := allows_pure.mp (ways [] call calls rfl) fig sound holds
      obtain ⟨this', next, run, fig', sound', holds', changes⟩ :=
        ensures_write sound holds ends upper
          (sound.edgeClear rfl ends upper le_rfl) (Or.inr way) call.value
      rw [ftWrites, ensures_run_bind run]
      refine (inductionHypothesis sound' holds' (fun other member =>
        below other (List.mem_cons_of_mem _ member)) ?_).mono ?_
      · rintro before other after rfl
        have rest := ways (call :: before) other after rfl
        rwa [ftWrites, allows_run_bind run] at rest
      · rintro last final ⟨fig'', sound'', holds'', answers⟩
        refine ⟨fig'', sound'', holds'', fun x inside => ?_⟩
        rw [answers x inside, changes way x inside, latest_cons,
          Option.or_assoc, or_covered]
        rfl

/-- Writes to a tree in memory. -/
theorem ensures_ftWrites_memory
    (sound : fig.Sound belowMax)
    (holds : Holds (FigRep log fig this) 0 heap)
    (below : CallsBelow byteIndexMax calls) :
    Ensures (ftWrites log this calls)
      (fun this' next => ∃ fig', fig'.Sound belowMax ∧
        Holds (FigRep log fig' this') 0 next ∧
        ∀ x, x < byteIndexMax →
          fig'.look x = (latest calls x).or (fig.look x)) heap := by
  induction calls generalizing fig this heap with
  | nil => exact ensures_pure.mpr ⟨fig, sound, holds, fun _ _ => rfl⟩
  | cons call calls inductionHypothesis =>
      obtain ⟨ends, upper⟩ := below call List.mem_cons_self
      obtain ⟨this', next, run, fig', sound', holds', changes⟩ :=
        ensures_write_eager id sound holds ends upper
          (sound.edgeClear rfl ends upper le_rfl) call.value
      rw [ftWrites, ensures_run_bind run]
      refine (inductionHypothesis sound' holds' fun other member =>
        below other (List.mem_cons_of_mem _ member)).mono ?_
      rintro last final ⟨fig'', sound'', holds'', answers⟩
      refine ⟨fig'', sound'', holds'', fun x inside => ?_⟩
      rw [answers x inside, changes x inside, latest_cons, Option.or_assoc,
        or_covered]
      rfl

/-- The latest writes of a run decide alike where the trees did. -/
theorem look_after_writes
    {fig' copy copy' : Fig}
    (sound : fig'.Sound belowMax)
    (soundCopy : copy'.Sound partlyLoaded)
    (answers : ∀ x, x < byteIndexMax →
      fig'.look x = (latest calls x).or (fig.look x))
    (answersCopy : ∀ x, x < byteIndexMax →
      copy'.look x = (latest calls x).or (copy.look x))
    (same : ∀ x, copy.look x = fig.look x)
    (x : Nat) :
    copy'.look x = fig'.look x := by
  by_cases inside : x < byteIndexMax
  · rw [answersCopy x inside, same x, answers x inside]
  · have past := Nat.le_of_not_lt inside
    exact (Sound.look_past soundCopy past).trans
      (Sound.look_past sound past).symm

/-- Writes to a copy that was opened from a checkpoint have the effect of the
same writes to the tree in memory, as long as they follow no child that is not
in memory. -/
theorem lazy_writes_agree
    {nodes : List FtNode}
    {copy : Tree (fig.height + 1)}
    (sound : fig.Sound belowMax)
    (holds : Holds (FigRep log fig this) 0 heap)
    (filed : recordAt log recno = some (chkptRecord header nodes))
    (nonempty : 0 < nodes.length)
    (stored : Rep log (fig.height + 1)
      (.log (recno, (nodes.length - 1) * sizeofFtNode)) copy 0)
    (same : views (fig.height + 1) copy = views (fig.height + 1) fig.tree)
    (below : CallsBelow byteIndexMax calls)
    (ways : ∀ before call after, calls = before ++ call :: after →
      Allows (do
        let root ← openRoot log recno
        ftWrites log root before) (WayLoaded log call) other)
    (x : Nat) :
    ∃ value,
      Ensures (do
        let this ← ftWrites log this calls
        ftLookup log this x) (fun found _ => found = value) heap ∧
      Ensures (do
        let root ← openRoot log recno
        let root ← ftWrites log root calls
        ftLookup log root x) (fun found _ => found = value) other := by
  obtain ⟨this', next, ran, fig', sound', ⟨cells, rep, owns⟩, answers⟩ :=
    ensures_ftWrites_memory sound holds below
  obtain ⟨root, opened, opens, holdsCopy⟩ :=
    ensures_openRoot filed stored nonempty (Owns.nothing other)
  have soundCopy : Fig.Sound partlyLoaded ⟨fig.height, copy⟩ :=
    sound_of_views rfl sound same stored
  have waysCopy : ∀ before call after, calls = before ++ call :: after →
      Allows (ftWrites log root before) (WayLoaded log call) opened := by
    intro before call after split
    have way := ways before call after split
    rwa [allows_run_bind opens] at way
  obtain ⟨root', next', ranCopy, copy', soundCopy', ⟨cells', rep', owns'⟩,
    answersCopy⟩ := ensures_ftWrites_loaded soundCopy holdsCopy below waysCopy
  have agree := look_after_writes sound' soundCopy' answers answersCopy
    (look_of_views same) x
  refine ⟨fig'.look x, ?_, ?_⟩
  · rw [ensures_run_bind ran]
    exact ensures_ftLookup rep owns x
  · rw [ensures_run_bind opens, ensures_run_bind ranCopy, ← agree]
    exact ensures_ftLookup rep' owns' x

end Lazy

/-- A stored root over two stored leaves. -/
def threeNodes : List FtNode :=
  [leafNode false 0 1, leafNode false 20 3,
    ⟨[⟨iInit 10 10, 2⟩], [⟨1, 0, none, false⟩,
      ⟨1, sizeofFtNode, none, false⟩], 1, false⟩]

/-- A log with a checkpoint of that tree. -/
def threeLog : List LogRecord :=
  [chkptRecord ⟨1, 420, .regular, .chkpt, -1, 0, magicNumber⟩ threeNodes]

/-- The tree in that checkpoint. -/
def threeTree : Tree 2 :=
  (⟨false, .unloaded (1, 0) false (leafTree false 0 1),
    [(⟨iInit 10 10, 2⟩,
      .unloaded (1, sizeofFtNode) false (leafTree false 20 3))]⟩ :
    Node (Tree 1))

theorem sound_mixedFig : mixedFig.Sound belowMax := by
  refine ⟨by simp [mixedFig, ftOrder], ?_,
    ⟨sound_leafTree _ _ _ _ _ ?_, fun _ => trivial⟩,
    ⟨sound_leafTree _ _ _ _ _ ?_, fun _ => trivial⟩, trivial⟩
  · exact ⟨rfl, by decide, le_rfl, by decide, trivial⟩
  all_goals decide

theorem rep_threeTree :
    Rep threeLog 2 (.log (1, (threeNodes.length - 1) * sizeofFtNode))
      threeTree 0 := by
  refine ⟨_, rfl, rfl, rfl, rfl, rfl, repKids_cons.mpr
    ⟨_, _, 0, 0, rfl, rfl, ?_, repKids_singleton ?_⟩⟩
  · exact ⟨rfl, rfl, rfl, ⟨_, rfl, rfl, nodeRep_leafNode _ _ _ _⟩, rfl⟩
  · exact ⟨rfl, rfl, rfl, ⟨_, rfl, rfl, nodeRep_leafNode _ _ _ _⟩, rfl⟩

/-- A write of the byte of its entry stays in the root. -/
theorem wayLoaded_threeTree :
    Allows (openRoot threeLog 1) (WayLoaded threeLog ⟨10, 10, 9⟩)
      Store.empty := by
  intro root heap opens fig sound holds
  obtain ⟨height, tree⟩ := fig
  cases opens
  obtain ⟨cells, ⟨_, node, below, isRoot, rfl, nodeRep⟩, owns⟩ := holds
  cases isRoot
  have live := (owns.of_eq (add_assoc _ _ _)).read
  cases live
  obtain rfl : 1 = height := nodeRep.height
  obtain ⟨dirty, first, rest⟩ := tree
  have entries : rest.map Prod.fst = [⟨iInit 10 10, 2⟩] := nodeRep.entries.symm
  cases rest with
  | nil => cases entries
  | cons item rest =>
      obtain ⟨entry, next⟩ := item
      obtain ⟨isEntry, none⟩ := List.cons.inj entries
      cases isEntry
      obtain rfl := List.map_eq_nil_iff.mp none
      rfl

/-- A write of the byte of its entry stays in the root, over two leaves that
are only in the log. -/
theorem lazy_writes_agree_root :
    ∃ value,
      Ensures (do
        let this ← ftWrites threeLog ⟨0⟩ [⟨10, 10, 9⟩]
        ftLookup threeLog this 10) (fun found _ => found = value)
        mixedHeap ∧
      Ensures (do
        let root ← openRoot threeLog 1
        let root ← ftWrites threeLog root [⟨10, 10, 9⟩]
        ftLookup threeLog root 10) (fun found _ => found = value)
        Store.empty := by
  have same : views 2 threeTree = views 2 mixedFig.tree := rfl
  refine lazy_writes_agree sound_mixedFig (holds_mixedFig _) rfl
    (by decide) rep_threeTree same ?_ ?_ 10
  · unfold CallsBelow
    decide
  · rintro before call after split
    have short := congrArg List.length split
    rw [List.length_singleton, List.length_append,
      List.length_cons] at short
    obtain rfl : before = [] := List.length_eq_zero_iff.mp (by omega)
    obtain ⟨rfl, _⟩ := List.cons.inj split
    exact wayLoaded_threeTree

/-- A write below a leaf that is only in the log is lost. -/
theorem lazy_write_is_lost :
    outcome (do
      let this ← ftRun [] fiveCalls
      let this ← ftWrites [] this [⟨0, 0, 9⟩]
      ftLookup [] this 0) Store.empty = some (some 9) ∧
    outcome (do
      let root ← openRoot (chkptLog fiveCalls) 1
      let root ← ftWrites (chkptLog fiveCalls) root [⟨0, 0, 9⟩]
      ftLookup (chkptLog fiveCalls) root 0) Store.empty =
      some (some 1) := by
  decide +kernel

end FigTree
end Gdpfs
