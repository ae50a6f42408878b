import Gdpfs.FigTree.Partly

/-!
# Incremental checkpoints

`get_dirty` copies the nodes that are dirty together with all their ancestors;
for the others the copies keep the pointers to what earlier checkpoints stored.
A write marks the nodes that it changes and not the way to them, so a clean node
may have dirty ones below it: these are not copied, and what was written there is
missing from the checkpoint.  If there are none, nothing is lost.
-/

namespace Gdpfs
namespace FigTree

open Log Effect
open Cells (Owns Holds cell Store)

/-! ## Other regimes -/

section Regimes

variable {regime regime' : Regime} {h low high : Nat}

/-- What one regime asks for, another one may ask for, too. -/
theorem Sound.weaken
    {tree : Tree h}
    (limits : regime'.limit = regime.limit)
    (partly : regime.partly → regime'.partly)
    (backs : ∀ {h low high saved} {tree : Tree h},
      regime.backs h low high saved tree → regime'.backs h low high saved tree)
    (sound : Sound regime h low high tree) :
    Sound regime' h low high tree := by
  induction h generalizing low high with
  | zero => trivial
  | succ h inductionHypothesis =>
      refine ⟨sound.count, ?_, ?_⟩
      · rw [limits]
        exact sound.ordered
      · rw [limits]
        refine sound.kids.imp ?_
        rintro first last kid ⟨kidSound, kidBacked⟩
        refine ⟨inductionHypothesis kidSound, ?_⟩
        cases h with
        | zero => exact kidBacked
        | succ h =>
            cases kid with
            | unloaded saved seen stored => exact partly kidBacked
            | loaded saved child => exact fun clean => backs (kidBacked clean)

theorem SoundKid.weaken
    {kid : Kid (Tree h)}
    (limits : regime'.limit = regime.limit)
    (partly : regime.partly → regime'.partly)
    (backs : ∀ {h low high saved} {tree : Tree h},
      regime.backs h low high saved tree → regime'.backs h low high saved tree)
    (sound : SoundKid regime h low high kid) :
    SoundKid regime' h low high kid := by
  refine ⟨sound.1.weaken limits partly backs, ?_⟩
  cases h with
  | zero => exact sound.2
  | succ h =>
      cases kid with
      | unloaded saved seen stored => exact partly sound.2
      | loaded saved child => exact fun clean => backs (sound.2 clean)

/-- A tree in memory can be flushed. -/
theorem SoundKid.flushable
    {kid : Kid (Tree h)}
    (eager : ¬regime.partly)
    (sound : SoundKid regime h low high kid) :
    FigTree.flushable h kid = true := by
  induction h generalizing low high with
  | zero => rfl
  | succ h inductionHypothesis =>
      cases kid with
      | unloaded saved seen stored => rfl
      | loaded saved child =>
          rw [FigTree.flushable, Bool.or_eq_true, List.all_eq_true]
          refine Or.inr fun kid member => ?_
          obtain ⟨low', high', good⟩ := KidsIn.exists_good sound.1.kids member
          have loaded := SoundKid.isLoaded good eager
          rw [inductionHypothesis good, Bool.and_true]
          cases kid with
          | loaded saved' child' => rfl
          | unloaded saved' seen' stored' => cases loaded

end Regimes

/-! ## Copies that agree where they are visible -/

/-- The log stores a copy of a tree that answers like it in a region. -/
def StoredLike
    (log : List LogRecord)
    (h low high : Nat)
    (saved : Option (Nat × Nat))
    (tree : Tree h) : Prop :=
  ∃ position copy, saved = some position ∧
    Rep log h (.log position) copy 0 ∧
    (∀ x, low ≤ x → x < high → look h copy x = look h tree x) ∧
    ∀ x, byteIndexMax ≤ x → look h copy x = none

/-- Trees in memory whose clean parts are stored. -/
def storedRegime (log : List LogRecord) : Regime where
  limit := byteIndexMax
  bounded := Nat.le_succ _
  partly := False
  backs := StoredLike log
  keep := by
    rintro h low high low' high' saved tree tree' agrees
      ⟨position, copy, isSaved, rep, same, past⟩
    refine ⟨position, copy, isSaved, rep, fun x lower upper => ?_, past⟩
    obtain ⟨lower', upper', looks⟩ := agrees x lower upper
    exact (same x lower' upper').trans looks

/-- Two scans over the same entries, where the children agree that are visible at
a byte. -/
theorem lookIn_region
    {answer : C → Option Int}
    {good : Nat → Nat → Kid C → Prop}
    {related : Kid C → Kid C → Prop}
    {first first' : Kid C}
    {rest rest' : List (FtEnt × Kid C)}
    (ordered : Ordered base limit rest)
    (kids : KidsIn good base limit first rest)
    (entries : rest'.map Prod.fst = rest.map Prod.fst)
    (each : List.Forall₂ related (first :: rest.map Prod.snd)
      (first' :: rest'.map Prod.snd))
    (agrees : ∀ low high kid kid', good low high kid → related kid kid' →
      low ≤ x ∧ x < high ∨ limit ≤ x → answer kid'.get = answer kid.get)
    (lower : base ≤ x) :
    lookIn answer x first' rest' = lookIn answer x first rest := by
  induction rest generalizing base first first' rest' with
  | nil =>
      rw [List.map_eq_nil_iff.mp entries] at each ⊢
      cases each with
      | cons head _ =>
          exact agrees _ _ _ _ kids.1 head
            ((Nat.lt_or_ge x limit).imp_left fun below => ⟨lower, below⟩)
  | cons item rest inductionHypothesis =>
      cases rest' with
      | nil => cases entries
      | cons item' rest' =>
          obtain ⟨entry, next⟩ := item
          obtain ⟨entry', next'⟩ := item'
          obtain ⟨isEntry, others⟩ := List.cons.inj entries
          cases isEntry
          obtain ⟨_, _, ends, upper, beyond⟩ := ordered
          cases each with
          | cons head tail =>
              by_cases past : entry.irange.right < x
              · rw [lookIn_past ends past, lookIn_past ends past]
                exact inductionHypothesis beyond kids.2 others tail past
              · by_cases inside : entry.irange.left ≤ x
                · rw [lookIn_inside inside (Nat.le_of_not_lt past),
                    lookIn_inside inside (Nat.le_of_not_lt past)]
                · have early : x < entry.irange.left := Nat.lt_of_not_le inside
                  have notInside : ¬iContainsVal entry.irange x = true := by
                    rw [iContainsVal_iff]
                    omega
                  rw [lookIn, lookIn, if_neg notInside, if_neg notInside,
                    if_pos early, if_pos early]
                  exact agrees _ _ _ _ kids.1 head (Or.inl ⟨lower, early⟩)

/-! ## Trees without dirty nodes below clean ones -/

/-- No node is dirty below a clean one. -/
def dirtyOnTop : (h : Nat) → Kid (Tree h) → Bool
  | 0, _ => true
  | _ + 1, .unloaded _ _ _ => true
  | h + 1, .loaded _ child =>
      if Node.dirty (C := Tree h) child then
        (Node.kids (C := Tree h) child).all (dirtyOnTop h)
      else allClean (h + 1) child

section OnTop

variable {log later : List LogRecord} {h low high : Nat}

theorem dirtyOnTop_loaded
    {child : Node (Tree h)} :
    dirtyOnTop (h + 1) (.loaded saved child) =
      if child.dirty then child.kids.all (dirtyOnTop h)
      else allClean (h + 1) child :=
  rfl

/-- The clean children of the nodes that are copied are stored. -/
theorem SoundKid.backs
    {kid : Kid (Tree h)}
    (sound : SoundKid (storedRegime log) h low high kid)
    (onTop : dirtyOnTop h kid = true) :
    Backs log h kid := by
  induction h generalizing low high with
  | zero => trivial
  | succ h inductionHypothesis =>
      cases kid with
      | unloaded saved seen stored => exact sound.2
      | loaded saved child =>
          have isOnTop := dirtyOnTop_loaded.symm.trans onTop
          refine backs_loaded.mpr ?_
          split at isOnTop
          · next isDirty =>
              rw [if_pos isDirty]
              intro kid member
              obtain ⟨_, _, good⟩ := KidsIn.exists_good sound.1.kids member
              exact inductionHypothesis good
                (List.all_eq_true.mp isOnTop kid member)
          · next isClean =>
              rw [if_neg isClean]
              obtain ⟨position, copy, isSaved, rep, _⟩ := sound.2 isOnTop
              exact ⟨position, copy, isSaved, rep⟩

/-- What a checkpoint stores of a child answers like the child where it is
visible. -/
theorem SoundKid.look_assembled
    {kid stored : Kid (Tree h)}
    (sound : SoundKid (storedRegime log) h low high kid)
    (onTop : dirtyOnTop h kid = true)
    (assembled : Assembled log h kid stored)
    (visible : low ≤ x ∧ x < high ∨ byteIndexMax ≤ x) :
    look h stored.get x = look h kid.get x := by
  induction h generalizing low high with
  | zero => rfl
  | succ h inductionHypothesis =>
      cases kid with
      | unloaded saved seen old => exact sound.2.elim
      | loaded saved child =>
          have isOnTop := dirtyOnTop_loaded.symm.trans onTop
          obtain ⟨position, copy, rfl, made⟩ := assembled_loaded.mp assembled
          split at isOnTop
          · next isDirty =>
              rw [if_pos isDirty] at made
              obtain ⟨_, entries, kids⟩ := made
              have each := (List.forall₂_and_left _ _).mpr
                ⟨List.all_eq_true.mp isOnTop, kids⟩
              refine lookIn_region sound.1.ordered sound.1.kids entries each ?_
                (Nat.zero_le x)
              rintro first last kid kid' good ⟨kidOnTop, kidAssembled⟩
                kidVisible
              refine inductionHypothesis good kidOnTop kidAssembled ?_
              rcases visible with ⟨lower, upper⟩ | past
              · exact kidVisible.imp_left fun inside =>
                  ⟨max_le lower inside.1, lt_min upper inside.2⟩
              · exact Or.inr past
          · next isClean =>
              rw [if_neg isClean] at made
              obtain ⟨same, rep⟩ := made
              cases same
              obtain ⟨_, copy', isSaved, rep', agrees, none⟩ := sound.2 isOnTop
              cases isSaved
              refine (look_of_views (stored_views rep' rep) x).trans ?_
              rcases visible with ⟨lower, upper⟩ | past
              · exact agrees x lower upper
              · exact (none x past).trans (sound.1.look_past past).symm

theorem StoredLike.kept
    {tree : Tree h}
    (kept : ∀ recno offset node, fetchNode log recno offset = .ok node →
      fetchNode later recno offset = .ok node)
    (stored : StoredLike log h low high saved tree) :
    StoredLike later h low high saved tree := by
  obtain ⟨position, copy, isSaved, rep, rest⟩ := stored
  exact ⟨position, copy, isSaved, rep.kept kept, rest⟩

/-- Longer logs store as much. -/
theorem Sound.kept
    {tree : Tree h}
    (kept : ∀ recno offset node, fetchNode log recno offset = .ok node →
      fetchNode later recno offset = .ok node)
    (sound : Sound (storedRegime log) h low high tree) :
    Sound (storedRegime later) h low high tree :=
  (@Sound.weaken (storedRegime log) (storedRegime later)) rfl id
    (StoredLike.kept kept) sound

theorem SoundKid.kept
    {kid : Kid (Tree h)}
    (kept : ∀ recno offset node, fetchNode log recno offset = .ok node →
      fetchNode later recno offset = .ok node)
    (sound : SoundKid (storedRegime log) h low high kid) :
    SoundKid (storedRegime later) h low high kid :=
  (@SoundKid.weaken (storedRegime log) (storedRegime later)) rfl id
    (StoredLike.kept kept) sound

/-- After a checkpoint everything that was copied is stored. -/
theorem SoundKid.refiled
    {kid kid' : Kid (Tree h)}
    (kept : ∀ recno offset node, fetchNode log recno offset = .ok node →
      fetchNode later recno offset = .ok node)
    (sound : SoundKid (storedRegime log) h low high kid)
    (onTop : dirtyOnTop h kid = true)
    (refiled : Refiled log later h kid kid') :
    SoundKid (storedRegime later) h low high kid' ∧
      views h kid'.get = views h kid.get := by
  induction h generalizing low high with
  | zero =>
      cases refiled
      exact ⟨sound, rfl⟩
  | succ h inductionHypothesis =>
      cases kid with
      | unloaded saved seen stored => exact sound.2.elim
      | loaded saved child =>
          have isOnTop := dirtyOnTop_loaded.symm.trans onTop
          have made := refiled_loaded.mp refiled
          split at isOnTop
          · next isDirty =>
              rw [if_pos isDirty] at made
              obtain ⟨position, copy, child', rfl, assembled, rep, _, entries,
                kids⟩ := made
              have known : ∀ kid ∈ child.kids,
                  (∃ low' high', SoundKid (storedRegime log) h
                    (max low low') (min high high') kid) ∧
                  dirtyOnTop h kid = true :=
                fun kid member => ⟨KidsIn.exists_good sound.1.kids member,
                  List.all_eq_true.mp isOnTop kid member⟩
              have each := (List.forall₂_and_left _ _).mpr ⟨known, kids⟩
              have seen : views (h + 1) child' = views (h + 1) child := by
                refine views_eq entries (each.imp ?_)
                rintro kid kid' ⟨⟨⟨_, _, good⟩, kidOnTop⟩, kidRefiled⟩
                exact (inductionHypothesis good kidOnTop kidRefiled).2
              refine ⟨⟨NodeOk.transfer sound.1 entries each ?_, fun _ => ?_⟩,
                seen⟩
              · rintro first last kid kid' ⟨⟨_, kidOnTop⟩, kidRefiled⟩ good
                exact (inductionHypothesis good kidOnTop kidRefiled).1
              · refine ⟨position, copy, rfl, rep, fun x lower upper => ?_,
                  fun x past => ?_⟩
                · exact (sound.look_assembled onTop assembled
                    (Or.inl ⟨lower, upper⟩)).trans (look_of_views seen x).symm
                · exact (sound.look_assembled onTop assembled
                    (Or.inr past)).trans (sound.1.look_past past)
          · next isClean =>
              rw [if_neg isClean] at made
              subst made
              exact ⟨sound.kept kept, rfl⟩

end OnTop

/-! ## The same in the heap -/

/-- What holds of a child in memory. -/
def throughPtr (below : Addr → Bool) (sptr : SubtreePtr) : Bool :=
  if sptr.inmemory then
    match sptr.st with
    | none => true
    | some st => below st
  else true

/-- A node in memory is clean with everything in memory below it. -/
def cleanBelow (heap : Heap) : (depth : Nat) → Addr → Bool
  | 0, _ => true
  | depth + 1, this =>
      match heap.read this with
      | none => true
      | some node =>
          !node.dirty && node.subtrees.all (throughPtr (cleanBelow heap depth))

/-- From a node on, no node in memory is dirty below a clean one. -/
def noneLeft (heap : Heap) : (depth : Nat) → Addr → Bool
  | 0, _ => true
  | depth + 1, this =>
      match heap.read this with
      | none => true
      | some node =>
          if node.dirty then
            node.subtrees.all (throughPtr (noneLeft heap depth))
          else cleanBelow heap (depth + 1) this

/-- A checkpoint leaves no node out that is dirty: the root is clean, so that
nothing is copied, or no node is dirty below a clean one. -/
def Figtree.noneLeft (this : Figtree) (heap : Heap) : Bool :=
  match heap.read this.root with
  | none => true
  | some node =>
      !node.dirty || FigTree.noneLeft heap (node.height + 1) this.root

/-- The same of a child that is a value. -/
def Kid.allClean : {h : Nat} → Kid (Tree h) → Bool
  | h, .loaded _ child => FigTree.allClean h child
  | _, .unloaded _ _ _ => true

section Heap

variable {log : List LogRecord} {heap : Heap} {frame : Part} {fig : Fig}
  {this : Figtree} {h : Nat}

theorem allClean_node
    (node : Node (Tree h)) :
    allClean (h + 1) node = (!node.dirty && node.kids.all Kid.allClean) := by
  change (_ && node.kids.all _) = _
  congr 2
  funext kid
  cases kid <;> rfl

theorem cleanBelow_eq
    {kid : Kid (Tree h)}
    (kidRep : KidRep (Rep log h) sptr kid cells)
    (owns : Owns heap (cells + frame)) :
    throughPtr (cleanBelow heap h) sptr = kid.allClean := by
  induction h generalizing sptr cells frame with
  | zero =>
      cases kid with
      | loaded saved child =>
          obtain ⟨loaded, _, noSt, _⟩ := kidRep
          rw [throughPtr, if_pos loaded, noSt]
          rfl
      | unloaded saved seen stored => exact kidRep.2.2.2.1.elim
  | succ h inductionHypothesis =>
      cases kid with
      | loaded saved child =>
          obtain ⟨loaded, _, st, node, below, isSt, rfl, nodeRep⟩ := kidRep
          have owned := owns.of_eq (add_assoc _ _ _)
          rw [throughPtr, if_pos loaded, isSt]
          dsimp only
          rw [cleanBelow, owned.read]
          dsimp only
          refine Eq.trans ?_ (allClean_node child).symm
          rw [nodeRep.dirty]
          congr 1
          refine all_eq_of_forall₂ (nodeRep.kids.forall₂ ?_)
          rintro sptr kid here others _ rfl kidRep
          exact inductionHypothesis kidRep
            (owned.drop.of_eq (add_assoc here others frame))
      | unloaded saved seen stored =>
          rw [throughPtr, if_neg (by rw [kidRep.1]; exact Bool.false_ne_true)]
          rfl

theorem noneLeft_eq
    {kid : Kid (Tree h)}
    (kidRep : KidRep (Rep log h) sptr kid cells)
    (owns : Owns heap (cells + frame)) :
    throughPtr (FigTree.noneLeft heap h) sptr = dirtyOnTop h kid := by
  induction h generalizing sptr cells frame with
  | zero =>
      cases kid with
      | loaded saved child =>
          obtain ⟨loaded, _, noSt, _⟩ := kidRep
          rw [throughPtr, if_pos loaded, noSt]
          rfl
      | unloaded saved seen stored => exact kidRep.2.2.2.1.elim
  | succ h inductionHypothesis =>
      cases kid with
      | loaded saved child =>
          have clean := cleanBelow_eq kidRep owns
          obtain ⟨loaded, _, st, node, below, isSt, rfl, nodeRep⟩ := kidRep
          have owned := owns.of_eq (add_assoc _ _ _)
          rw [throughPtr, if_pos loaded, isSt] at clean ⊢
          dsimp only at clean ⊢
          rw [noneLeft, owned.read]
          dsimp only
          rw [nodeRep.dirty, dirtyOnTop, clean]
          refine if_congr Iff.rfl ?_ rfl
          refine all_eq_of_forall₂ (nodeRep.kids.forall₂ ?_)
          rintro sptr kid here others _ rfl kidRep
          exact inductionHypothesis kidRep
            (owned.drop.of_eq (add_assoc here others frame))
      | unloaded saved seen stored =>
          rw [throughPtr, if_neg (by rw [kidRep.1]; exact Bool.false_ne_true)]
          rfl

/-- Nothing dirty is left out of the checkpoint of a dirty root. -/
theorem Figtree.dirtyOnTop_of_noneLeft
    (rep : FigRep log fig this cells)
    (owns : Owns heap (cells + frame))
    (isDirty : Node.dirty (C := Tree fig.height) fig.tree = true)
    (guard : this.noneLeft heap = true) :
    dirtyOnTop (fig.height + 1) (.loaded none fig.tree) = true := by
  have same := noneLeft_eq (kidRep_root rep) owns
  obtain ⟨_, node, below, isRoot, rfl, nodeRep⟩ := rep
  cases isRoot
  rw [Figtree.noneLeft, (owns.of_eq (add_assoc _ _ _)).read] at guard
  dsimp only at guard
  rw [nodeRep.dirty, isDirty, nodeRep.height] at guard
  exact same.symm.trans guard

end Heap

/-! ## Runs with checkpoints -/

/-- The states of a tree that stays in memory, with the log of its file:
writes below the last byte index, checkpoints that become records of the log,
and other records.  The guard holds whenever there is a checkpoint. -/
inductive ChkptReached (guard : Figtree → Heap → Bool) :
    List LogRecord → Figtree → Heap → Prop
  | init
      (run : ftInit.run Store.empty = .ok (this, heap)) :
      ChkptReached guard log this heap
  | write
      (reached : ChkptReached guard log this heap)
      (ends : start ≤ stop)
      (below : stop < byteIndexMax)
      (run : (ftWrite log this start stop value).run heap =
        .ok (this', heap')) :
      ChkptReached guard log this' heap'
  | chkpt
      (reached : ChkptReached guard log this heap)
      (allowed : guard this heap = true)
      (run : (getDirty this recno).run heap = .ok (nodes, heap'))
      (files : nodes = [] ∧ later = log ∨
        ∃ header, Files log later recno (chkptRecord header nodes)) :
      ChkptReached guard later this heap'
  | append
      (reached : ChkptReached guard log this heap)
      (grown : log <+: later) :
      ChkptReached guard later this heap

/-- Whenever a checkpoint has nodes, the tree that is opened from its record
gives the same answers as the tree in memory. -/
def LosesNothing
    (log : List LogRecord)
    (this : Figtree)
    (heap : Heap)
    (recno : Nat) : Prop :=
  Ensures (getDirty this recno)
    (fun nodes next => 0 < nodes.length → ∀ later header,
      Files log later recno (chkptRecord header nodes) → ∀ x, ∃ answer,
        Ensures (ftLookup log this x) (fun found _ => found = answer) heap ∧
        Ensures (ftLookup later this x) (fun found _ => found = answer)
          next ∧
        ∀ other,
          Ensures (do
            let root ← openRoot later recno
            ftLookup later root x) (fun found _ => found = answer) other)
    heap

section Runs

variable {log later : List LogRecord} {heap : Heap} {fig : Fig}
  {this : Figtree}

/-- One checkpoint: it gives the same answers as the tree, and all that is
clean afterwards is stored. -/
theorem ensures_getDirty_stored
    (sound : fig.Sound (storedRegime log))
    (rep : FigRep log fig this cells)
    (owns : Owns heap (cells + 0))
    (guard : this.noneLeft heap = true)
    (recno : Nat) :
    Ensures (getDirty this recno)
      (fun nodes next => ∃ tree' : Tree (fig.height + 1),
        Holds (FigRep log ⟨fig.height, tree'⟩ this) 0 next ∧
        ∀ later, Archive log later recno nodes →
          Fig.Sound (storedRegime later) ⟨fig.height, tree'⟩ ∧
          (∀ x, look (fig.height + 1) tree' x = fig.look x) ∧
          (0 < nodes.length → ∃ copy : Tree (fig.height + 1),
            Rep later (fig.height + 1)
              (.log (recno, (nodes.length - 1) * sizeofFtNode)) copy 0 ∧
            ∀ x, look (fig.height + 1) copy x = fig.look x)) heap := by
  cases isDirty : Node.dirty (C := Tree fig.height) fig.tree with
  | false =>
      have flushed : flush recno (fig.height + 1) (.loaded none fig.tree) 0 =
          some (.loaded none fig.tree, 0) :=
        flush_loaded.mpr (Or.inl ⟨isDirty, rfl, rfl⟩)
      refine (ensures_getDirty rep owns flushed).mono ?_
      rintro nodes next ⟨length, holds, _⟩
      refine ⟨fig.tree, holds, fun later archive =>
        ⟨Sound.kept archive.kept sound, fun _ => rfl, fun nonempty => ?_⟩⟩
      omega
  | true =>
      have kid := SoundKid.of_dirty sound isDirty none
      have onTop := Figtree.dirtyOnTop_of_noneLeft rep owns isDirty guard
      have able := kid.flushable id
      rw [← @flush_isSome recno _ _ 0] at able
      obtain ⟨⟨kid', count⟩, flushed⟩ := Option.isSome_iff_exists.mp able
      obtain ⟨saved, tree', rfl⟩ := flush_root flushed
      refine (ensures_getDirty rep owns flushed).mono ?_
      rintro nodes next ⟨length, holds, _, refiles⟩
      refine ⟨tree', holds, fun later archive => ?_⟩
      have refiled := refiles later archive (kid.backs onTop)
      obtain ⟨sound', seen⟩ := kid.refiled archive.kept onTop refiled
      refine ⟨sound'.1, look_of_views seen, fun _ => ?_⟩
      have made := refiled_loaded.mp refiled
      rw [if_pos isDirty] at made
      obtain ⟨position, copy, child', isKid', assembled, copyRep, _⟩ := made
      rcases flush_loaded.mp flushed with
        ⟨isClean, _⟩ | ⟨_, kids, last, _, _, isKid, isCount⟩
      · cases isDirty.symm.trans isClean
      · obtain ⟨rfl, _⟩ := Kid.loaded.inj isKid
        obtain ⟨isPosition, _⟩ := Kid.loaded.inj isKid'
        cases isPosition
        obtain rfl : last = nodes.length - 1 := by omega
        refine ⟨copy, copyRep, fun x => ?_⟩
        refine kid.look_assembled onTop assembled ?_
        exact (Nat.lt_or_ge x byteIndexMax).imp_left fun below =>
          ⟨Nat.zero_le x, below⟩

/-- In every such state the clean parts of the tree are stored. -/
theorem ChkptReached.stored
    (reached : ChkptReached Figtree.noneLeft log this heap) :
    ∃ fig : Fig, fig.Sound (storedRegime log) ∧
      Holds (FigRep log fig this) 0 heap := by
  induction reached with
  | @init _ _ log run =>
      have made := (@ensures_ftInit log) (Owns.nothing Store.empty)
      rw [ensures_of_run run] at made
      exact ⟨Fig.empty, Fig.empty_sound _, made⟩
  | @write _ _ _ _ _ value _ _ _ ends below run inductionHypothesis =>
      obtain ⟨fig, sound, holds⟩ := inductionHypothesis
      have written := ensures_write_eager id sound holds ends below
        (sound.edgeClear rfl ends below le_rfl) value
      rw [ensures_of_run run] at written
      obtain ⟨fig', sound', holds', _⟩ := written
      exact ⟨fig', sound', holds'⟩
  | @chkpt log _ _ recno nodes _ later _ allowed run files
      inductionHypothesis =>
      obtain ⟨fig, sound, cells, rep, owns⟩ := inductionHypothesis
      have copied := ensures_getDirty_stored sound rep owns allowed recno
      rw [ensures_of_run run] at copied
      obtain ⟨tree', ⟨cells', rep', owns'⟩, later'⟩ := copied
      have archive : Archive log later recno nodes := by
        rcases files with ⟨rfl, rfl⟩ | ⟨header, files⟩
        · refine ⟨fun _ _ _ => id, fun i node impossible => ?_⟩
          cases impossible
        · exact files.archive
      exact ⟨⟨fig.height, tree'⟩, (later' later archive).1, cells',
        rep'.kept archive.kept, owns'⟩
  | append _ grown inductionHypothesis =>
      obtain ⟨fig, sound, cells, rep, owns⟩ := inductionHypothesis
      exact ⟨fig, Sound.kept (fun _ _ _ => fetchNode_grow grown) sound, cells,
        rep.grow grown, owns⟩

/-- Incremental checkpoints lose nothing in a run all of whose checkpoints
leave out no node that is dirty: whenever one has nodes, the tree that is opened
from its record gives the same answers as the tree in memory. -/
theorem checkpoint_loses_nothing
    (reached : ChkptReached Figtree.noneLeft log this heap)
    (guard : this.noneLeft heap = true)
    (recno : Nat) :
    LosesNothing log this heap recno := by
  obtain ⟨fig, sound, cells, rep, owns⟩ := reached.stored
  refine (ensures_getDirty_stored sound rep owns guard recno).mono ?_
  rintro nodes next ⟨tree', ⟨cells', rep', owns'⟩, stored⟩ nonempty later
    header files x
  have archive := files.archive
  obtain ⟨_, memory, copied⟩ := stored later archive
  obtain ⟨copy, copyRep, agrees⟩ := copied nonempty
  refine ⟨fig.look x, ensures_ftLookup rep owns x, ?_, fun other => ?_⟩
  · have kept : FigRep later ⟨fig.height, tree'⟩ this cells' :=
      rep'.kept archive.kept
    refine (ensures_ftLookup kept owns' x).mono ?_
    rintro found _ rfl
    exact memory x
  · refine (ensures_openRoot files.filed copyRep nonempty
      (Owns.nothing other)).bind ?_
    rintro root opened ⟨held, heldRep, heldOwns⟩
    refine (ensures_ftLookup heldRep heldOwns x).mono ?_
    rintro found _ rfl
    exact agrees x

theorem Files.append
    (log : List LogRecord)
    (datum : LogRecord) :
    Files log (log ++ [datum]) (log.length + 1) datum where
  fresh := by
    intro old found
    rw [recordAt, if_neg (Nat.succ_ne_zero _), Nat.add_sub_cancel,
      List.getElem?_eq_none le_rfl] at found
    cases found
  kept := fun _ _ _ => recordAt_grow (List.prefix_append _ _)
  filed := by
    rw [recordAt, if_neg (Nat.succ_ne_zero _), Nat.add_sub_cancel,
      List.getElem?_concat_length]

theorem ChkptReached.writes
    {guard : Figtree → Heap → Bool}
    {calls : List WriteCall}
    (reached : ChkptReached guard log this heap)
    (below : CallsBelow byteIndexMax calls) :
    Allows (ftWrites log this calls) (ChkptReached guard log) heap := by
  induction calls generalizing this heap with
  | nil => exact allows_pure.mpr reached
  | cons call calls inductionHypothesis =>
      obtain ⟨ends, upper⟩ := below call List.mem_cons_self
      rw [ftWrites]
      refine Allows.bind (fun _ _ run => reached.write ends upper run) ?_
      exact fun this' next reached' => inductionHypothesis reached'
        fun other member => below other (List.mem_cons_of_mem _ member)

end Runs

/-- The header of the checkpoints of an example. -/
def chkptHeader : Fmeta := ⟨1, 420, .regular, .chkpt, -1, 0, magicNumber⟩

/-- Writes, a checkpoint, and other writes, with the log they leave. -/
def chkptBetween (calls others : List WriteCall) :
    FigM (List LogRecord × Figtree) := do
  let this ← ftRun [] calls
  let nodes ← getDirty this 1
  let log := [chkptRecord chkptHeader nodes]
  let this ← ftWrites log this others
  pure (log, this)

theorem reached_chkptBetween
    {guard : Figtree → Heap → Bool}
    {calls others : List WriteCall}
    (below : CallsBelow byteIndexMax (calls ++ others))
    (allowed : Allows (ftRun [] calls)
      (fun this heap => guard this heap = true) Store.empty) :
    Allows (chkptBetween calls others)
      (fun found heap => ChkptReached guard found.1 found.2 heap)
      Store.empty := by
  have made : Allows ftInit (ChkptReached guard []) Store.empty :=
    fun _ _ run => ChkptReached.init run
  have first : Allows (ftRun [] calls) (ChkptReached guard []) Store.empty :=
    made.bind fun this next reached => reached.writes fun call member =>
      below call (List.mem_append_left _ member)
  refine (first.and allowed).bind ?_
  rintro this heap ⟨reached, guarded⟩
  have filed : Allows (getDirty this 1)
      (fun nodes next => ChkptReached guard [chkptRecord chkptHeader nodes]
        this next) heap :=
    fun nodes next run => reached.chkpt guarded run
      (Or.inr ⟨chkptHeader, Files.append [] _⟩)
  refine filed.bind fun nodes next reached => ?_
  refine (reached.writes fun call member =>
    below call (List.mem_append_right _ member)).bind ?_
  exact fun this' last reached => allows_pure.mpr reached

/-- Seventeen writes, which make a tree of three levels. -/
def manyCalls : List WriteCall :=
  (List.range 17).map fun i => ⟨10 * i, 10 * i + 5, i + 1⟩

/-- A write to a leaf and one to the entry of the root. -/
def twoCalls : List WriteCall := [⟨0, 5, 100⟩, ⟨80, 85, 200⟩]

/-- The second checkpoint leaves the leaf out: the node above it is clean. -/
theorem outcome_chkptBetween :
    outcome (do
      let (log, this) ← chkptBetween manyCalls twoCalls
      let nodes ← getDirty this 2
      let later := log ++ [chkptRecord chkptHeader nodes]
      let memory ← ftLookup later this 3
      let root ← openRoot later 2
      let rebuilt ← ftLookup later root 3
      pure (log.length, nodes.length, memory, rebuilt)) Store.empty =
      some (1, 1, some 100, some 1) := by
  decide +kernel

/-- Not every checkpoint of a tree that stays in memory gives its answers. -/
theorem incremental_checkpoint_loses_write :
    ∃ log this heap, ChkptReached (fun _ _ => true) log this heap ∧
      ¬LosesNothing log this heap 2 := by
  have ran := ensures_of_outcome outcome_chkptBetween
  obtain ⟨⟨log, this⟩, heap, run, ran⟩ := ensures_bind.mp ran
  have reached := @reached_chkptBetween (fun _ _ => true) manyCalls twoCalls
    (by unfold CallsBelow; decide) (fun _ _ _ => rfl) _ _ run
  refine ⟨log, this, heap, reached, fun whole => ?_⟩
  obtain ⟨nodes, next, copied, ran⟩ := ensures_bind.mp ran
  obtain ⟨memory, after, looked, ran⟩ := ensures_bind.mp ran
  obtain ⟨root, opened, opens, ran⟩ := ensures_bind.mp ran
  obtain ⟨rebuilt, last, found, ran⟩ := ensures_bind.mp ran
  obtain ⟨isLog, isNodes, isMemory, isRebuilt⟩ : log.length = 1 ∧
      nodes.length = 1 ∧ memory = some 100 ∧ rebuilt = some 1 := by
    simpa using ensures_pure.mp ran
  have files := Files.append log (chkptRecord chkptHeader nodes)
  rw [isLog] at files
  rw [LosesNothing, ensures_of_run copied] at whole
  obtain ⟨answer, _, atMemory, atRebuilt⟩ :=
    whole (by omega) _ chkptHeader files 3
  rw [ensures_of_run looked] at atMemory
  have atRebuilt := atRebuilt after
  rw [ensures_run_bind opens, ensures_of_run found] at atRebuilt
  rw [← atMemory, isMemory, isRebuilt] at atRebuilt
  cases atRebuilt

/-- A write to a leaf and one to the root over it. -/
theorem outcome_chkptBetween_onTop :
    outcome (do
      let this ← ftRun [] fiveCalls
      pure (this.noneLeft (← get))) Store.empty = some true ∧
    outcome (do
      let (_, this) ← chkptBetween fiveCalls [⟨0, 0, 9⟩, ⟨20, 20, 9⟩]
      let heap ← get
      let nodes ← getDirty this 2
      pure (this.noneLeft heap, nodes.length)) Store.empty =
      some (true, 2) := by
  decide +kernel

/-- The second checkpoint copies the root and one of its leaves, and refers to
the first one for the other. -/
theorem checkpoint_loses_nothing_twice :
    ∃ log this heap, ChkptReached Figtree.noneLeft log this heap ∧
      Ensures (getDirty this 2) (fun nodes _ => nodes.length = 2) heap ∧
      LosesNothing log this heap 2 := by
  obtain ⟨first, second⟩ := outcome_chkptBetween_onTop
  have allowed : Allows (ftRun [] fiveCalls)
      (fun this heap => this.noneLeft heap = true) Store.empty := by
    intro this heap run
    have ran := ensures_of_outcome first
    rw [ensures_run_bind run] at ran
    obtain ⟨_, _, read, ran⟩ := ensures_bind.mp ran
    cases read
    rwa [ensures_pure] at ran
  obtain ⟨⟨log, this⟩, heap, run, ran⟩ :=
    ensures_bind.mp (ensures_of_outcome second)
  have reached := reached_chkptBetween (by unfold CallsBelow; decide) allowed
    _ _ run
  obtain ⟨_, _, read, ran⟩ := ensures_bind.mp ran
  cases read
  obtain ⟨nodes, next, copied, ran⟩ := ensures_bind.mp ran
  rw [ensures_pure] at ran
  obtain ⟨guard, length⟩ := Prod.mk.inj ran
  exact ⟨log, this, heap, reached, (ensures_of_run copied).mpr length,
    checkpoint_loses_nothing reached guard 2⟩

end FigTree
end Gdpfs
