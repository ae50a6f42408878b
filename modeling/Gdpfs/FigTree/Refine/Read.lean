import Gdpfs.FigTree.Shape

/-!
# Iterating in the heap

Iteration over a tree reads the heap and changes no more of it than the slots
of children that are fetched from the log, so the tree is described here
without ownership.  Each state of an iterator stands for
the figs it still has to yield from its node; those of all states, from the
innermost one outwards, are what the iterator has left.
-/

namespace Gdpfs
namespace FigTree

open Log Effect
open Cells (Owns Holds cell Store)

/-! ## Trees that are only read -/

/-- Where a child pointer leads. -/
def SubtreePtr.source (sptr : SubtreePtr) : Source :=
  if sptr.inmemory then .memory sptr.st else .log (sptr.recno, sptr.offset)

/-- The node at the top of a tree; `partly` says whether it may be left in the
log. -/
def Source.Finds
    (partly : Prop)
    (log : List LogRecord)
    (heap : Heap)
    (node : FtNode) : Source → Prop
  | .memory ptr => ∃ this, ptr = some this ∧ heap.read this = some node
  | .log position =>
      partly ∧ fetchNode log position.1 position.2 = .ok node

/-- The tree that can be read from a source. -/
def Seen (partly : Prop) (log : List LogRecord) (heap : Heap) :
    (h : Nat) → Source → Tree h → Prop
  | 0, source, _ => source = .memory none
  | h + 1, source, tree =>
      ∃ node, source.Finds partly log heap node ∧ node.height = h ∧
        node.entries = Node.entries (C := Tree h) tree ∧
        List.Forall₂ (fun source kid =>
            Seen partly log heap h source (Kid.get kid))
          (node.subtrees.map SubtreePtr.source)
          (Node.kids (C := Tree h) tree)

/-- The child that can be read from a source. -/
def SeenKid
    (partly : Prop)
    (log : List LogRecord)
    (heap : Heap)
    (h : Nat)
    (source : Source)
    (kid : Kid (Tree h)) : Prop :=
  Seen partly log heap h source kid.get

/-- Reading a tree may leave fetched nodes in the slots of children that are
not in memory, and changes nothing else. -/
structure Kept (partly : Prop) (heap next : Heap) : Prop where
  same : ¬partly → next = heap
  nodes : ∀ this node, heap.read this = some node → ∃ subtrees,
    next.read this = some { node with subtrees := subtrees } ∧
      subtrees.map SubtreePtr.source =
        node.subtrees.map SubtreePtr.source

section Kept

variable {partly : Prop} {log : List LogRecord} {heap next after : Heap}

theorem Kept.refl (partly : Prop) (heap : Heap) : Kept partly heap heap :=
  ⟨fun _ => rfl, fun _ node live => ⟨node.subtrees, live, rfl⟩⟩

theorem Kept.trans
    (first : Kept partly heap next)
    (second : Kept partly next after) :
    Kept partly heap after := by
  constructor
  · intro whole
    exact (second.same whole).trans (first.same whole)
  · intro this node live
    obtain ⟨subtrees, live', sources⟩ := first.nodes this node live
    obtain ⟨subtrees', live'', sources'⟩ := second.nodes this _ live'
    exact ⟨subtrees', live'', sources'.trans sources⟩

theorem Source.Finds.keep
    {source : Source}
    (kept : Kept partly heap next)
    (finds : source.Finds partly log heap node) :
    ∃ node', source.Finds partly log next node' ∧
      node'.height = node.height ∧ node'.entries = node.entries ∧
      node'.subtrees.map SubtreePtr.source =
        node.subtrees.map SubtreePtr.source := by
  cases source with
  | memory ptr =>
      obtain ⟨this, rfl, live⟩ := finds
      obtain ⟨subtrees, live', sources⟩ := kept.nodes this node live
      exact ⟨_, ⟨this, rfl, live'⟩, rfl, rfl, sources⟩
  | log position => exact ⟨node, finds, rfl, rfl, rfl⟩

theorem Seen.keep
    {h : Nat}
    {source : Source}
    {tree : Tree h}
    (kept : Kept partly heap next)
    (seen : Seen partly log heap h source tree) :
    Seen partly log next h source tree := by
  induction h generalizing source with
  | zero => exact seen
  | succ h inductionHypothesis =>
      obtain ⟨node, finds, height, entries, kids⟩ := seen
      obtain ⟨node', finds', height', entries', sources⟩ := finds.keep kept
      refine ⟨node', finds', height'.trans height, entries'.trans entries, ?_⟩
      rw [sources]
      exact kids.imp fun source kid => inductionHypothesis

/-- Going down to a child, which may have to be fetched. -/
theorem ensures_subtreeGet_seen
    {h : Nat}
    {source : Source}
    {tree : Tree h}
    (live : heap.read this = some node)
    (slot : (node.subtrees.map SubtreePtr.source)[i]? = some source)
    (seen : Seen partly log heap h source tree) :
    Ensures (subtreeGet log this i)
      (fun ptr next => Kept partly heap next ∧
        Seen partly log next h (.memory ptr) tree) heap := by
  rw [List.getElem?_map, Option.map_eq_some_iff] at slot
  obtain ⟨sptr, slot, rfl⟩ := slot
  have owns := Owns.of_read live
  cases loaded : sptr.inmemory with
  | true =>
      rw [ensures_of_run (run_subtreeGet slot loaded owns)]
      rw [SubtreePtr.source, if_pos loaded] at seen
      exact ⟨Kept.refl partly heap, seen⟩
  | false =>
      rw [SubtreePtr.source, loaded, if_neg Bool.false_ne_true] at seen
      cases h with
      | zero => cases seen
      | succ h =>
          obtain ⟨fetched, ⟨isPartly, fetches⟩, height, entries, kids⟩ := seen
          have fresh := owns.alloc fetched
          have apart := fresh.ne
          have kept : Kept partly heap
              ((heap.alloc fetched).write this { node with
                subtrees := node.subtrees.set i
                  { sptr with st := some heap.fresh } }) := by
            refine ⟨fun whole => absurd isPartly whole, ?_⟩
            intro other node' live'
            by_cases same : other = this
            · cases same
              cases live.symm.trans live'
              refine ⟨_, Store.read_write_self
                (Store.read_alloc_of_live live fetched) _, ?_⟩
              refine List.ext_getElem? fun k => ?_
              rw [List.map_set, List.getElem?_set]
              split
              · next isIndex =>
                  obtain ⟨bound, isSlot⟩ := List.getElem?_eq_some_iff.mp slot
                  simp [← isIndex, bound, isSlot, SubtreePtr.source, loaded]
              · rfl
            · refine ⟨node'.subtrees, ?_, rfl⟩
              rw [Store.read_write_of_ne _ _ same]
              exact Store.read_alloc_of_live live' fetched
          rw [subtreeGet, ensures_run_bind (run_loadNode owns), slot]
          simp only [loaded, Bool.false_eq_true, if_false]
          rw [fetches, ensures_run_bind (run_lift_ok _ _),
            ensures_run_bind (run_memAlloc _ _),
            ensures_run_bind (run_storeNode (fresh.of_eq (add_comm _ _)) _),
            ensures_pure]
          rw [loaded] at kept
          refine ⟨kept, fetched, ⟨heap.fresh, rfl, ?_⟩, height, entries,
            kids.imp fun source kid => Seen.keep kept⟩
          rw [Store.read_write_of_ne _ _ apart]
          exact Store.read_alloc_fresh heap fetched

end Kept

section Seen

variable {partly : Prop} {log : List LogRecord} {regime : Regime}
  {heap : Heap}

theorem RepKids.forall₂
    {rep : SubtreePtr → Kid C → Part → Prop}
    {seen : SubtreePtr → Kid C → Prop}
    (kids : RepKids rep ptrs children cells)
    (each : ∀ sptr kid here others, kid ∈ children →
      cells = here + others → rep sptr kid here → seen sptr kid) :
    List.Forall₂ seen ptrs children := by
  induction children generalizing ptrs cells with
  | nil =>
      obtain ⟨rfl, _⟩ := repKids_nil.mp kids
      exact List.Forall₂.nil
  | cons kid children inductionHypothesis =>
      obtain ⟨sptr, ptrs, here, there, rfl, rfl, kidRep, tail⟩ :=
        repKids_cons.mp kids
      refine List.Forall₂.cons
        (each sptr kid here there List.mem_cons_self rfl kidRep)
        (inductionHypothesis tail fun sptr' kid' part others member split
          kidRep' => ?_)
      refine each sptr' kid' part (here + others)
        (List.mem_cons_of_mem _ member) ?_ kidRep'
      rw [split]
      exact add_left_comm _ _ _

/-- A sound tree that is represented can be read. -/
theorem seen_of_sound
    {h low high : Nat}
    {source : Source}
    {tree : Tree h}
    (sound : Sound regime h low high tree)
    (rep : Rep log h source tree cells)
    (owns : Owns heap (cells + frame))
    (mayFetch : ∀ position, source = .log position → regime.partly) :
    Seen regime.partly log heap h source tree := by
  induction h generalizing low high source cells frame with
  | zero =>
      cases source with
      | memory ptr => exact congrArg Source.memory rep.1
      | log position => exact rep.elim
  | succ h inductionHypothesis =>
      obtain ⟨node, below, rest, finds, nodeRep, owns⟩ : ∃ node below rest,
          source.Finds regime.partly log heap node ∧
            NodeRep (KidRep (Rep log h)) h node (tree : Node (Tree h)) below ∧
            Owns heap (below + rest) := by
        cases source with
        | memory ptr =>
            obtain ⟨this, node, below, rfl, rfl, nodeRep⟩ := rep
            have owned := owns.of_eq (add_assoc _ _ _)
            exact ⟨node, below, frame, ⟨this, rfl, owned.read⟩, nodeRep,
              owned.drop⟩
        | log position =>
            obtain ⟨node, fetches, rfl, nodeRep⟩ := rep
            exact ⟨node, 0, frame, ⟨mayFetch position rfl, fetches⟩, nodeRep,
              owns⟩
      refine ⟨node, finds, nodeRep.height, nodeRep.entries, ?_⟩
      rw [List.forall₂_map_left_iff]
      refine nodeRep.kids.forall₂ ?_
      rintro sptr kid here others isKid rfl kidRep
      obtain ⟨low', high', good⟩ := sound.kids.exists_good isKid
      have owned := owns.of_eq (add_assoc here others rest)
      cases kid with
      | loaded saved child =>
          obtain ⟨loaded, _, childRep⟩ := kidRep
          rw [SubtreePtr.source, if_pos loaded]
          exact inductionHypothesis good.1 childRep owned (by simp)
      | unloaded saved seen stored =>
          obtain ⟨unloaded, _, isSaved, childRep, rfl⟩ := kidRep
          rw [SubtreePtr.source, unloaded, if_neg Bool.false_ne_true, isSaved]
          refine inductionHypothesis good.1 childRep owned fun _ _ => ?_
          cases h with
          | zero => exact childRep.elim
          | succ h => exact good.2

theorem Sound.sorted
    {h low high : Nat}
    {tree : Tree h}
    (sound : Sound regime h low high tree) :
    Sorted h tree := by
  induction h generalizing low high with
  | zero => trivial
  | succ h inductionHypothesis =>
      refine ⟨sound.ordered.mono le_rfl regime.bounded, ?_⟩
      intro kid isKid
      obtain ⟨low', high', good⟩ := sound.kids.exists_good isKid
      exact inductionHypothesis good.1

end Seen

/-! ## Scanning a node -/

/-- A valid interval of an iterator state. -/
structure Interval.Proper (valid : Interval) : Prop where
  flag : valid.nonempty = true
  ends : valid.left ≤ valid.right
  bounded : valid.right ≤ byteIndexMax

section Scan

theorem forall₂_append_right
    {related : α → β → Prop}
    (all : List.Forall₂ related items (first ++ second)) :
    ∃ before after, List.Forall₂ related before first ∧
      List.Forall₂ related after second ∧ items = before ++ after := by
  refine ⟨items.take first.length, items.drop first.length, ?_, ?_,
    (List.take_append_drop _ _).symm⟩
  · simpa using List.forall₂_take_append items first second all
  · simpa using List.forall₂_drop_append items first second all

variable {valid : Interval} {rest : List (FtEnt × Kid C)} {base top : Nat}

theorem Ordered.reaches
    (ordered : Ordered base top rest)
    (first : ∀ entry next tail, rest = (entry, next) :: tail →
      bound ≤ entry.irange.right) :
    ∀ entry ∈ rest.map Prod.fst, bound ≤ entry.irange.right := by
  cases rest with
  | nil => exact nofun
  | cons head rest =>
      have here := first head.1 head.2 rest rfl
      intro entry member
      rcases List.mem_cons.mp member with rfl | inRest
      · exact here
      · have := ordered.2.2.2.2.entries.1 entry inRest
        omega

/-- Skipping the entries left of the valid interval ends where pruning stops
dropping them. -/
theorem skipLeft_spec
    (valid : Interval)
    (kid : Kid C)
    (rest : List (FtEnt × Kid C))
    (pos : Nat) :
    ∃ before passed,
      rest.map Prod.fst =
          before ++ (pruneBefore valid kid rest).2.map Prod.fst ∧
        kid :: rest.map Prod.snd =
          passed ++ (pruneBefore valid kid rest).1 ::
            (pruneBefore valid kid rest).2.map Prod.snd ∧
        passed.length = before.length ∧
        skipLeft valid (rest.map Prod.fst) pos = pos + before.length ∧
        ∀ entry ∈ before, entry.irange.right < valid.left := by
  induction rest generalizing kid pos with
  | nil => exact ⟨[], [], rfl, rfl, rfl, rfl, nofun⟩
  | cons head rest inductionHypothesis =>
      obtain ⟨entry, next⟩ := head
      unfold pruneBefore
      rw [List.map_cons, skipLeft]
      dsimp only
      by_cases early : iLeftOfInt entry.irange valid = true
      · rw [if_pos early, if_pos early]
        obtain ⟨before, passed, entries, kids, lengths, skips, lefts⟩ :=
          inductionHypothesis next (pos + 1)
        refine ⟨entry :: before, kid :: passed,
          congrArg (entry :: ·) entries, congrArg (kid :: ·) kids,
          congrArg (· + 1) lengths, ?_, ?_⟩
        · rw [skips, List.length_cons]
          omega
        · intro other member
          rcases List.mem_cons.mp member with rfl | inBefore
          · exact (iLeftOfInt_iff.mp early).2
          · exact lefts other inBefore
      · rw [if_neg early, if_neg early]
        exact ⟨[], [], rfl, rfl, rfl, rfl, nofun⟩

/-- The scan of `ft_read` stops at the same entry. -/
theorem scanRead_eq
    (proper : valid.Proper)
    (ordered : Ordered base top rest)
    (kid : Kid C)
    (pos : Nat) :
    scanRead valid.left (rest.map Prod.fst) pos =
      match (pruneBefore valid kid rest).2 with
      | [] => .past
      | (entry, _) :: _ =>
          if iLeftOverlaps valid entry.irange then
            .contains (skipLeft valid (rest.map Prod.fst) pos)
          else .rightOf (skipLeft valid (rest.map Prod.fst) pos) := by
  induction rest generalizing base kid pos with
  | nil => rfl
  | cons head rest inductionHypothesis =>
      obtain ⟨entry, next⟩ := head
      obtain ⟨flag, _, ends, _, beyond⟩ := ordered
      unfold pruneBefore
      rw [List.map_cons, scanRead, skipLeft]
      dsimp only
      by_cases early : iLeftOfInt entry.irange valid = true
      · have before := (iLeftOfInt_iff.mp early).2
        have notInside : ¬iContainsVal entry.irange valid.left = true := by
          rw [iContainsVal_iff]
          omega
        have notAfter : ¬iRightOfVal entry.irange valid.left = true := by
          simp only [iRightOfVal, Bool.and_eq_true, decide_eq_true_eq]
          omega
        rw [if_pos early, if_pos early, if_neg notInside, if_neg notAfter]
        exact inductionHypothesis beyond next (pos + 1)
      · rw [if_neg early, if_neg early]
        dsimp only
        have reaches : valid.left ≤ entry.irange.right := by
          by_contra short
          exact early (iLeftOfInt_iff.mpr ⟨flag, Nat.lt_of_not_le short⟩)
        by_cases starts : entry.irange.left ≤ valid.left
        · have inside : iContainsVal entry.irange valid.left = true :=
            iContainsVal_iff.mpr ⟨starts, reaches⟩
          have overlaps : iLeftOverlaps valid entry.irange = true :=
            iLeftOverlaps_iff.mpr ⟨proper.flag, starts, reaches⟩
          rw [if_pos inside, if_pos overlaps]
        · have outside : ¬iContainsVal entry.irange valid.left = true := by
            rw [iContainsVal_iff]
            omega
          have after : iRightOfVal entry.irange valid.left = true := by
            simp only [iRightOfVal, Bool.and_eq_true, decide_eq_true_eq]
            exact ⟨flag, by omega⟩
          have misses : ¬iLeftOverlaps valid entry.irange = true := by
            rw [iLeftOverlaps_iff]
            omega
          rw [if_neg outside, if_pos after, if_neg misses]

/-- The valid interval of the child in a gap around its left end. -/
theorem restrict_gap
    {before : List FtEnt}
    (proper : valid.Proper)
    (ordered : Ordered base byteIndexEnd rest)
    (lefts : ∀ entry ∈ before, entry.irange.right < valid.left)
    (starts : valid.left < highOf byteIndexEnd rest)
    (index : pos = before.length) :
    ∃ valid', iRestrictRange valid
        (gapLeft (before ++ rest.map Prod.fst) pos)
        (gapRight (before ++ rest.map Prod.fst) pos) false = .ok valid' ∧
      valid'.Proper ∧ valid'.left = valid.left ∧
      valid'.right + 1 =
        min (valid.right + 1) (highOf (valid.right + 1) rest) := by
  obtain ⟨flag, ends, bounded⟩ := proper
  have leftLimit : gapLeft (before ++ rest.map Prod.fst) pos ≤
      valid.left := by
    subst index
    rcases List.eq_nil_or_concat before with rfl | ⟨front, entry, rfl⟩
    · exact Nat.zero_le _
    · have early := lefts entry (by simp)
      have limit : gapLeft (front.concat entry ++ rest.map Prod.fst)
          (front.concat entry).length = succ32 entry.irange.right := by
        simp [gapLeft]
      rw [limit, succ32_of_lt (by omega)]
      omega
  have rightLimit : gapRight (before ++ rest.map Prod.fst) pos + 1 =
      highOf byteIndexEnd rest := by
    rw [gapRight_eq before rest index]
    exact gapHigh_eq ordered le_rfl starts
  have keeps : max valid.left
      (gapLeft (before ++ rest.map Prod.fst) pos) ≤ min valid.right
      (gapRight (before ++ rest.map Prod.fst) pos) := by omega
  refine ⟨_, iRestrictRange_of_le keeps, ⟨flag, keeps, ?_⟩, ?_, ?_⟩
  · simp only
    omega
  · exact max_eq_left leftLimit
  · simp only
    cases rest with
    | nil =>
        simp only [highOf_nil, byteIndexEnd] at rightLimit ⊢
        omega
    | cons head rest =>
        simp only [highOf] at rightLimit ⊢
        omega

end Scan

/-! ## States -/

/-- A state whose node, of height `h`, has these entries and children left. -/
structure StateRep
    (partly : Prop)
    (log : List LogRecord)
    (heap : Heap)
    (h : Nat)
    (rs : FigtreeIterstate)
    (rest : List (FtEnt × Kid (Tree h))) : Prop where
  proper : rs.valid.Proper
  ordered : Ordered 0 byteIndexEnd rest
  sorted : ∀ kid ∈ rest.map Prod.snd, Sorted h kid.get
  reaches : ∀ entry ∈ rest.map Prod.fst, rs.valid.left ≤ entry.irange.right
  node : ∃ this node before passed ptrs,
    rs.node = some this ∧ heap.read this = some node ∧
      node.entries = before ++ rest.map Prod.fst ∧
      rs.pos = before.length ∧
      node.subtrees.map SubtreePtr.source = passed ++ ptrs ∧
      passed.length = rs.pos + 1 ∧
      List.Forall₂ (SeenKid partly log heap h) ptrs (rest.map Prod.snd)

/-- The figs that a state has left to yield. -/
def figsLeft
    {h : Nat}
    (valid : Interval)
    (rest : List (FtEnt × Kid (Tree h))) : List FtEnt :=
  figsRest (figsOf h) valid.left (valid.right + 1) rest

/-- The states of an iterator over a tree of height `top`, the innermost one
in a node of height `h`, have these figs left. -/
inductive StackRep
    (partly : Prop)
    (log : List LogRecord)
    (heap : Heap)
    (top : Nat) :
    (h : Nat) → List FigtreeIterstate → List FtEnt → Prop
  | nil : StackRep partly log heap top (top + 1) [] []
  | cons
      {h : Nat}
      {rest : List (FtEnt × Kid (Tree h))}
      (state : StateRep partly log heap h rs rest)
      (outer : StackRep partly log heap top (h + 1) states figs) :
      StackRep partly log heap top h (rs :: states) (figsLeft rs.valid rest ++ figs)

section States

variable {partly : Prop} {log : List LogRecord} {heap next : Heap}
  {top h : Nat} {valid : Interval} {rest : List (FtEnt × Kid (Tree h))}

theorem StackRep.length_eq
    (stack : StackRep partly log heap top h states figs) :
    states.length + h = top + 1 := by
  induction stack with
  | nil => exact Nat.zero_add _
  | cons state outer inductionHypothesis =>
      rw [List.length_cons]
      omega

theorem StateRep.keep
    (kept : Kept partly heap next)
    (state : StateRep partly log heap h rs rest) :
    StateRep partly log next h rs rest := by
  obtain ⟨this, node, before, passed, ptrs, isNode, live, entries, index,
    subtrees, count, seen⟩ := state.node
  obtain ⟨subtrees', live', sources⟩ := kept.nodes this node live
  exact
    { proper := state.proper
      ordered := state.ordered
      sorted := state.sorted
      reaches := state.reaches
      node := ⟨this, _, before, passed, ptrs, isNode, live', entries, index,
        sources.trans subtrees, count,
        seen.imp fun source kid => Seen.keep kept⟩ }

theorem StackRep.keep
    (kept : Kept partly heap next)
    (stack : StackRep partly log heap top h states figs) :
    StackRep partly log next top h states figs := by
  induction stack with
  | nil => exact .nil
  | cons state outer inductionHypothesis =>
      exact .cons (state.keep kept) inductionHypothesis

theorem StateRep.spread
    (state : StateRep partly log heap h rs rest)
    (ordered : Ordered base byteIndexEnd rest) :
    Spread (max base rs.valid.left) (rs.valid.right + 1)
      (figsLeft rs.valid rest) :=
  spread_figsRest ordered fun kid member =>
    (state.sorted kid member).spread

/-- Entering a node: the state that skips the entries left of the valid
interval, and the child in the gap before it. -/
theorem Seen.enter
    {tree : Tree (h + 1)}
    (seen : Seen partly log heap (h + 1) (.memory ptr) tree)
    (sorted : Sorted (h + 1) tree)
    (proper : valid.Proper) :
    ∃ this node before passed sptr ptrs kid rest,
      pruneBefore valid (Node.first (C := Tree h) tree)
          (Node.rest (C := Tree h) tree) = (kid, rest) ∧
        ptr = some this ∧ heap.read this = some node ∧
        node.entries = (Node.rest (C := Tree h) tree).map Prod.fst ∧
        node.entries = before ++ rest.map Prod.fst ∧
        skipLeft valid node.entries 0 = before.length ∧
        (∀ entry ∈ before, entry.irange.right < valid.left) ∧
        node.subtrees.map SubtreePtr.source = passed ++ sptr :: ptrs ∧
        before.length = passed.length ∧
        SeenKid partly log heap h sptr kid ∧ Sorted h kid.get ∧
        StateRep partly log heap h ⟨ptr, before.length, valid⟩ rest ∧
        figsOf (h + 1) valid.left (valid.right + 1) tree =
          figsOf h valid.left (min (valid.right + 1)
              (highOf (valid.right + 1) rest)) kid.get ++
            figsLeft valid rest := by
  obtain ⟨node, ⟨this, rfl, live⟩, _, entries, kids⟩ := seen
  obtain ⟨ordered, each⟩ := sorted
  obtain ⟨before, passedKids, entriesSplit, kidsSplit, lengths, skips,
    lefts⟩ := skipLeft_spec valid (Node.first (C := Tree h) tree)
      (Node.rest (C := Tree h) tree) 0
  obtain ⟨keptOrdered, first⟩ := pruneBefore_ordered
    ordered
  have reaches := keptOrdered.reaches first
  have figs := (@figsRest_pruneBefore _ _ _ _ valid.left (valid.right + 1))
    ordered
    (fun kid member => (each kid member).spread) rfl
  generalize pruneBefore valid (Node.first (C := Tree h) tree)
    (Node.rest (C := Tree h) tree) = kept at *
  obtain ⟨kid, rest⟩ := kept
  have kidsShape : Node.kids (C := Tree h) tree =
      passedKids ++ kid :: rest.map Prod.snd := kidsSplit
  rw [kidsShape] at kids each
  obtain ⟨passed, others, passedSeen, othersSeen, subtrees⟩ :=
    forall₂_append_right kids
  obtain ⟨sptr, ptrs, kidSeen, restSeen, rfl⟩ :=
    List.forall₂_cons_right_iff.mp othersSeen
  have passedLength := passedSeen.length_eq
  have nodeEntries : node.entries = before ++ rest.map Prod.fst :=
    entries.trans entriesSplit
  refine ⟨this, node, before, passed, sptr, ptrs, kid, rest, rfl, rfl, live,
    entries, nodeEntries, ?_, lefts, subtrees, by omega, kidSeen,
    each kid (by simp), ?_, figs⟩
  · rw [entries]
    exact skips.trans (Nat.zero_add _)
  · exact
      { proper := proper
        ordered := keptOrdered
        sorted := fun other member => each other (by simp [member])
        reaches := reaches
        node := ⟨this, node, before, passed ++ [sptr], ptrs, rfl, live,
          nodeEntries, rfl, by rw [subtrees]; simp, by simp; omega,
          restSeen⟩ }

end States

/-! ## Going down -/

section Down

variable {partly : Prop} {log : List LogRecord} {heap : Heap} {top h : Nat}
  {valid oldvalid : Interval} {tree : Tree h}

theorem ensures_ftiDrill
    (seen : Seen partly log heap h (.memory ptr) tree)
    (sorted : Sorted h tree)
    (fits : h ≤ room)
    (restricts : iRestrictRange oldvalid leftlimit rightlimit false =
      .ok valid)
    (proper : valid.Proper)
    (stack : StackRep partly log heap top h states figs) :
    Ensures (ftiDrill log room ptr leftlimit rightlimit oldvalid states)
      (fun states' next => Kept partly heap next ∧ ∃ h',
        StackRep partly log next top h' states'
          (figsOf h valid.left (valid.right + 1) tree ++ figs)) heap := by
  induction h generalizing room ptr leftlimit rightlimit oldvalid valid
      states figs heap with
  | zero =>
      cases seen
      have done : ftiDrill log room none leftlimit rightlimit oldvalid
          states = pure states := by
        cases room <;> rfl
      rw [done, ensures_pure]
      exact ⟨Kept.refl partly heap, 0, stack⟩
  | succ h inductionHypothesis =>
      obtain ⟨room, rfl⟩ := Nat.exists_eq_add_of_le' fits
      obtain ⟨this, node, before, passed, sptr, ptrs, kid, rest, _, rfl, live,
        _, entries, skips, lefts, subtrees, index, kidSeen, kidSorted, state,
        split⟩ := seen.enter sorted proper
      have owns := Owns.of_read live
      have grown := StackRep.cons state stack
      have down : valid.left < highOf byteIndexEnd rest →
          Ensures (do
              let next ← subtreeGet log this before.length
              ftiDrill log (room + h) next (gapLeft node.entries before.length)
                (gapRight node.entries before.length) valid
                (⟨some this, before.length, valid⟩ :: states))
            (fun states' next => Kept partly heap next ∧ ∃ h',
              StackRep partly log next top h' states'
                (figsOf (h + 1) valid.left (valid.right + 1) tree ++ figs))
            heap := by
        intro starts
        obtain ⟨valid', restricts', proper', sameLeft, rightEnd⟩ :=
          restrict_gap proper state.ordered lefts starts rfl
        rw [← entries] at restricts'
        refine Ensures.bind (ensures_subtreeGet_seen live
          (by rw [subtrees, index]; simp) kidSeen) ?_
        rintro next after ⟨kept, nextSeen⟩
        rw [split, List.append_assoc, ← rightEnd, ← sameLeft]
        refine (inductionHypothesis nextSeen kidSorted (Nat.le_add_left _ _)
          restricts' proper' (grown.keep kept)).mono ?_
        rintro states' final ⟨kept', stack'⟩
        exact ⟨kept.trans kept', stack'⟩
      rw [← Nat.add_assoc, ftiDrill, restricts,
        ensures_run_bind (run_lift_ok valid heap),
        ensures_run_bind (run_loadNode owns)]
      dsimp only
      rw [skips]
      cases rest with
      | nil =>
          have slot : node.entries[before.length]? = none := by
            rw [entries]
            simp
          rw [slot]
          exact down (Nat.lt_succ_of_le (proper.ends.trans proper.bounded))
      | cons head rest =>
          obtain ⟨entry, next⟩ := head
          have slot : node.entries[before.length]? = some entry := by
            rw [entries]
            simp
          rw [slot]
          dsimp only
          by_cases overlaps : iLeftOverlaps valid entry.irange = true
          · rw [if_pos overlaps, ensures_pure]
            have inside := (iLeftOverlaps_iff.mp overlaps).2
            have noKid := (kidSorted.spread valid.left
              (min (valid.right + 1) entry.irange.left)).eq_nil (by omega)
            rw [highOf_cons, noKid, List.nil_append] at split
            rw [split]
            exact ⟨Kept.refl partly heap, h, grown⟩
          · rw [if_neg overlaps]
            refine down ?_
            have reaches := state.reaches entry List.mem_cons_self
            rw [iLeftOverlaps_iff] at overlaps
            by_contra early
            exact overlaps ⟨proper.flag, Nat.le_of_not_lt early, reaches⟩

/-- The states that `ft_read` arrives at: those of an iterator, with at most a
null pointer on top. -/
def ReadStack
    (partly : Prop)
    (log : List LogRecord)
    (heap : Heap)
    (top : Nat)
    (states : List FigtreeIterstate)
    (figs : List FtEnt) : Prop :=
  ∃ h, StackRep partly log heap top h states figs ∨
    ∃ rs outer, states = rs :: outer ∧ rs.node = none ∧
      StackRep partly log heap top h outer figs

theorem ensures_ftReadDown
    (seen : Seen partly log heap h (.memory ptr) tree)
    (sorted : Sorted h tree)
    (fits : h < room)
    (proper : valid.Proper)
    (isStart : start = valid.left)
    (stack : StackRep partly log heap top h outer figs) :
    Ensures (ftReadDown log start room (ftIterstateInit ptr valid) outer)
      (fun states next => Kept partly heap next ∧
        ReadStack partly log next top states
          (figsOf h valid.left (valid.right + 1) tree ++ figs)) heap := by
  induction h generalizing room ptr valid outer figs heap with
  | zero =>
      cases seen
      obtain ⟨room, rfl⟩ := Nat.exists_eq_add_of_le' fits
      rw [ftReadDown]
      simp only [ftIterstateInit]
      rw [ensures_pure]
      exact ⟨Kept.refl partly heap, 0, Or.inr ⟨_, outer, rfl, rfl, stack⟩⟩
  | succ h inductionHypothesis =>
      obtain ⟨room, rfl⟩ := Nat.exists_eq_add_of_le' fits
      have ordered := sorted.1
      obtain ⟨this, node, before, passed, sptr, ptrs, kid, rest, kept, rfl,
        live, listed, entries, skips, lefts, subtrees, index, kidSeen,
        kidSorted, state, split⟩ := seen.enter sorted proper
      have owns := Owns.of_read live
      have grown := StackRep.cons state stack
      have scanned := scanRead_eq proper ordered
        (Node.first (C := Tree h) tree) 0
      rw [kept, ← listed, skips, ← isStart] at scanned
      have down : valid.left < highOf byteIndexEnd rest →
          Ensures (do
              let next ← ftReadPush log node.entries this
                (ftIterstateInit (some this) valid) before.length
              ftReadDown log start (room + (h + 1)) next
                (⟨some this, before.length, valid⟩ :: outer))
            (fun states next => Kept partly heap next ∧
              ReadStack partly log next top states
                (figsOf (h + 1) valid.left (valid.right + 1) tree ++ figs))
            heap := by
        intro starts
        obtain ⟨valid', restricts', proper', sameLeft, rightEnd⟩ :=
          restrict_gap proper state.ordered lefts starts rfl
        rw [← entries] at restricts'
        rw [ftReadPush, bind_assoc]
        refine Ensures.bind (ensures_subtreeGet_seen live
          (by rw [subtrees, index]; simp) kidSeen) ?_
        rintro next after ⟨kept, nextSeen⟩
        simp only [ftIterstateInit, restricts', bind_assoc, pure_bind]
        rw [ensures_run_bind (run_lift_ok valid' after), split,
          List.append_assoc, ← rightEnd, ← sameLeft]
        refine (inductionHypothesis nextSeen kidSorted (Nat.le_add_left _ _)
          proper' (isStart.trans sameLeft.symm) (grown.keep kept)).mono ?_
        rintro states final ⟨kept', stack'⟩
        exact ⟨kept.trans kept', stack'⟩
      rw [show room + (h + 1).succ = room + (h + 1) + 1 from rfl, ftReadDown]
      simp only [ftIterstateInit]
      rw [ensures_run_bind (run_loadNode owns)]
      cases rest with
      | nil =>
          rw [scanned]
          dsimp only
          have whole : node.entries.length = before.length := by
            rw [entries]
            simp
          rw [whole]
          exact down (Nat.lt_succ_of_le (proper.ends.trans proper.bounded))
      | cons head rest =>
          obtain ⟨entry, next⟩ := head
          rw [scanned]
          dsimp only
          by_cases overlaps : iLeftOverlaps valid entry.irange = true
          · rw [if_pos overlaps]
            dsimp only
            rw [ensures_pure]
            have inside := (iLeftOverlaps_iff.mp overlaps).2
            have noKid := (kidSorted.spread valid.left
              (min (valid.right + 1) entry.irange.left)).eq_nil (by omega)
            rw [highOf_cons, noKid, List.nil_append] at split
            rw [split]
            exact ⟨Kept.refl partly heap, h, Or.inl grown⟩
          · rw [if_neg overlaps]
            dsimp only
            refine down ?_
            have reaches := state.reaches entry List.mem_cons_self
            rw [iLeftOverlaps_iff] at overlaps
            by_contra early
            exact overlaps ⟨proper.flag, Nat.le_of_not_lt early, reaches⟩

end Down

/-! ## Backtracking and yielding -/

/-- The states of an iterator between two calls: none when it is past its last
fig, and else with the next fig at the position of the innermost one. -/
inductive Ready
    (partly : Prop)
    (log : List LogRecord)
    (heap : Heap)
    (top : Nat) :
    List FigtreeIterstate → List FtEnt → Prop
  | past : Ready partly log heap top [] []
  | here
      {h : Nat}
      {next : Kid (Tree h)}
      {rest : List (FtEnt × Kid (Tree h))}
      (state : StateRep partly log heap h rs ((entry, next) :: rest))
      (meets : entry.irange.left ≤ rs.valid.right)
      (outer : StackRep partly log heap top (h + 1) states figs) :
      Ready partly log heap top (rs :: states)
        (figsLeft rs.valid ((entry, next) :: rest) ++ figs)

section Yield

variable {partly : Prop} {log : List LogRecord} {heap : Heap} {top h : Nat}
  {node : FtNode} {before : List FtEnt}

/-- A state that is done has no fig left, and one that is not done is at its
next fig. -/
theorem StateRep.done_spec
    {rest : List (FtEnt × Kid (Tree h))}
    (state : StateRep partly log heap h rs rest)
    (entries : node.entries = before ++ rest.map Prod.fst)
    (index : rs.pos = before.length) :
    (iterstateDone node rs = true → figsLeft rs.valid rest = []) ∧
      (iterstateDone node rs = false → ∃ entry next tail,
        rest = (entry, next) :: tail ∧
          entry.irange.left ≤ rs.valid.right) := by
  unfold iterstateDone
  rw [entries, index]
  cases rest with
  | nil => simp [figsLeft, figsRest]
  | cons head rest =>
      obtain ⟨entry, next⟩ := head
      have slot : (before ++ ((entry, next) :: rest).map Prod.fst)[
          before.length]? = some entry := by simp
      have more : (before.length == (before ++
          ((entry, next) :: rest).map Prod.fst).length) = false := by
        simp
      rw [slot, more]
      simp only [Bool.false_or]
      constructor
      · intro beyond
        have after := (iLeftOfInt_iff.mp beyond).2
        exact (state.spread (state.ordered.from_first 0)).eq_nil (by
          simp only [highOf_cons]
          omega)
      · intro near
        refine ⟨entry, next, rest, rfl, ?_⟩
        by_contra beyond
        rw [iLeftOfInt_iff.mpr ⟨state.proper.flag,
          Nat.lt_of_not_le beyond⟩] at near
        cases near

theorem ensures_backtrack
    (stack : StackRep partly log heap top h states figs)
    (nullDone : Bool) :
    Ensures (backtrack nullDone states)
      (fun states' next => next = heap ∧ Ready partly log heap top states' figs)
      heap := by
  induction stack with
  | nil => exact ensures_pure.mpr ⟨rfl, .past⟩
  | @cons rs states figs h rest state outer inductionHypothesis =>
      obtain ⟨this, node, before, passed, ptrs, isNode, live, entries, index,
        _⟩ := state.node
      obtain ⟨ifDone, ifNot⟩ := state.done_spec entries index
      rw [backtrack]
      simp only [isNode, pure_bind]
      rw [ensures_run_bind (run_loadNode (Owns.of_read live))]
      cases done : iterstateDone node rs with
      | true =>
          rw [if_pos rfl, ifDone done, List.nil_append]
          exact inductionHypothesis
      | false =>
          obtain ⟨entry, next, tail, rfl, meets⟩ := ifNot done
          rw [if_neg (by simp), ensures_pure]
          exact ⟨rfl, .here state meets outer⟩

/-- `ft_read` arrives at the first fig of the region. -/
theorem ensures_ftRead
    {fig : Fig}
    (seen : Seen partly log heap (fig.height + 1) (.memory (some this.root))
      fig.tree)
    (sorted : Sorted (fig.height + 1) fig.tree)
    (ends : start ≤ stop)
    (last : stop ≤ byteIndexMax) :
    Ensures (ftRead log this start stop)
      (fun iter next => Kept partly heap next ∧
        iter.capacity = fig.height + 2 ∧
        Ready partly log next fig.height iter.states
          (figsOf (fig.height + 1) start (stop + 1) fig.tree)) heap := by
  have whole := seen
  obtain ⟨node, ⟨_, same, live⟩, height, _⟩ := seen
  cases same
  rw [ftRead, ensures_run_bind (run_loadNode (Owns.of_read live)), height]
  have proper : (iInit start stop).Proper := ⟨rfl, ends, last⟩
  refine Ensures.bind (ensures_ftReadDown whole sorted (Nat.lt_succ_self _)
    proper rfl .nil) ?_
  rintro states next ⟨kept, h, read⟩
  have finish : ∀ {h states figs},
      StackRep partly log next fig.height h states figs →
      Ensures (do
          let states ← backtrack true states
          pure (⟨fig.height + 2, states⟩ : FigtreeIter))
        (fun iter final => Kept partly heap final ∧
          iter.capacity = fig.height + 2 ∧
          Ready partly log final fig.height iter.states figs) next := by
    intro h states figs stack
    refine Ensures.bind (ensures_backtrack stack true) ?_
    rintro states' _ ⟨rfl, ready⟩
    exact ensures_pure.mpr ⟨kept, rfl, ready⟩
  rw [List.append_nil] at read
  rcases read with stack | ⟨rs, outer, rfl, isNull, stack⟩
  · exact finish stack
  · rw [backtrack]
    simp only [isNull, if_true, pure_bind]
    exact finish stack

/-- A state moved on to its next entry. -/
theorem StateRep.advance
    {next : Kid (Tree h)}
    {rest : List (FtEnt × Kid (Tree h))}
    (state : StateRep partly log heap h rs ((entry, next) :: rest)) :
    StateRep partly log heap h { rs with pos := rs.pos + 1 } rest := by
  obtain ⟨this, node, before, passed, ptrs, isNode, live, entries, index,
    subtrees, count, seen⟩ := state.node
  obtain ⟨sptr, ptrs, kidSeen, restSeen, rfl⟩ :=
    List.forall₂_cons_right_iff.mp seen
  exact
    { proper := state.proper
      ordered := state.ordered.2.2.2.2.mono (Nat.zero_le _) le_rfl
      sorted := fun kid member =>
        state.sorted kid (List.mem_cons_of_mem _ member)
      reaches := fun other member =>
        state.reaches other (List.mem_cons_of_mem _ member)
      node := ⟨this, node, before ++ [entry], passed ++ [sptr], ptrs, isNode,
        live, by simpa using entries, by simpa using index,
        by simpa using subtrees, by simpa using count, restSeen⟩ }

/-- A state that skips all its remaining entries. -/
theorem StateRep.skip
    {rest : List (FtEnt × Kid (Tree h))}
    (state : StateRep partly log heap h rs rest)
    (isNode : rs.node = some this)
    (live : heap.read this = some node) :
    StateRep partly log heap h { rs with pos := node.entries.length }
      ([] : List (FtEnt × Kid (Tree h))) := by
  obtain ⟨_, _, before, passed, ptrs, isNode', live', entries, index,
    subtrees, count, seen⟩ := state.node
  cases isNode.symm.trans isNode'
  cases live.symm.trans live'
  have lengths := seen.length_eq
  refine ⟨state.proper, trivial, nofun, nofun, this, node, node.entries,
    node.subtrees.map SubtreePtr.source, [], isNode, live, by simp, rfl,
    by simp, ?_, List.Forall₂.nil⟩
  rw [subtrees, entries]
  simp only [List.length_append, List.length_map] at lengths ⊢
  omega

/-- The limits of the gap behind an entry that the valid interval reaches
past. -/
theorem restrict_behind
    {valid : Interval}
    {rest : List (FtEnt × Kid C)}
    (proper : valid.Proper)
    (ordered : Ordered base byteIndexEnd ((entry, next) :: rest))
    (longer : entry.irange.right < valid.right)
    (entries : node.entries =
      before ++ ((entry, next) :: rest).map Prod.fst) :
    gapLeft node.entries (before.length + 1) = entry.irange.right + 1 ∧
      gapRight node.entries (before.length + 1) + 1 =
        highOf byteIndexEnd rest := by
  have bounded := proper.bounded
  constructor
  · have limit : gapLeft node.entries (before.length + 1) =
        succ32 entry.irange.right := by
      rw [entries]
      simp [gapLeft]
    rw [limit, succ32_of_lt (by omega)]
  · have shape : node.entries =
        (before ++ [entry]) ++ rest.map Prod.fst := by
      rw [entries]
      simp
    rw [shape, gapRight_eq (before ++ [entry]) rest (by simp)]
    cases rest with
    | nil => rfl
    | cons head rest =>
        obtain ⟨_, _, _, _, beyond⟩ := ordered
        exact gapHigh_eq beyond le_rfl
          beyond.2.1

/-- The first fig that a state has left is its entry inside the valid
interval. -/
theorem figsLeft_cons
    {valid : Interval}
    {next : Kid (Tree h)}
    {rest : List (FtEnt × Kid (Tree h))}
    (ends : valid.left ≤ valid.right)
    (entryEnds : entry.irange.left ≤ entry.irange.right)
    (meets : entry.irange.left ≤ valid.right)
    (reaches : valid.left ≤ entry.irange.right) :
    figsLeft valid ((entry, next) :: rest) =
      entry.trim valid ::
        (figsOf h (max valid.left (entry.irange.right + 1))
            (min (valid.right + 1) (highOf (valid.right + 1) rest))
            next.get ++ figsLeft valid rest) := by
  have here : clip valid.left (valid.right + 1) entry =
      [entry.trim valid] := by
    unfold clip FtEnt.trim
    rw [if_pos (by omega), Nat.add_sub_cancel]
  rw [figsLeft, figsRest, here]
  rfl

theorem ensures_ftiNext
    {iter : FigtreeIter}
    (ready : Ready partly log heap top iter.states figs)
    (capacity : iter.capacity = top + 2) :
    Ensures (ftiNext log iter)
      (fun result next => Kept partly heap next ∧
        result.2.capacity = top + 2 ∧
        (result.1 = none ∧ figs = [] ∨
          ∃ fig more, result.1 = some fig ∧ figs = fig :: more ∧
            Ready partly log next top result.2.states more)) heap := by
  obtain ⟨size, states⟩ := iter
  cases capacity
  cases ready with
  | past =>
      exact ensures_pure.mpr
        ⟨Kept.refl partly heap, rfl, Or.inl ⟨rfl, rfl⟩⟩
  | @here rs entry states figs h next rest state meets outer =>
      obtain ⟨this, node, before, passed, ptrs, isNode, live, entries, index,
        subtrees, count, seen⟩ := state.node
      obtain ⟨sptr, ptrs, kidSeen, restSeen, rfl⟩ :=
        List.forall₂_cons_right_iff.mp seen
      have owns := Owns.of_read live
      have proper := state.proper
      have ends := proper.ends
      obtain ⟨_, _, entryEnds, entryHigh, beyond⟩ := state.ordered
      have reaches := state.reaches entry List.mem_cons_self
      have slot : node.entries[rs.pos]? = some entry := by
        rw [entries, index]
        simp
      have yields : iRestrictInt entry.irange rs.valid false =
          .ok (entry.trim rs.valid).irange :=
        iRestrictRange_of_le (by omega)
      have finish : ∀ {after h states more},
          Kept partly heap after →
          StackRep partly log after top h states more →
          Ensures (do
              let states ← backtrack false states
              pure (some ⟨(entry.trim rs.valid).irange, entry.value⟩,
                (⟨top + 2, states⟩ : FigtreeIter)))
            (fun result next => Kept partly heap next ∧
              result.2.capacity = top + 2 ∧
              (result.1 = none ∧ entry.trim rs.valid :: more = [] ∨
                ∃ fig more', result.1 = some fig ∧
                  entry.trim rs.valid :: more = fig :: more' ∧
                  Ready partly log next top result.2.states more'))
            after := by
        intro after h states more kept stack
        refine Ensures.bind (ensures_backtrack stack false) ?_
        rintro states' _ ⟨rfl, ready⟩
        exact ensures_pure.mpr
          ⟨kept, rfl, Or.inr ⟨_, more, rfl, rfl, ready⟩⟩
      rw [figsLeft_cons ends entryEnds meets reaches, List.cons_append,
        List.append_assoc, ftiNext]
      simp only [isNode]
      rw [ensures_run_bind (run_loadNode owns), slot]
      dsimp only
      rw [yields, ensures_run_bind (run_lift_ok _ _)]
      have lengths := outer.length_eq
      have nothing : ∀ {low high : Nat}, high ≤ low →
          figsOf h low high next.get = [] := fun empty =>
        ((state.sorted next List.mem_cons_self).spread _ _).eq_nil empty
      by_cases covered : rs.valid.right ≤ entry.irange.right
      · rw [if_pos covered, pure_bind, nothing (by omega), List.nil_append]
        have noRest := (state.advance.spread beyond).eq_nil (by
          dsimp only
          omega)
        dsimp only at noRest
        rw [noRest]
        have skipped := state.skip isNode live
        rw [isNode] at skipped
        exact finish (Kept.refl partly heap) (.cons skipped outer)
      · rw [if_neg covered]
        obtain ⟨leftlimit, rightlimit⟩ := restrict_behind proper
          state.ordered (Nat.lt_of_not_le covered) entries
        rw [← index] at leftlimit rightlimit
        have advanced := StackRep.cons state.advance outer
        by_cases gap : gapLeft node.entries (rs.pos + 1) ≤
            gapRight node.entries (rs.pos + 1)
        · have keeps : max rs.valid.left
              (gapLeft node.entries (rs.pos + 1)) ≤ min rs.valid.right
              (gapRight node.entries (rs.pos + 1)) := by omega
          have bounded := proper.bounded
          have rightEnd : min rs.valid.right
              (gapRight node.entries (rs.pos + 1)) + 1 =
              min (rs.valid.right + 1)
                (highOf (rs.valid.right + 1) rest) := by
            cases rest with
            | nil =>
                simp only [highOf_nil, byteIndexEnd] at rightlimit ⊢
                omega
            | cons head rest =>
                simp only [highOf] at rightlimit ⊢
                omega
          rw [if_pos gap]
          refine Ensures.bind (ensures_subtreeGet_seen live (by
            rw [subtrees, ← count]; simp) kidSeen) ?_
          rintro child after ⟨kept, childSeen⟩
          simp only [isNode] at advanced
          have drilled := (@ensures_ftiDrill _ _ _ _ _ _ _ _ child
            (top + 2 - (states.length + 1))) childSeen
            (state.sorted next List.mem_cons_self) (by omega)
            (iRestrictRange_of_le keeps)
            ⟨proper.flag, keeps, (min_le_left _ _).trans bounded⟩
            (advanced.keep kept)
          dsimp only at drilled
          rw [rightEnd, leftlimit] at drilled
          rw [leftlimit]
          simp only [List.length_cons] at drilled ⊢
          refine Ensures.bind drilled ?_
          rintro states' final ⟨kept', h', stack⟩
          exact finish (kept.trans kept') stack
        · have empty : min (rs.valid.right + 1)
              (highOf (rs.valid.right + 1) rest) ≤
              max rs.valid.left (entry.irange.right + 1) := by
            cases rest with
            | nil =>
                simp only [highOf_nil, byteIndexEnd] at rightlimit
                have := proper.bounded
                omega
            | cons head rest =>
                simp only [highOf] at rightlimit ⊢
                omega
          rw [if_neg gap, pure_bind, nothing empty, List.nil_append]
          simp only [isNode] at advanced
          exact finish (Kept.refl partly heap) advanced

/-- Between two calls an iterator yields exactly the figs it has left. -/
theorem Ready.yields
    {iter : FigtreeIter}
    (ready : Ready partly log heap top iter.states figs)
    (capacity : iter.capacity = top + 2) :
    ∃ final, Kept partly heap final ∧ Yields log iter heap figs final := by
  induction figs generalizing iter heap with
  | nil =>
      obtain ⟨⟨fig, iter'⟩, next, run, kept, _, outcome⟩ :=
        ensures_ftiNext ready capacity
      rcases outcome with ⟨rfl, _⟩ | ⟨fig', more, _, impossible, _⟩
      · exact ⟨next, kept, .done run⟩
      · cases impossible
  | cons fig figs inductionHypothesis =>
      obtain ⟨⟨yielded, iter'⟩, next, run, kept, capacity', outcome⟩ :=
        ensures_ftiNext ready capacity
      rcases outcome with ⟨_, impossible⟩ | ⟨fig', more, isSome, same, ready'⟩
      · cases impossible
      · cases same
        cases isSome
        obtain ⟨final, kept', rest⟩ := inductionHypothesis ready' capacity'
        exact ⟨final, kept.trans kept', .next run rest⟩

end Yield

/-! ## Iteration after a run of writes -/

/-- Reading a range and asking for figs until there are no more goes through.
The figs lie in the range, disjoint and increasing, and agree with what a tree
answers. -/
theorem reads_figs
    {partly : Prop}
    {log : List LogRecord}
    {heap : Heap}
    {fig : Fig}
    {start stop : Nat}
    (seen : Seen partly log heap (fig.height + 1) (.memory (some this.root))
      fig.tree)
    (sorted : Sorted (fig.height + 1) fig.tree)
    (ends : start ≤ stop)
    (last : stop ≤ byteIndexMax) :
    ∃ iter next figs final,
      (ftRead log this start stop).run heap = .ok (iter, next) ∧
      Yields log iter next figs final ∧ Kept partly heap next ∧
      Kept partly heap final ∧ Spread start (stop + 1) figs ∧
      ∀ x value, start ≤ x → x ≤ stop →
        (Gives figs x value ↔ fig.look x = some value) := by
  obtain ⟨iter, next, run, kept, capacity, ready⟩ :=
    ensures_ftRead seen sorted ends last
  obtain ⟨final, kept', yields⟩ := ready.yields capacity
  exact ⟨iter, next, _, final, run, yields, kept, kept.trans kept',
    sorted.spread _ _, fun x value lower upper =>
      sorted.gives_iff lower (Nat.lt_succ_of_le upper) value⟩

/-- After any sequence of writes, iterating over a range of bytes yields
finitely many figs inside it, disjoint and increasing, that cover a byte with a
value exactly when `ft_lookup` finds that value. -/
theorem ftRead_agrees_with_ftLookup
    (log : List LogRecord)
    (calls : List WriteCall)
    (below : CallsBelow byteIndexMax calls) :
    Ensures (ftRun log calls)
      (fun this heap => ∀ start stop, start ≤ stop → stop ≤ byteIndexMax →
        ∃ iter figs,
          (ftRead log this start stop).run heap = .ok (iter, heap) ∧
          Yields log iter heap figs heap ∧ Spread start (stop + 1) figs ∧
          ∀ x value, start ≤ x → x ≤ stop →
            (Gives figs x value ↔
              Ensures (ftLookup log this x)
                (fun found _ => found = some value) heap)) Store.empty := by
  refine (ensures_ftRun below).mono ?_
  rintro this heap ⟨fig, sound, ⟨cells, rep, owns⟩, _⟩ start stop ends last
  have seen := seen_of_sound sound rep owns (by simp)
  obtain ⟨iter, next, figs, final, run, yields, kept, kept', spread,
    agrees⟩ := reads_figs seen (Sound.sorted sound) ends last
  cases kept.same id
  cases kept'.same id
  refine ⟨iter, figs, run, yields, spread, fun x value lower upper => ?_⟩
  rw [agrees x value lower upper]
  have looks := ensures_ftLookup rep owns x
  constructor
  · intro found
    exact looks.mono fun answer _ same => same.trans found
  · rintro ⟨answer, next, ran, isValue⟩
    rw [ensures_of_run ran] at looks
    exact looks.symm.trans isValue

/-- Two writes that overlap. -/
theorem ftRead_agrees_with_ftLookup_overlap :
    CallsBelow byteIndexMax [⟨0, 9, 1⟩, ⟨5, 14, 2⟩] ∧
      Ensures (ftRun [] [⟨0, 9, 1⟩, ⟨5, 14, 2⟩])
        (fun this heap => ∀ start stop, start ≤ stop →
          stop ≤ byteIndexMax → ∃ iter figs,
            (ftRead [] this start stop).run heap = .ok (iter, heap) ∧
            Yields [] iter heap figs heap ∧ Spread start (stop + 1) figs ∧
            ∀ x value, start ≤ x → x ≤ stop →
              (Gives figs x value ↔
                Ensures (ftLookup [] this x)
                  (fun found _ => found = some value) heap))
        Store.empty := by
  have below : CallsBelow byteIndexMax [⟨0, 9, 1⟩, ⟨5, 14, 2⟩] := by
    unfold CallsBelow
    decide
  exact ⟨below, ftRead_agrees_with_ftLookup [] _ below⟩

end FigTree
end Gdpfs
