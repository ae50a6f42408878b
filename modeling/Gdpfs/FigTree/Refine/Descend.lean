import Gdpfs.FigTree.Refine.Prune

/-!
# Descending in the heap

The loop of `_ft_insert` down the tree follows `descend`: the path arrays
represent the context, and the node under the cursor the tree in its hole.
-/

namespace Gdpfs
namespace FigTree

open Log Effect
open Cells (Owns Holds cell)

/-! ## Following a child pointer -/

section Get

variable {log : List LogRecord} {h : Nat} {heap : Heap} {frame here : Part}
  {node : FtNode}

/-- `subtree_get` hands out the child; a child that is only in the log is
copied, and the copy is not entered as loaded. -/
theorem ensures_subtreeGet
    {kid : Kid (Tree h)}
    (subtrees : node.subtrees = before ++ sptr :: after)
    (kidRep : KidRep (Rep log h) sptr kid here)
    (owns : Owns heap (cell this node + (here + frame))) :
    Ensures (subtreeGet log this before.length)
      (fun ptr next => ∃ sptr' here',
        HoleRep (Rep log h) sptr' kid.visit ptr ∧
          Rep log h (.memory ptr) kid.get here' ∧
          Owns next
            (cell this { node with subtrees := before ++ sptr' :: after } +
              (here' + frame))) heap := by
  have slot : node.subtrees[before.length]? = some sptr := by
    rw [subtrees, List.getElem?_append_right le_rfl, Nat.sub_self]
    rfl
  rw [subtreeGet, ensures_run_bind (run_loadNode owns), slot]
  dsimp only
  cases kid with
  | loaded saved child =>
      obtain ⟨loaded, position, childRep⟩ := kidRep
      rw [if_pos loaded, ensures_pure]
      refine ⟨sptr, here, ⟨loaded, position, rfl⟩, childRep, ?_⟩
      rw [← subtrees]
      exact owns
  | unloaded saved seen stored =>
      obtain ⟨unloaded, _, position, storedRep, rfl⟩ := kidRep
      cases h with
      | zero => exact absurd storedRep id
      | succ h =>
          have stays := storedRep
          obtain ⟨fetched, fetch, _, fetchedRep⟩ := storedRep
          rw [if_neg (by rw [unloaded]; exact Bool.false_ne_true),
            show fetchNode log sptr.recno sptr.offset = .ok fetched by
              rw [← position] at fetch; exact fetch,
            ensures_run_bind (run_lift_ok _ _),
            ensures_run_bind (run_memAlloc _ _)]
          have owns := (owns.alloc fetched).of_eq (add_left_comm _ _ _)
          rw [ensures_run_bind (run_storeNode owns _), ensures_pure]
          refine ⟨{ sptr with st := some heap.fresh }, cell heap.fresh
            fetched, ⟨unloaded, rfl, position, stays⟩,
            ⟨heap.fresh, fetched, 0, rfl, (add_zero _).symm, fetchedRep⟩, ?_⟩
          rw [subtrees, List.set_append_right _ _ le_rfl, Nat.sub_self]
          exact (owns.write _).of_eq (by
            rw [zero_add]
            rfl)

end Get

/-! ## Scans -/

section Scan

variable {range : Interval}

/-- How the scan of the abstract node reads as a scan by index. -/
def Place.scan : Place C → Scan
  | .gap _ _ [] => .past
  | .gap left _ (_ :: _) => .rightOf left.length
  | .hit left _ _ _ _ => .overlap left.length

/-- Scanning does not change the node. -/
def Place.node : Place C → Kid C × List (FtEnt × Kid C)
  | .gap left kid right => zipUp left kid right
  | .hit left kid entry next rest =>
      zipUp left kid ((entry, next) :: rest)

theorem place_scan
    (left : List (FtEnt × Kid C))
    (kid : Kid C)
    (rest : List (FtEnt × Kid C)) :
    scanEntries range (rest.map Prod.fst) left.length =
        (place range left kid rest).scan ∧
      (place range left kid rest).node = zipUp left kid rest := by
  induction rest generalizing left kid with
  | nil => exact ⟨rfl, rfl⟩
  | cons head rest inductionHypothesis =>
      obtain ⟨entry, next⟩ := head
      rw [List.map_cons, scanEntries, place]
      dsimp only
      split
      · exact ⟨rfl, rfl⟩
      · split
        · exact ⟨rfl, rfl⟩
        · exact inductionHypothesis ((entry, kid) :: left) next

theorem gapLeft_eq
    (left right : List (FtEnt × Kid C)) :
    gapLeft ((left.map Prod.fst).reverse ++ right.map Prod.fst)
      left.length = gapLow left := by
  rcases left with _ | ⟨⟨entry, kid⟩, left⟩
  · rfl
  · simp [gapLeft, gapLow]

theorem gapRight_eq
    (before : List FtEnt)
    (right : List (FtEnt × Kid C))
    (index : i = before.length) :
    gapRight (before ++ right.map Prod.fst) i = gapHigh right := by
  subst index
  rcases right with _ | ⟨⟨entry, kid⟩, right⟩
  · simp [gapRight, gapHigh]
  · simp [gapRight, gapHigh]

/-- The inner loop over the entries that start inside the range. -/
theorem absorb_scan
    (entry : FtEnt)
    (next : Kid C)
    (rest : List (FtEnt × Kid C)) :
    ∃ middle,
      (entry, next) :: rest =
        middle ++ ((absorb range entry next rest).1,
          (absorb range entry next rest).2.1) ::
            (absorb range entry next rest).2.2 ∧
      ∀ j, scanOverlaps range (rest.map Prod.fst) (j + 1) =
        j + middle.length + 1 := by
  induction rest generalizing entry next with
  | nil => exact ⟨[], rfl, fun j => rfl⟩
  | cons head rest inductionHypothesis =>
      obtain ⟨after, beyond⟩ := head
      unfold absorb
      split
      · next overlaps =>
          obtain ⟨middle, shape, scan⟩ := inductionHypothesis after beyond
          refine ⟨(entry, next) :: middle, congrArg _ shape, fun j => ?_⟩
          rw [List.map_cons, scanOverlaps, if_pos overlaps, scan (j + 1),
            List.length_cons]
          omega
      · next misses =>
          refine ⟨[], rfl, fun j => ?_⟩
          rw [List.map_cons, scanOverlaps, if_neg misses]
          rfl

end Scan

/-! ## Replacing the overlapped entries -/

section Replace

variable {log : List LogRecord} {h : Nat} {heap : Heap} {frame here : Part}
  {node : FtNode}

/-- `ftn_replaceEntries` frees the children between the replaced entries. -/
theorem ensures_ftnReplaceEntries
    {freed : List (Kid (Tree h))}
    (entries : node.entries = near ++ (gone ++ far))
    (subtrees :
      node.subtrees = before ++ sptr :: (between ++ sptr' :: after))
    (nearLength : before.length = near.length)
    (goneLength : between.length + 1 = gone.length)
    (farLength : after.length = far.length)
    (freedRep : RepKids (KidRep (Rep log h)) between freed here)
    (owns : Owns heap (cell this node + (here + frame)))
    (range : Interval)
    (value : Int) :
    Ensures
      (ftnReplaceEntries this near.length (near.length + gone.length) range
        value)
      (fun _ next => Owns next
        (cell this
          ⟨near ++ ⟨range, value⟩ :: far, before ++ sptr :: sptr' :: after,
            node.height, true⟩ + frame)) heap := by
  have counts : node.entries.length + 1 = node.subtrees.length := by
    rw [entries, subtrees]
    simp only [List.length_append, List.length_cons]
    omega
  have bound : near.length < node.entries.length ∧
      near.length + gone.length ≤ node.entries.length := by
    rw [entries]
    simp only [List.length_append]
    omega
  have upTo : near.length + gone.length = (before ++ sptr :: between).length := by
    simp only [List.length_append, List.length_cons]
    omega
  have from' : near.length + 1 = (before ++ [sptr]).length := by
    simp [nearLength]
  have shape : node.subtrees =
      (before ++ sptr :: between) ++ sptr' :: after := by
    rw [subtrees]
    simp
  have freedPtrs : ((node.subtrees.take (near.length + gone.length)).drop
      (near.length + 1)) = between := by
    rw [shape, upTo, List.take_left, from',
      show before ++ sptr :: between = (before ++ [sptr]) ++ between by simp,
      List.drop_left]
  rw [ftnReplaceEntries, ensures_run_bind (run_loadNode owns),
    ensures_run_bind (run_ensure (by simpa using counts) _ _),
    ensures_run_bind (run_ensure (by simpa using bound) _ _),
    ensures_run_bind (run_ensure (by simp; omega) _ _), freedPtrs]
  refine Ensures.bind ((@ensures_forM_subtreeFree _ _ _ (cell this node + frame))
    freedRep (owns.of_eq (by abel))) ?_
  intro _ next owns
  rw [ensures_of_run (run_storeNode owns _)]
  refine (owns.write _).of_eq ?_
  have keptPtrs : node.subtrees.take (near.length + 1) ++
      node.subtrees.drop (near.length + gone.length) =
        before ++ sptr :: sptr' :: after := by
    rw [upTo, shape, List.drop_left, from',
      show (before ++ sptr :: between) ++ sptr' :: after =
        (before ++ [sptr]) ++ (between ++ sptr' :: after) by simp,
      List.take_left]
    simp
  have keptEntries : node.entries.take near.length ++
      ⟨range, value⟩ :: node.entries.drop (near.length + gone.length) =
        near ++ ⟨range, value⟩ :: far := by
    rw [entries, List.take_left, ← List.append_assoc, ← List.length_append,
      List.drop_left]
  rw [keptPtrs, keptEntries]

end Replace

/-! ## The node that is hit -/

/-- The pointer beside the new entry, followed already if a continuation is to
start there. -/
structure GapRep
    (log : List LogRecord)
    (opened : Bool)
    (sptr : SubtreePtr)
    (kid : Kid (Tree h))
    (ptr : Option Addr)
    (cells : Part) : Prop where
  pointer : HoleRep (Rep log h) sptr (if opened then kid.visit else kid) ptr
  child : opened = true ∨ kid.isLoaded = true →
    Rep log h (.memory ptr) kid.get cells
  unused : opened = false → kid.isLoaded = false → cells = 0

/-- The heap after `_ft_insert` has replaced the overlapped entries. -/
def HitRep
    (log : List LogRecord)
    (range : Interval)
    (value : Int)
    (hit : Hit h)
    (this : Addr)
    (ic : InsertCont)
    (cells : Part) : Prop :=
  ∃ before leftPtr nextPtr after leftStart rightStart leftCells here there
      rightCells,
    cells = cell this
        ⟨(hit.left.map Prod.fst).reverse ++
            ⟨range, value⟩ :: hit.right.map Prod.fst,
          before ++ leftPtr :: nextPtr :: after, h, true⟩ +
        (leftCells + here + (there + rightCells)) ∧
      RepKids (KidRep (Rep log h)) before (hit.left.map Prod.snd).reverse
        leftCells ∧
      GapRep log (hit.hasLeft range) leftPtr hit.kid leftStart here ∧
      GapRep log (hit.hasRight range) nextPtr hit.next rightStart there ∧
      RepKids (KidRep (Rep log h)) after (hit.right.map Prod.snd)
        rightCells ∧
      ic =
        { leftc :=
            if hit.hasLeft range then
              some ⟨(hit.leftEntry range).irange, hit.first.value, leftStart,
                hit.leftValid⟩
            else none
          rightc :=
            if hit.hasRight range then
              some ⟨(hit.rightEntry range).irange, hit.last.value,
                rightStart, hit.rightValid⟩
            else none }

section Hit

variable {log : List LogRecord} {h : Nat} {heap : Heap} {frame here : Part}
  {node : FtNode}

theorem GapRep.of_kidRep
    {kid : Kid (Tree h)}
    (kidRep : KidRep (Rep log h) sptr kid here) :
    GapRep log false sptr kid sptr.st here := by
  cases kid with
  | loaded saved child =>
      exact ⟨⟨kidRep.1, kidRep.2.1, rfl⟩, fun _ => kidRep.2.2, nofun⟩
  | unloaded saved seen stored =>
      obtain ⟨unloaded, isSeen, position, storedRep, rfl⟩ := kidRep
      exact ⟨⟨unloaded, isSeen, position, storedRep⟩,
        fun opened => absurd opened (by simp [Kid.isLoaded]), fun _ _ => rfl⟩

theorem GapRep.kidRep
    {kid : Kid (Tree h)}
    (gapRep : GapRep log false sptr kid ptr here) :
    KidRep (Rep log h) sptr kid here := by
  obtain ⟨pointer, child, unused⟩ := gapRep
  cases kid with
  | loaded saved kid =>
      obtain ⟨loaded, position, rfl⟩ := pointer
      exact ⟨loaded, position, child (Or.inr rfl)⟩
  | unloaded saved seen stored =>
      obtain ⟨unloaded, isSeen, position, storedRep⟩ := pointer
      exact ⟨unloaded, isSeen, position, storedRep, unused rfl rfl⟩

/-- Prepare a continuation, if one is needed: follow the pointer in its gap and
restrict the valid interval. -/
theorem ensures_continuation
    {kid : Kid (Tree h)}
    {condition : Prop}
    [Decidable condition]
    {proceed : Option InsertArgs → FigM α}
    {post : α → Heap → Prop}
    (subtrees : node.subtrees = before ++ sptr :: after)
    (kidRep : KidRep (Rep log h) sptr kid here)
    (owns : Owns heap (cell this node + (here + frame)))
    (range valid : Interval)
    (value : Int)
    (low high : Nat)
    (goOn : ∀ next sptr' ptr here',
      GapRep log (decide condition) sptr' kid ptr here' →
      Owns next
        (cell this { node with subtrees := before ++ sptr' :: after } +
          (here' + frame)) →
      Ensures
        (proceed (if decide condition then
            some ⟨range, value, ptr, restrictTo valid low high⟩
          else none)) post next) :
    Ensures
      (if condition then do
        let startNode ← subtreeGet log this before.length
        let valid ← iRestrictRange valid low high true
        let continuation ← pure (some
          { range := range
            value := value
            startNode := startNode
            valid := valid : InsertArgs })
        proceed continuation
      else do
        let continuation ← pure none
        proceed continuation) post heap := by
  by_cases holds : condition
  · rw [if_pos holds]
    refine Ensures.bind (ensures_subtreeGet subtrees kidRep owns) ?_
    rintro ptr next ⟨sptr', here', holeRep, rep, owns⟩
    rw [iRestrictRange_allowempty, ensures_run_bind (run_lift_ok _ _),
      pure_bind]
    have opened := decide_eq_true holds
    have proceeds := goOn next sptr' ptr here'
    rw [opened] at proceeds
    exact proceeds ⟨holeRep, fun _ => rep, nofun⟩ owns
  · rw [if_neg holds, pure_bind]
    have unopened := decide_eq_false holds
    have proceeds := goOn heap sptr sptr.st here
    rw [unopened] at proceeds
    refine proceeds (.of_kidRep kidRep) ?_
    rw [← subtrees]
    exact owns

/-- The branch of `_ft_insert` that replaces entries finds what `absorb` finds
and keeps what sticks out as continuations. -/
theorem ensures_ftInsertOverlap
    {tree : Node (Tree h)}
    {hit : Hit h}
    (nodeRep : NodeRep (KidRep (Rep log h)) h node tree below)
    (found : place range [] tree.first tree.rest =
      .hit left kid entry next rest)
    (hitShape : hit =
      { dirty := tree.dirty
        left := left
        kid := kid
        first := entry
        last := (absorb range entry next rest).1
        next := (absorb range entry next rest).2.1
        right := (absorb range entry next rest).2.2
        rest := (entry, next) :: rest
        valid := valid })
    (owns : Owns heap (cell this node + (below + frame)))
    (value : Int)
    (path : List PathEnt) :
    Ensures (ftInsertOverlap log range value this valid path left.length)
      (fun result next =>
        result.1 = path ++ [⟨this,
            if hit.hasRight range then left.length + 1 else left.length⟩] ∧
          Holds (HitRep log range value hit this result.2) frame next)
      heap := by
  have scanned := ((@place_scan range) [] tree.first tree.rest).2
  rw [found] at scanned
  obtain ⟨entries, before, leftPtr, others, leftCells, here, otherCells,
    subtrees, lengths, rfl, leftRep, kidRep, othersRep⟩ :=
    nodeRep.focus
      scanned
  obtain ⟨middle, restShape, scan⟩ := absorb_scan entry next
    rest
  generalize absorb range entry next rest = absorbed at restShape hitShape
  obtain ⟨last, beyond, right⟩ := absorbed
  dsimp only at restShape hitShape
  have afterEntries : node.entries = ((left.map Prod.fst).reverse ++
      middle.map Prod.fst) ++ last :: right.map Prod.fst := by
    rw [entries, restShape]
    simp
  rw [restShape, List.map_append, List.map_cons] at othersRep
  obtain ⟨between, others, betweenCells, otherCells, rfl, rfl, betweenRep,
    othersRep⟩ := repKids_append.mp othersRep
  obtain ⟨nextPtr, after, there, rightCells, rfl, rfl, nextRep, rightRep⟩ :=
    repKids_cons.mp othersRep
  have betweenLength : between.length = middle.length := by
    simpa using betweenRep.length_eq
  have afterLength : after.length = right.length := by
    simpa using rightRep.length_eq
  have current : node.entries[left.length]? = some entry := by
    rw [entries]
    simp
  have previous : node.entries[left.length + middle.length + 1 - 1]? =
      some last := by
    rw [afterEntries]
    simp
  have tailScan : scanOverlaps range (node.entries.drop (left.length + 1))
      (left.length + 1) = left.length + middle.length + 1 := by
    rw [entries, List.map_cons,
      show (left.map Prod.fst).reverse ++ entry :: rest.map Prod.fst =
        ((left.map Prod.fst).reverse ++ [entry]) ++ rest.map Prod.fst by
          simp,
      show left.length + 1 =
        ((left.map Prod.fst).reverse ++ [entry]).length by simp,
      List.drop_left, List.length_append, List.length_reverse,
      List.length_map, List.length_singleton, scan]
  have leftLow : gapLeft node.entries left.length = gapLow left := by
    rw [entries]
    exact gapLeft_eq _ _
  have leftHigh : gapRight node.entries left.length =
      gapHigh ((entry, next) :: rest) := by
    rw [entries]
    exact gapRight_eq _ _ (by simp)
  have rightLow : gapLeft node.entries (left.length + middle.length + 1) =
      succ32 last.irange.right := by
    rw [gapLeft, if_neg (Nat.succ_ne_zero _), previous]
  have rightHigh : gapRight node.entries (left.length + middle.length + 1) =
      gapHigh right := by
    rw [afterEntries, List.append_cons]
    exact gapRight_eq _ _ (by simp; omega)
  rw [ftInsertOverlap, ensures_run_bind (run_loadNode owns)]
  simp only [tailScan, current, previous, leftLow, leftHigh, rightLow,
    rightHigh]
  rw [← lengths]
  refine (@ensures_continuation _ _ _ (leftCells + (betweenCells + (there + rightCells)) + frame))
    subtrees kidRep
    (owns.of_eq (by abel)) _ valid _ _ _ ?_
  intro heap leftPtr' leftStart here' leftGap owns
  have nextSubtrees : before ++ leftPtr' :: (between ++ nextPtr :: after) =
      (before ++ leftPtr' :: between) ++ nextPtr :: after := by simp
  have nextIndex : before.length + middle.length + 1 =
      (before ++ leftPtr' :: between).length := by
    simp only [List.length_append, List.length_cons]
    omega
  rw [nextIndex]
  refine (@ensures_continuation _ _ _ (leftCells + (betweenCells + (here' + rightCells)) + frame))
    nextSubtrees nextRep
    (owns.of_eq (by abel)) _ valid _ _ _ ?_
  intro heap nextPtr' rightStart there' rightGap owns
  have replaceIndex : (before ++ leftPtr' :: between).length =
      ((left.map Prod.fst).reverse).length +
        (middle.map Prod.fst ++ [last]).length := by
    simp only [List.length_append, List.length_cons, List.length_reverse,
      List.length_map, List.length_nil]
    omega
  rw [show before.length = ((left.map Prod.fst).reverse).length by
    simpa using lengths, replaceIndex]
  refine Ensures.bind ((@ensures_ftnReplaceEntries _ _ _ (leftCells + here' + (there' + rightCells) + frame) _ _ _ _ (right.map Prod.fst) before leftPtr' _ nextPtr' after)
    ?_ ?_ ?_ ?_ ?_ betweenRep (owns.of_eq (by abel)) range value) ?_
  · rw [afterEntries]
    simp
  · simp
  · simpa using lengths
  · simp [betweenLength]
  · simpa using afterLength
  · intro _ heap owns
    rw [ensures_pure]
    subst hitShape
    refine ⟨?_, _, ⟨before, leftPtr', nextPtr', after, leftStart, rightStart,
      leftCells, here', there', rightCells, rfl, leftRep, leftGap, rightGap,
      rightRep, rfl⟩, ?_⟩
    · simp only [Hit.hasRight]
      by_cases sticksOut : last.irange.right > range.right <;>
        simp [sticksOut]
    · refine owns.of_eq ?_
      rw [nodeRep.height]
      abel

end Hit

/-! ## The loop down the tree -/

/-- The heap and the arrays where a descent ends. -/
def StopRep
    (log : List LogRecord)
    (range : Interval)
    (value : Int)
    (base : List PathEnt)
    (root : Option Addr) :
    Stop top → Option Addr × List PathEnt × InsertCont → Part → Prop
  | .null ctx, result, cells =>
      ∃ path, result = (none, base ++ path, ⟨none, none⟩) ∧
        CtxRep log ctx path none root cells
  | .hit _ ctx hit, result, cells =>
      ∃ path this ic here outer,
        result = (some this,
            base ++ path ++ [⟨this,
              if hit.hasRight range then hit.left.length + 1
              else hit.left.length⟩], ic) ∧
          cells = here + outer ∧
          HitRep log range value hit this ic here ∧
          CtxRep log ctx path (some this) root outer

section Down

variable {log : List LogRecord} {h top : Nat} {range : Interval}
  {root : Option Addr} {frame : Part}

/-- Step through the gap of a pruned node into its child. -/
theorem ensures_enterGap
    {heap : Heap}
    {tree : Node (Tree h)}
    {ctx : Ctx (h + 1) top}
    {node : FtNode}
    {below outer : Part}
    {proceed : Option Addr × Interval → FigM α}
    {post : α → Heap → Prop}
    (nodeRep : NodeRep (KidRep (Rep log h)) h node tree below)
    (shape : zipUp left kid right = (tree.first, tree.rest))
    (ctxRep : CtxRep log ctx path (some this) root outer)
    (owns : Owns heap (cell this node + (below + (outer + frame))))
    (goOn : ∀ next ptr cells outer',
      Rep log h (.memory ptr) kid.get cells →
      CtxRep log (.cons ⟨tree.dirty, left, kid.visit, right⟩ ctx)
        (path ++ [⟨this, left.length⟩]) ptr root outer' →
      Owns next (cells + (outer' + frame)) →
      Ensures (proceed (ptr, gapValid valid left right)) post next) :
    Ensures
      (do
        let next ← subtreeGet log this left.length
        let valid ← iRestrictRange valid
          (gapLeft node.entries left.length)
          (gapRight node.entries left.length) true
        proceed (next, valid)) post heap := by
  obtain ⟨entries, before, sptr, after, leftCells, here, rightCells,
    subtrees, lengths, rfl, leftRep, kidRep, rightRep⟩ :=
    nodeRep.focus shape
  have low : gapLeft node.entries left.length = gapLow left := by
    rw [entries]
    exact gapLeft_eq _ _
  have high : gapRight node.entries left.length = gapHigh right := by
    rw [entries]
    exact gapRight_eq _ _ (by simp)
  rw [low, high, ← lengths]
  refine Ensures.bind ((@ensures_subtreeGet _ _ _ (leftCells + rightCells + (outer + frame))) subtrees kidRep
    (owns.of_eq (by abel))) ?_
  rintro ptr next ⟨sptr', here', holeRep, rep, owns⟩
  rw [iRestrictRange_allowempty, ensures_run_bind (run_lift_ok _ _)]
  refine goOn next ptr here' (cell this
    { node with subtrees := before ++ sptr' :: after } +
      (leftCells + rightCells) + outer) rep ?_ (owns.of_eq (by abel))
  exact ⟨this, _, path, _, outer, rfl, rfl,
    ⟨entries, nodeRep.height, nodeRep.dirty, before, sptr', after, leftCells,
      rightCells, rfl, rfl, leftRep, rightRep, holeRep⟩, ctxRep⟩

/-- The loop of `_ft_insert` down the tree follows `descend`. -/
theorem ensures_ftInsertDown
    {heap : Heap}
    {ctx : Ctx h top}
    {tree : Tree h}
    (rep : Rep log h (.memory ptr) tree cells)
    (ctxRep : CtxRep log ctx path ptr root outer)
    (regular : valid.Regular)
    (fits : h ≤ room)
    (owns : Owns heap (cells + (outer + frame)))
    (value : Int)
    (base : List PathEnt) :
    Ensures (ftInsertDown log range value room ptr valid (base ++ path))
      (fun result next => Holds
        (StopRep log range value base root (descend range h ctx tree valid)
          result) frame next) heap := by
  induction h generalizing heap room ptr valid path cells outer with
  | zero =>
      obtain ⟨rfl, rfl⟩ := rep
      have done : ftInsertDown log range value room none valid
          (base ++ path) = pure (none, base ++ path, ⟨none, none⟩) := by
        cases room <;> rfl
      rw [done, ensures_pure]
      exact ⟨outer, ⟨path, rfl, ctxRep⟩, owns.of_eq (zero_add _)⟩
  | succ h inductionHypothesis =>
      obtain ⟨room, rfl⟩ := Nat.exists_eq_add_of_le' fits
      have pointer := rep
      obtain ⟨this, _, _, rfl, _⟩ := pointer
      rw [show room + (h + 1) = room + h + 1 by rfl, ftInsertDown]
      refine Ensures.bind (ensures_ftnPruneTo rep regular owns) ?_
      rintro _ heap ⟨_, ⟨_, node, below, same, rfl, nodeRep⟩, owns⟩
      cases same
      have owns := owns.of_eq (add_assoc _ _ _)
      rw [ensures_run_bind (run_loadNode owns), descend]
      generalize Node.prune (h := h) tree valid = pruned at nodeRep
      dsimp only
      have scanned :=
        (@place_scan range) [] pruned.first pruned.rest
      have scanShape : scanEntries range node.entries 0 =
          (place range [] pruned.first pruned.rest).scan := by
        rw [nodeRep.entries]
        exact scanned.1
      have shape := scanned.2
      rw [scanShape]
      cases found : place range [] pruned.first pruned.rest with
      | hit left kid entry next rest =>
          refine Ensures.bind (ensures_ftInsertOverlap nodeRep found rfl
            owns value (base ++ path)) ?_
          rintro ⟨path', ic⟩ heap ⟨rfl, cells, hitRep, owns⟩
          rw [ensures_pure]
          exact ⟨cells + outer, ⟨path, this, ic, cells, outer, rfl, rfl,
            hitRep, ctxRep⟩, owns.of_eq (add_assoc _ _ _).symm⟩
      | gap left kid right =>
          rw [found] at shape
          have enter := (@ensures_enterGap _ _ _ _ _ _ _ _ _ _ _ _ _ _ _ _ _ _ (fun (ptr, valid) => ftInsertDown log range value (room + h) ptr valid (base ++ path ++ [⟨this, left.length⟩])))
            nodeRep shape ctxRep owns
            (by
              intro next ptr cells outer' rep ctxRep owns
              dsimp only
              rw [List.append_assoc]
              exact inductionHypothesis rep ctxRep (regular.restrictTo _ _)
                (Nat.le_add_left _ _) owns)
          rcases right with _ | ⟨pair, right⟩
          · have last : node.entries.length = left.length := by
              rw [(nodeRep.focus shape).1]
              simp
            simp only [Place.scan, last]
            exact enter
          · exact enter

end Down

end FigTree
end Gdpfs
