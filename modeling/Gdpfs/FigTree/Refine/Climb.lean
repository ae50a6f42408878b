import Gdpfs.FigTree.Refine.Split

/-!
# Climbing the path in the heap

The loop of `_ft_insert` up the path follows `Ctx.push`.  During a right
continuation it also keeps `path` and `pathIndices` on the gap left of the new
entry, which is the mark that `Ctx.push` carries along.
-/

namespace Gdpfs
namespace FigTree

open Log Effect
open Cells (Owns Holds cell)

/-! ## Fitting into a gap -/

/-- The checks of `ftn_insert` against the neighbours of a gap pass. -/
theorem fitsGap_of_fits
    {left right : List (FtEnt × Kid C)}
    (fits : Fits (lowOf low left) (highOf high right) entry) :
    fitsGap ((left.map Prod.fst).reverse ++ right.map Prod.fst) entry
      left.length = true := by
  have lower := fits.low
  have upper := fits.high
  rw [fitsGap, Bool.and_eq_true, Bool.and_eq_true]
  refine ⟨⟨by simp, ?_⟩, ?_⟩
  · rcases left with _ | ⟨⟨near, kid⟩, left⟩
    · rfl
    · have apart : near.irange.right < entry.irange.left := lower
      simp [fteOverlaps, iOverlaps, apart]
  · rcases right with _ | ⟨⟨far, kid⟩, right⟩
    · simp
    · have apart : entry.irange.right < far.irange.left := by
        simpa using upper
      simp [fteOverlaps, iOverlaps, apart]

/-! ## One level -/

/-- The index that `_ft_insert` keeps for the path during a right
continuation. -/
def patchIndex
    (finalsharedindex pathindex : Nat)
    (path : List PathEnt)
    (insertindex : Nat)
    (right : Option Addr) : Nat :=
  if pathindex = finalsharedindex then insertindex - 1
  else if pathindex < finalsharedindex ∧
      path[pathindex + 1]?.map PathEnt.node = right then insertindex + 1
  else insertindex

/-- The element of the path for a gap of a node that was split. -/
def halfEnt (left right : Addr) (index : Nat) : PathEnt :=
  if index ≤ ftOrder then ⟨left, index⟩ else ⟨right, index - (ftOrder + 1)⟩

section Level

variable {log : List LogRecord} {h level : Nat} {heap : Heap}
  {frame below top : Part} {node : FtNode} {pushed : Pushed}
  {gap : Frame (Tree h)} {hole : Option Addr}

theorem RaisedRep.pointers
    {raised : Raised (h + 1)}
    (raisedRep : RaisedRep log raised pushed (some marked) other) :
    ∃ left right, pushed.left = some left ∧ pushed.right = some right := by
  obtain ⟨side, tree, entry⟩ := raised
  obtain ⟨_, halves⟩ := raisedRep
  cases side with
  | left =>
      obtain ⟨isMarked, right, _, _, isSome, _⟩ := halves
      exact ⟨marked, right, isMarked, isSome⟩
  | right =>
      obtain ⟨isMarked, left, _, _, isSome, _⟩ := halves
      exact ⟨left, marked, isSome, isMarked⟩

/-- The pushed node is freed once its entry was taken over. -/
theorem ensures_memFree_topushnode
    (topRep : TopRep level pushed top)
    (owns : Owns heap (top + frame)) :
    Ensures (memFree pushed.topushnode) (fun _ next => Owns next frame)
      heap := by
  cases level with
  | zero =>
      obtain ⟨isNull, rfl⟩ := topRep
      rw [isNull]
      exact ensures_pure.mpr (owns.of_eq (zero_add _))
  | succ level =>
      obtain ⟨this, lower, upper, isTop, rfl, _⟩ := topRep
      rw [isTop]
      exact (ensures_of_run (run_memFree owns)).mpr owns.free

theorem ftInsertPatch_some
    (log : List LogRecord)
    (finalsharedindex pathindex : Nat)
    (path : List PathEnt)
    (insertinto : Addr)
    (insertindex : Nat)
    (pushedRight : Option Addr)
    (this : Addr)
    {index : Nat}
    (patched : patchIndex finalsharedindex pathindex path insertindex
      pushedRight = index) :
    ftInsertPatch log finalsharedindex pathindex path insertinto insertindex
        pushedRight (some this) =
      (do
        match ← subtreeGet log this (if index ≤ ftOrder then 0 else 1) with
        | none => throw Fault.badAddress
        | some half =>
            pure (path.set pathindex ⟨half, if index ≤ ftOrder then index
              else index - (ftOrder + 1)⟩)) := by
  cases patched
  rfl

/-- Patching the path reads the pushed node only. -/
theorem run_ftInsertPatch
    (topRep : TopRep (level + 1) pushed top)
    (isTop : pushed.topushnode = some this)
    (isLeft : pushed.left = some left)
    (isRight : pushed.right = some right)
    (owns : Owns heap (top + frame)) :
    (ftInsertPatch log finalsharedindex pathindex path insertinto
        insertindex pushedRight (some this)).run heap =
      .ok (path.set pathindex (halfEnt left right
        (patchIndex finalsharedindex pathindex path insertindex
          pushedRight)), heap) := by
  obtain ⟨_, lower, upper, isTop', rfl, ⟨lowerLoaded, lowerPtr⟩,
    upperLoaded, upperPtr⟩ := topRep
  cases isTop.symm.trans isTop'
  generalize patched : patchIndex finalsharedindex pathindex path insertindex
    pushedRight = index
  rw [ftInsertPatch_some _ _ _ _ _ _ _ _ patched, halfEnt, StateT.run_bind]
  by_cases inLeft : index ≤ ftOrder
  · simp only [if_pos inLeft]
    rw [run_subtreeGet (by rfl) lowerLoaded owns, lowerPtr, isLeft]
    rfl
  · simp only [if_neg inLeft]
    rw [run_subtreeGet (by rfl) upperLoaded owns, upperPtr, isRight]
    rfl

/-- Reading the pushed node gives back what was pushed. -/
theorem ensures_readTop
    {proceed : Pushed → FigM α}
    {post : α → Heap → Prop}
    (topRep : TopRep (level + 1) pushed top)
    (isTop : pushed.topushnode = some this)
    (owns : Owns heap (top + frame)) :
    Ensures
        (do
          let left ← subtreeGet log this 0
          let right ← subtreeGet log this 1
          match (← loadNode this).entries[0]? with
          | none => throw .badAddress
          | some topushent => proceed ⟨some this, topushent, left, right⟩)
        post heap ↔
      Ensures (proceed pushed) post heap := by
  obtain ⟨_, lower, upper, isTop', rfl, ⟨lowerLoaded, lowerPtr⟩,
    upperLoaded, upperPtr⟩ := topRep
  cases isTop.symm.trans isTop'
  rw [ensures_run_bind (run_subtreeGet (by rfl) lowerLoaded owns),
    ensures_run_bind (run_subtreeGet (by rfl) upperLoaded owns),
    ensures_run_bind (run_loadNode owns), lowerPtr, upperPtr]
  obtain ⟨topushnode, topushent, left, right⟩ := pushed
  cases isTop
  rfl

/-- One round of the loop up the path.  `gap` is the node after the insertion
as seen from any of its gaps. -/
theorem ensures_ftInsertUp_succ
    {post : Option Addr × List PathEnt → Heap → Prop}
    {rightcontinuation : Bool}
    (slot : path[pathindex]? = some ⟨this, near.length⟩)
    (entries : node.entries = near ++ far)
    (subtrees : node.subtrees = before ++ sptr :: after)
    (nearLength : before.length = near.length)
    (farLength : after.length = far.length)
    (fits : fitsGap node.entries pushed.topushent near.length = true)
    (count : node.entries.length < ftSplitlimit)
    (gapRep : FrameRep (Rep log h) h
      (insertedNode near far before after sptr node.height pushed) gap hole
      below)
    (size : gap.size = near.length + far.length + 1)
    (dirty : gap.dirty = true)
    (topRep : TopRep level pushed top)
    (owns : Owns heap (top + (cell this node + (below + frame))))
    (whole : gap.size ≠ ftSplitlimit → ∀ next,
      Owns next
        (cell this (insertedNode near far before after sptr node.height
          pushed) + (below + frame)) →
      post (none,
        if rightcontinuation then
          let path := path.set pathindex ⟨this, patchIndex finalsharedindex
            pathindex path near.length pushed.right⟩
          if pathindex > finalsharedindex then
            path.modify finalsharedindex
              fun ent => { ent with index := ent.index - 1 }
          else path
        else path) next)
    (halves : gap.size = ftSplitlimit →
      ∀ next pushed' left right marked half belowHalf other top',
        pushed'.left = some left →
        pushed'.right = some right →
        FrameRep (Rep log h) h half gap.split.1 hole belowHalf →
        RaisedRep log gap.split.2 pushed' (some marked) other →
        TopRep (h + 1) pushed' top' →
        Owns next (top' + (other + (cell marked half +
          (belowHalf + frame)))) →
        Ensures
          (ftInsertUp log rightcontinuation finalsharedindex pathindex
            (if rightcontinuation then
              path.set pathindex (halfEnt left right (patchIndex
                finalsharedindex pathindex path near.length pushed.right))
            else path) pushed') post next) :
    Ensures
      (ftInsertUp log rightcontinuation finalsharedindex (pathindex + 1)
        path pushed) post heap := by
  have owned := owns.of_eq (show _ = cell this node +
    (below + (top + frame)) by abel)
  rw [ftInsertUp, slot]
  dsimp only
  rw [ensures_bind, ensures_ftnInsert entries subtrees nearLength farLength
    fits count owned, ← size]
  refine ensures_settle gapRep dirty owned ?_ ?_
  · intro short next owns
    rw [ensures_bind]
    refine (ensures_memFree_topushnode topRep (owns.of_eq
      (show _ = top + (cell this _ + (below + frame)) by abel))).mono ?_
    intro _ next owns
    have result := whole short next owns
    cases rightcontinuation with
    | false => exact ensures_pure.mpr (by simpa using result)
    | true =>
        simp only [if_true]
        rw [ensures_bind]
        refine ensures_pure.mpr (ensures_pure.mpr ?_)
        simpa [patchIndex] using result
  · intro full next pushed' marked half belowHalf other top' isTop halfRep
      raisedRep topRep' owns
    rw [ensures_bind]
    refine (ensures_memFree_topushnode topRep (owns.of_eq
      (show _ = top + (top' + (other + (cell marked half +
        (belowHalf + frame)))) by abel))).mono ?_
    intro _ next owns
    obtain ⟨left, right, isLeft, isRight⟩ := raisedRep.pointers
    have result := halves full next pushed' left right marked half
      belowHalf other top' isLeft isRight halfRep raisedRep topRep' owns
    cases rightcontinuation with
    | false =>
        simp only [Bool.false_eq_true, if_false, pure_bind] at result ⊢
        exact (ensures_readTop topRep' isTop owns).mpr result
    | true =>
        simp only [if_true] at result ⊢
        rw [ensures_run_bind
          (run_ftInsertPatch topRep' isTop isLeft isRight owns)]
        exact (ensures_readTop topRep' isTop owns).mpr result

/-- One round of the loop up the path at the gap of a node. -/
theorem ensures_ftInsertUp_gap
    {post : Option Addr × List PathEnt → Heap → Prop}
    {rightcontinuation : Bool}
    {raised : Raised h}
    (slot : path[pathindex]? = some ⟨this, gap.left.length⟩)
    (gapRep : FrameRep (Rep log h) h node gap hole below)
    (count : gap.size ≤ 2 * ftOrder)
    (fits : Fits (gap.low low) (gap.high high) raised.entry)
    (raisedRep : RaisedRep log raised pushed marked other)
    (topRep : TopRep level pushed top)
    (owns : Owns heap (top + (cell this node + (below + other + frame))))
    (whole : (gap.insert raised).size ≠ ftSplitlimit → ∀ next node' below',
      FrameRep (Rep log h) h node' (gap.insert raised) marked below' →
      Owns next (cell this node' + (below' + frame)) →
      post (none,
        if rightcontinuation then
          let path := path.set pathindex ⟨this, patchIndex finalsharedindex
            pathindex path gap.left.length pushed.right⟩
          if pathindex > finalsharedindex then
            path.modify finalsharedindex
              fun ent => { ent with index := ent.index - 1 }
          else path
        else path) next)
    (halves : (gap.insert raised).size = ftSplitlimit →
      ∀ next pushed' left right half node' belowHalf other' top',
        pushed'.left = some left →
        pushed'.right = some right →
        FrameRep (Rep log h) h node' (gap.insert raised).split.1 marked
          belowHalf →
        RaisedRep log (gap.insert raised).split.2 pushed' (some half)
          other' →
        TopRep (h + 1) pushed' top' →
        Owns next (top' + (other' + (cell half node' +
          (belowHalf + frame)))) →
        Ensures
          (ftInsertUp log rightcontinuation finalsharedindex pathindex
            (if rightcontinuation then
              path.set pathindex (halfEnt left right (patchIndex
                finalsharedindex pathindex path gap.left.length
                pushed.right))
            else path) pushed') post next) :
    Ensures
      (ftInsertUp log rightcontinuation finalsharedindex (pathindex + 1)
        path pushed) post heap := by
  obtain ⟨before, sptr, after, subtrees, beforeLength, afterLength,
    insertedRep⟩ := gapRep.insert raisedRep
  have nearLength : ((gap.left.map Prod.fst).reverse).length =
      gap.left.length := by simp
  have farLength : (gap.right.map Prod.fst).length = gap.right.length := by
    simp
  have entriesLength : node.entries.length = gap.size := by
    rw [gapRep.entries, List.length_append, nearLength, farLength]
    rfl
  rw [← nearLength] at slot whole halves beforeLength
  rw [← farLength] at afterLength
  refine ensures_ftInsertUp_succ slot gapRep.entries subtrees beforeLength
    afterLength ?_ ?_ insertedRep ?_ ?_ topRep owns ?_ ?_
  · rw [gapRep.entries, raisedRep.entry, nearLength]
    exact fitsGap_of_fits fits
  · simp only [entriesLength, ftSplitlimit] at *
    omega
  · rw [insert_size, nearLength, farLength]
    rfl
  · obtain ⟨side, otherTree, entry⟩ := raised
    cases side <;> rfl
  · intro short next owns
    exact whole short next _ _ insertedRep owns
  · intro full next pushed' left right half node' belowHalf other' top'
    exact halves full next pushed' left right half node' belowHalf other'
      top'

end Level

/-! ## Climbing without a mark -/

section Plain

variable {log : List LogRecord} {regime : Regime} {h top : Nat} {heap : Heap}
  {frame cells below other topCells : Part} {ctx : Ctx h top}
  {raised : Raised h} {tree : Tree h} {pushed : Pushed}

theorem Ctx.push_whole
    {gap : Frame (Tree h)}
    {outer : Ctx (h + 1) top}
    (short : (gap.insert raised).size ≠ ftSplitlimit) :
    (Ctx.cons gap outer).push (some raised) =
      (.cons (gap.insert raised) outer, none) := by
  have settled : (gap.insert raised).settle = (gap.insert raised, none) :=
    if_neg short
  rw [Ctx.push, settled]
  cases outer <;> rfl

theorem Ctx.push_halves
    {gap : Frame (Tree h)}
    {outer : Ctx (h + 1) top}
    (full : (gap.insert raised).size = ftSplitlimit) :
    (Ctx.cons gap outer).push (some raised) =
      (.cons (gap.insert raised).split.1
          (outer.push (some (gap.insert raised).split.2)).1,
        (outer.push (some (gap.insert raised).split.2)).2) := by
  have settled : (gap.insert raised).settle =
      ((gap.insert raised).split.1, some (gap.insert raised).split.2) :=
    if_pos full
  rw [Ctx.push, settled]

theorem isLoaded_insert (gap : Frame (Tree h)) (raised : Raised h) :
    (gap.insert raised).hole.isLoaded = true ∧
      (gap.insert raised).split.1.hole.isLoaded = true := by
  obtain ⟨side, otherTree, entry⟩ := raised
  unfold Frame.split
  cases side <;> split <;> exact ⟨rfl, rfl⟩

/-- The element under the cursor of a path, and the path below it. -/
theorem getElem?_of_take
    {base above items : List α}
    (prefixed : items.take (base.length + (above ++ [last]).length) =
      base ++ (above ++ [last])) :
    items[base.length + above.length]? = some last ∧
      items.take (base.length + above.length) = base ++ above := by
  rw [List.length_append, List.length_singleton, ← Nat.add_assoc] at prefixed
  constructor
  · rw [← List.getElem?_take_of_succ, prefixed, ← List.append_assoc,
      ← List.length_append, List.getElem?_append_right le_rfl, Nat.sub_self]
    rfl
  · have shorter := congrArg
      (List.take (base.length + above.length)) prefixed
    rw [List.take_take, Nat.min_eq_left (Nat.le_succ _),
      ← List.append_assoc, ← List.length_append, List.take_left]
      at shorter
    rw [← List.length_append, shorter]

/-- The loop up the path down to the level where `base` ends, above the part
that a right continuation shares, or outside of one.  The tree in the hole goes
into the result. -/
theorem ensures_ftInsertUp_plain
    {post : Option Addr × List PathEnt → Heap → Prop}
    {rightcontinuation : Bool}
    (ctxRep : CtxRep log ctx path hole root cells)
    (prefixed : whole.take (base.length + path.length) = base ++ path)
    (beyond : rightcontinuation = true → finalsharedindex < base.length)
    (ok : ctx.Ok regime low high)
    (region : low ≤ high)
    (bounded : high ≤ regime.limit)
    (raisedOk : RaisedOk regime (ctx.low low) (ctx.high high) (some raised))
    (raisedRep : RaisedRep log raised pushed marked other)
    (topRep : TopRep h pushed topCells)
    (treeRep : Rep log h (.memory marked) tree below)
    (owns : Owns heap (topCells + (other + (below + (cells + frame)))))
    (done : (ctx.push (some raised)).2 = none → ∀ next path',
      path'.length = whole.length →
      path'.take base.length =
        (if rightcontinuation then
          base.modify finalsharedindex
            fun ent => { ent with index := ent.index - 1 }
        else base) →
      Holds (Rep log top (.memory root)
        ((ctx.push (some raised)).1.plug tree)) frame next →
      post (none, path') next)
    (goOn : ∀ raised', (ctx.push (some raised)).2 = some raised' →
      ∀ next path' pushed' marked' other' below' top',
        path'.length = whole.length →
        path'.take base.length = base →
        RaisedRep log raised' pushed' marked' other' →
        TopRep top pushed' top' →
        Rep log top (.memory marked')
          ((ctx.push (some raised)).1.plug tree) below' →
        Owns next (top' + (other' + (below' + frame))) →
        Ensures
          (ftInsertUp log rightcontinuation finalsharedindex base.length
            path' pushed') post next) :
    Ensures
      (ftInsertUp log rightcontinuation finalsharedindex
        (base.length + path.length) whole pushed) post heap := by
  induction ctx generalizing path hole cells whole pushed marked other below
    topCells heap with
  | nil =>
      obtain ⟨rfl, _, rfl⟩ := ctxRep
      rw [List.append_nil] at prefixed
      exact goOn raised rfl heap whole pushed marked other below topCells
        rfl prefixed raisedRep topRep treeRep (owns.of_eq (by abel))
  | @cons h top gap outer inductionHypothesis =>
      obtain ⟨this, node, above, beside, outerCells, rfl, rfl, gapRep,
        outerRep⟩ := ctxRep
      obtain ⟨count, gapOk, outerOk⟩ := ok
      obtain ⟨slot, shorter⟩ := getElem?_of_take prefixed
      obtain ⟨_, outerRegion, outerHigh⟩ := Ctx.low_le_high outerOk region
      obtain ⟨holeLoaded, splitLoaded⟩ := isLoaded_insert gap raised
      rw [List.length_append, List.length_singleton, ← Nat.add_assoc]
      refine (@ensures_ftInsertUp_gap _ _ _ _ (below + (outerCells + frame)))
        slot gapRep count raisedOk.1 raisedRep topRep
        (owns.of_eq (by abel)) ?_ ?_
      · intro short next node' below' insertedRep owns
        rw [Ctx.push_whole short] at done
        obtain ⟨leaked, owned, split, rep⟩ := outerRep.plug (h := h + 1)
          ⟨this, node', below' + below, rfl, rfl,
            insertedRep.fill holeLoaded tree treeRep⟩
        refine done rfl next _ ?_ ?_ ⟨owned, rep, ?_⟩
        · cases rightcontinuation with
          | false => rfl
          | true =>
              simp only [if_true]
              split <;> simp
        · cases rightcontinuation with
          | false =>
              have base' := congrArg (List.take base.length) prefixed
              simpa [List.take_take] using base'
          | true =>
              have early := beyond rfl
              have base' := congrArg (List.take base.length) prefixed
              simp only [if_true]
              rw [if_pos (by omega), List.take_modify,
                List.take_set_of_le (by omega)]
              congr 1
              simpa [List.take_take] using base'
        · refine (@Owns.drop _ _ leaked) (owns.of_eq ?_)
          rw [← add_assoc leaked, ← split]
          abel
      · intro full next pushed' left right half node' belowHalf other' top'
          isLeft isRight halfRep raisedRep' topRep' owns
        rw [Ctx.push_halves full] at done goOn
        have sameLength : (if rightcontinuation = true then
            whole.set (base.length + above.length) (halfEnt left right
              (patchIndex finalsharedindex (base.length + above.length)
                whole gap.left.length pushed.right))
          else whole).length = whole.length := by
          split <;> simp
        have insertedOk := insert_ok gapOk outerRegion raisedOk
        obtain ⟨_, _, raisedOk', _⟩ := split_ok full insertedOk outerRegion
          (outerHigh.trans bounded)
        refine inductionHypothesis
          outerRep ?_ outerOk raisedOk' raisedRep' topRep'
          ⟨half, node', belowHalf + below, rfl, rfl,
            halfRep.fill splitLoaded tree treeRep⟩
          (owns.of_eq (by abel)) (by rwa [sameLength])
          (by rwa [sameLength])
        split
        · rw [List.take_set_of_le le_rfl, shorter]
        · exact shorter

end Plain

/-! ## Climbing with a mark -/

section Shared

variable {log : List LogRecord} {regime : Regime} {h top : Nat} {heap : Heap}
  {frame cells other topCells : Part} {ctx : Ctx h top} {raised : Raised h}
  {pushed : Pushed} {gap : Frame (Tree h)}

/-- The path goes on through the right one of the pushed pointers exactly when
the mark is there. -/
theorem RaisedRep.right_eq_iff
    (raisedRep : RaisedRep log raised pushed (some mark) other)
    (owns : Owns heap (other + (cell mark node + frame))) :
    some mark = pushed.right ↔ raised.side = .right := by
  obtain ⟨side, otherTree, entry⟩ := raised
  obtain ⟨_, halves⟩ := raisedRep
  cases side with
  | right => exact ⟨fun _ => rfl, fun _ => halves.1.symm⟩
  | left =>
      refine ⟨fun same => ?_, nofun⟩
      rw [← same] at halves
      cases h with
      | zero => cases halves.2.1
      | succ h =>
          obtain ⟨_, this, _, _, isSome, rfl, _⟩ := halves
          cases isSome
          exact absurd rfl (Owns.ne (owns.of_eq
            (show _ = cell mark _ + (cell mark _ + _) by
              rw [add_assoc, add_left_comm _ (cell mark node)])))

/-- The index kept for a gap of a split node is its index in the half. -/
theorem halfEnt_split
    (raisedRep : RaisedRep log gap.split.2 pushed (some half) other)
    (isLeft : pushed.left = some left)
    (isRight : pushed.right = some right) :
    halfEnt left right gap.left.length =
      ⟨half, gap.split.1.left.length⟩ := by
  obtain ⟨_, halves⟩ := raisedRep
  unfold halfEnt
  unfold Frame.split at halves ⊢
  by_cases inLeft : gap.left.length ≤ ftOrder
  · rw [if_pos inLeft] at halves ⊢
    rw [if_pos inLeft]
    dsimp only at halves ⊢
    rw [isLeft] at halves
    rw [Option.some.inj halves.1]
  · rw [if_neg inLeft] at halves ⊢
    rw [if_neg inLeft]
    dsimp only at halves ⊢
    rw [isRight] at halves
    rw [Option.some.inj halves.1, List.length_take,
      Nat.min_eq_left (Nat.sub_le _ _)]

theorem patchIndex_shared
    {gap : Frame (Tree h)}
    (shared : above.length < finalsharedindex)
    (raisedRep : RaisedRep log raised pushed (some mark) other)
    (owns : Owns heap (other + (cell mark node + frame))) :
    patchIndex finalsharedindex above.length
        (above ++ [⟨this, gap.left.length⟩] ++ ⟨mark, index⟩ :: rest)
        gap.left.length pushed.right =
      (gap.insert raised).left.length := by
  have member : (above ++ [⟨this, gap.left.length⟩] ++
      ⟨mark, index⟩ :: rest)[above.length + 1]?.map PathEnt.node =
        some mark := by
    rw [List.getElem?_append_right (by simp)]
    simp
  have towards := raisedRep.right_eq_iff owns
  rw [patchIndex, if_neg shared.ne, member]
  obtain ⟨side, otherTree, entry⟩ := raised
  cases side <;> simp [shared, Frame.insert, towards]

theorem set_append_cons
    (before after : List α)
    (old new : α) :
    (before ++ [old] ++ after).set before.length new =
      before ++ [new] ++ after := by
  simp

theorem take_append_cons
    (before after : List α)
    (item : α) :
    (before ++ item :: after).take (before.length + 1) =
      before ++ [item] := by
  rw [List.append_cons, ← List.length_singleton (a := item),
    ← List.length_append, List.take_left]

/-- The loop up the part of the path that a right continuation shares. -/
theorem ensures_ftInsertUp_shared
    {post : Option Addr × List PathEnt → Heap → Prop}
    (ctxRep : CtxRep log ctx path hole root cells)
    (shared : path.length ≤ finalsharedindex)
    (ok : ctx.Ok regime low high)
    (region : low ≤ high)
    (bounded : high ≤ regime.limit)
    (raisedOk : RaisedOk regime (ctx.low low) (ctx.high high) (some raised))
    (raisedRep : RaisedRep log raised pushed (some mark) other)
    (topRep : TopRep h pushed topCells)
    (owns : Owns heap
      (topCells + (other + (cells + (cell mark markNode + frame)))))
    (done : (ctx.push (some raised)).2 = none → ∀ next path' cells',
      CtxRep log (ctx.push (some raised)).1 path' (some mark) root cells' →
      Owns next (cells' + (cell mark markNode + frame)) →
      post (none, path' ++ ⟨mark, index⟩ :: rest) next)
    (grown : ∀ raised', (ctx.push (some raised)).2 = some raised' →
      ∀ next path' pushed' root' other' cells' top',
        CtxRep log (ctx.push (some raised)).1 path' (some mark) root'
          cells' →
        RaisedRep log raised' pushed' root' other' →
        TopRep top pushed' top' →
        Owns next (top' + (other' + (cells' +
          (cell mark markNode + frame)))) →
        post (pushed'.topushnode, path' ++ ⟨mark, index⟩ :: rest) next) :
    Ensures
      (ftInsertUp log true finalsharedindex path.length
        (path ++ ⟨mark, index⟩ :: rest) pushed) post heap := by
  induction ctx generalizing path hole cells pushed mark markNode index rest
    other topCells frame heap with
  | nil =>
      obtain ⟨rfl, _, rfl⟩ := ctxRep
      exact ensures_pure.mpr (grown raised rfl heap [] pushed (some mark)
        other 0 topCells ⟨rfl, rfl, rfl⟩ raisedRep topRep owns)
  | @cons h top gap outer inductionHypothesis =>
      obtain ⟨this, node, above, beside, outerCells, rfl, rfl, gapRep,
        outerRep⟩ := ctxRep
      obtain ⟨count, gapOk, outerOk⟩ := ok
      obtain ⟨_, outerRegion, outerHigh⟩ := Ctx.low_le_high outerOk region
      rw [List.length_append, List.length_singleton] at shared ⊢
      have patched := (@patchIndex_shared _ _ _ _ _ _ _ _ _ _ _ rest this index gap)
        shared raisedRep ((@Owns.drop _ _ (topCells + (cell this node + beside + outerCells))) (owns.of_eq
            (show _ = _ + (other + (cell mark markNode + frame)) by abel)))
      have slot : (above ++ [⟨this, gap.left.length⟩] ++
          ⟨mark, index⟩ :: rest)[above.length]? =
            some ⟨this, gap.left.length⟩ := by
        simp
      refine (@ensures_ftInsertUp_gap _ _ _ _ (outerCells + (cell mark markNode + frame)))
        slot gapRep count
        raisedOk.1 raisedRep topRep (owns.of_eq (by abel)) ?_ ?_
      · intro short next node' below' insertedRep owns
        rw [Ctx.push_whole short] at done
        simp only [if_true]
        rw [if_neg (by omega), patched, set_append_cons]
        exact done rfl next _ _ ⟨this, node', above, below', outerCells,
          rfl, rfl, insertedRep, outerRep⟩ (owns.of_eq (by abel))
      · intro full next pushed' left right half node' belowHalf other' top'
          isLeft isRight halfRep raisedRep' topRep' owns
        rw [Ctx.push_halves full] at done grown
        have insertedOk := insert_ok gapOk outerRegion raisedOk
        obtain ⟨_, _, raisedOk', _⟩ := split_ok full insertedOk outerRegion
          (outerHigh.trans bounded)
        simp only [if_true]
        rw [patched, halfEnt_split raisedRep' isLeft isRight,
          set_append_cons, List.append_assoc]
        refine (@inductionHypothesis _
          (belowHalf + (cell mark markNode + frame)))
          outerRep (by omega) outerOk raisedOk' raisedRep' topRep'
          (owns.of_eq (by abel)) ?_ ?_
        · intro settled next path' cells' ctxRep owns
          have result := done settled next
            (path' ++ [⟨half, (gap.insert raised).split.1.left.length⟩])
            (cell half node' + belowHalf + cells')
            ⟨half, node', path', belowHalf, cells', rfl, rfl, halfRep,
              ctxRep⟩ (owns.of_eq (by abel))
          rwa [List.append_assoc] at result
        · intro raised' raises next path' pushed' root' other' cells' top'
            ctxRep raisedRep topRep owns
          have result := grown raised' raises next
            (path' ++ [⟨half, (gap.insert raised).split.1.left.length⟩])
            pushed' root' other' (cell half node' + belowHalf + cells') top'
            ⟨half, node', path', belowHalf, cells', rfl, rfl, halfRep,
              ctxRep⟩ raisedRep topRep (owns.of_eq (by abel))
          rwa [List.append_assoc] at result

end Shared

end FigTree
end Gdpfs
