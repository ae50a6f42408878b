import Gdpfs.FigTree.Refine.Climb
import Gdpfs.FigTree.Abstract.WriteSpec

/-!
# Writing in the heap

`ft_write` does to the heap what `Fig.write` does to a tree value, as long as
the tree is sound and the continuations end in the gaps of leaves.
-/

namespace Gdpfs
namespace FigTree

open Log Effect
open Cells (Owns Holds cell)

/-- The heap represents a whole tree. -/
def FigRep
    (log : List LogRecord)
    (fig : Fig)
    (this : Figtree)
    (cells : Part) : Prop :=
  Rep log (fig.height + 1) (.memory (some this.root)) fig.tree cells

/-! ## The new root -/

section Root

variable {log : List LogRecord} {h : Nat} {raised : Raised h}
  {pushed : Pushed}

/-- The node that is pushed past the old root is the new root. -/
theorem RaisedRep.root
    (raisedRep : RaisedRep log raised pushed marked other)
    (lowerPtr : SubtreePtr.inmemory lower = true ∧ lower.st = pushed.left)
    (upperPtr : SubtreePtr.inmemory upper = true ∧ upper.st = pushed.right) :
    FrameRep (Rep log h) h ⟨[pushed.topushent], [lower, upper], h, true⟩
      (rootFrame raised) marked other := by
  obtain ⟨side, otherTree, entry⟩ := raised
  obtain ⟨rfl, halves⟩ := raisedRep
  cases side with
  | left =>
      obtain ⟨isMarked, otherRep⟩ := halves
      rw [← upperPtr.2] at otherRep
      exact ⟨rfl, rfl, rfl, [], lower, [upper], 0, other, rfl,
        (zero_add _).symm, repKids_nil.mpr ⟨rfl, rfl⟩,
        repKids_singleton ⟨upperPtr.1, nofun, otherRep⟩, lowerPtr.1, nofun,
        lowerPtr.2.trans isMarked⟩
  | right =>
      obtain ⟨isMarked, otherRep⟩ := halves
      rw [← lowerPtr.2] at otherRep
      exact ⟨rfl, rfl, rfl, [lower], upper, [], other, 0, rfl,
        (add_zero _).symm, repKids_singleton ⟨lowerPtr.1, nofun, otherRep⟩,
        repKids_nil.mpr ⟨rfl, rfl⟩, upperPtr.1, nofun,
        upperPtr.2.trans isMarked⟩

theorem isLoaded_rootFrame (raised : Raised h) :
    (rootFrame raised).hole.isLoaded = true := by
  obtain ⟨side, otherTree, entry⟩ := raised
  cases side <;> rfl

theorem pushRoot_of_none
    {root : RootCtx h}
    {raised : Option (Raised h)}
    (stays : (root.ctx.push raised).2 = none) :
    pushRoot root raised = ⟨root.height, (root.ctx.push raised).1⟩ := by
  simp only [pushRoot, stays]

theorem pushRoot_of_some
    {root : RootCtx h}
    {raised : Option (Raised h)}
    {above : Raised (root.height + 1)}
    (grows : (root.ctx.push raised).2 = some above) :
    pushRoot root raised = ⟨root.height + 1,
      (root.ctx.push raised).1.append (.cons (rootFrame above) .nil)⟩ := by
  simp only [pushRoot, grows]

theorem Ctx.push_none (ctx : Ctx h top) : ctx.push none = (ctx, none) := by
  cases ctx <;> rfl

theorem pushRoot_none (root : RootCtx h) : pushRoot root none = root := by
  simp only [pushRoot, Ctx.push_none]

theorem height_pushRoot_le
    (root : RootCtx h)
    (raised : Option (Raised h)) :
    (pushRoot root raised).height ≤ root.height + 1 := by
  unfold pushRoot
  dsimp only
  split
  · exact Nat.le_succ _
  · exact le_rfl

theorem plug_pushRoot_of_some
    {root : RootCtx h}
    {raised : Option (Raised h)}
    {above : Raised (root.height + 1)}
    (grows : (root.ctx.push raised).2 = some above)
    (tree : Tree h) :
    (pushRoot root raised).plug tree = ⟨root.height + 1,
      (rootFrame above).fill ((root.ctx.push raised).1.plug tree)⟩ := by
  rw [pushRoot_of_some grows]
  exact congrArg (Fig.mk (root.height + 1)) (Ctx.plug_append _ _ _)

end Root

/-! ## Inserting without a mark -/

section Plain

variable {log : List LogRecord} {regime : Regime} {h height : Nat}
  {heap : Heap} {frame cells outer : Part} {range valid : Interval}
  {value : Int} {this : Figtree}

/-- `_ft_insert` outside of a right continuation. -/
theorem ensures_ftInsert_plain
    {post : Figtree × List PathEnt × InsertCont → Heap → Prop}
    {ctx : Ctx h (height + 1)}
    {tree : Tree h}
    (rep : Rep log h (.memory start) tree cells)
    (ctxRep : CtxRep log ctx path start (some this.root) outer)
    (regular : valid.Regular)
    (fits : path.length + h ≤ maxdepth)
    (lands : ∀ leaf, descend range h ctx tree valid = .null leaf →
      leaf.Ok regime 0 regime.limit ∧
        RaisedOk regime (leaf.low 0) (leaf.high regime.limit)
          (some (leafRaised ⟨range, value⟩)))
    (owns : Owns heap (cells + (outer + frame)))
    (null : ∀ leaf, descend range h ctx tree valid = .null leaf →
      ∀ next this' path',
        Holds (FigRep log ((pushRoot ⟨height, leaf⟩
          (some (leafRaised ⟨range, value⟩))).plug ()) this') frame next →
        post (this', path', ⟨none, none⟩) next)
    (struck : ∀ deep inner hit,
      descend range h ctx tree valid = .hit deep inner hit →
      ∀ next path' node ic here outer',
        HitRep log range value hit node ic here →
        CtxRep log inner path' (some node) (some this.root) outer' →
        Owns next (here + (outer' + frame)) →
        post (this, path' ++ [⟨node,
          if hit.hasRight range then hit.left.length + 1
          else hit.left.length⟩], ic) next) :
    Ensures (ftInsert log maxdepth this ⟨range, value, start, valid⟩ path
      false) post heap := by
  rw [ftInsert]
  refine Ensures.bind (ensures_ftInsertDown rep ctxRep
    regular (by omega) owns value []) ?_
  rintro result next ⟨stopCells, stopRep, owns⟩
  cases stop : descend range h ctx tree valid with
  | hit deep inner hit =>
      rw [stop] at stopRep
      obtain ⟨path', node, ic, here, outer', rfl, rfl, hitRep, innerRep⟩ :=
        stopRep
      simp only [Bool.false_eq_true, if_false, pure_bind, ensures_pure]
      exact struck deep inner hit stop next path' node ic here outer' hitRep
        innerRep (owns.of_eq (add_assoc _ _ _))
  | null leaf =>
      rw [stop] at stopRep
      obtain ⟨path', rfl, leafRep⟩ := stopRep
      obtain ⟨leafOk, raisedOk⟩ := lands leaf stop
      have finish := null leaf stop
      simp only [Bool.false_eq_true, if_false, pure_bind, List.nil_append]
      rw [ensures_bind, ← Nat.zero_add path'.length]
      refine (@ensures_ftInsertUp_plain _ _ 0 _ _ frame _ _ _ _ _ _ () _ _ _ _ [])
        leafRep (by simp) (by simp) leafOk (Nat.zero_le _) le_rfl raisedOk
        (raisedRep_leaf log _) ⟨rfl, rfl⟩ ⟨rfl, rfl⟩
        (owns.of_eq (by simp)) ?_ ?_
      · intro stays next path'' _ _ holds
        refine ensures_pure.mpr (finish next this path'' ?_)
        rw [pushRoot_of_none stays]
        exact holds
      · intro raised' grows next path'' pushed' marked other' below top _ _
          raisedRep topRep treeRep owns
        obtain ⟨root, lower, upper, isTop, rfl, lowerPtr, upperPtr⟩ := topRep
        refine ensures_pure.mpr ?_
        simp only [isTop]
        refine ensures_pure.mpr (finish next ⟨root⟩ path'' ?_)
        refine (congrArg (fun fig => Holds (FigRep log fig ⟨root⟩) frame
          next) ((@plug_pushRoot_of_some _ ⟨height, leaf⟩) grows
            ())).mpr ?_
        exact ⟨_, ⟨root, _, _, rfl, rfl,
          (raisedRep.root lowerPtr upperPtr).fill
            (isLoaded_rootFrame raised') _ treeRep⟩,
          owns.of_eq (by abel)⟩

end Plain

/-! ## Paths to a mark -/

section Paths

variable {log : List LogRecord} {h middle top : Nat} {ctx : Ctx h middle}

theorem CtxRep.append
    {above : Ctx middle top}
    (ctxRep : CtxRep log ctx path hole between cells)
    (aboveRep : CtxRep log above outer between root outerCells) :
    CtxRep log (ctx.append above) (outer ++ path) hole root
      (cells + outerCells) := by
  induction ctx generalizing path hole cells with
  | nil =>
      obtain ⟨rfl, rfl, rfl⟩ := ctxRep
      rw [List.append_nil, zero_add]
      exact aboveRep
  | cons gap rest inductionHypothesis =>
      obtain ⟨this, node, path, beside, restCells, rfl, rfl, gapRep,
        restRep⟩ := ctxRep
      exact ⟨this, node, outer ++ path, beside, restCells + outerCells,
        (List.append_assoc _ _ _).symm, by abel, gapRep,
        inductionHypothesis restRep aboveRep⟩

/-- A path starts at the root. -/
theorem CtxRep.head_path
    (ctxRep : CtxRep log ctx path (some mark) root cells) :
    (path ++ ⟨mark, index⟩ :: rest)[0]?.map PathEnt.node = root := by
  induction ctx generalizing path mark index rest cells with
  | nil =>
      obtain ⟨rfl, rfl, _⟩ := ctxRep
      rfl
  | cons gap outer inductionHypothesis =>
      obtain ⟨this, node, above, beside, restCells, rfl, rfl, gapRep,
        outerRep⟩ := ctxRep
      rw [List.append_assoc]
      exact inductionHypothesis outerRep

/-- The root is one of the cells of a path, or the node at its end. -/
theorem CtxRep.root_cell
    (ctxRep : CtxRep log ctx path (some mark) root cells)
    (markNode : FtNode) :
    ∃ this node rest, root = some this ∧
      cells + cell mark markNode = cell this node + rest := by
  induction ctx generalizing path mark markNode cells with
  | nil =>
      obtain ⟨_, rfl, rfl⟩ := ctxRep
      exact ⟨mark, markNode, 0, rfl, by abel⟩
  | cons gap outer inductionHypothesis =>
      obtain ⟨this, node, above, beside, outerCells, rfl, rfl, gapRep,
        outerRep⟩ := ctxRep
      obtain ⟨top, topNode, rest, isRoot, split⟩ :=
        inductionHypothesis outerRep node
      refine ⟨top, topNode, rest + (beside + cell mark markNode), isRoot, ?_⟩
      rw [← add_assoc, ← split]
      abel

end Paths

/-! ## The right continuation -/

/-- What `_ft_insert` does with the path after the loop up the path of a right
continuation. -/
def ftInsertRightEnd
    (log : List LogRecord)
    (maxdepth : Nat)
    (this : Figtree)
    (finalsharedindex : Nat)
    (grown : Option Addr)
    (path : List PathEnt) : FigM (Figtree × List PathEnt) :=
  match grown with
  | none => pure (this, path.take (finalsharedindex + 1))
  | some root => do
      let path ← ftInsertShift log maxdepth path root
      pure (⟨root⟩, path.take (finalsharedindex + 1 + 1))

section Right

variable {log : List LogRecord} {regime : Regime} {h height : Nat}
  {heap : Heap} {frame : Part} {this : Figtree}

theorem ensures_of_rightEnd
    {climb : FigM (Option Addr × List PathEnt)}
    {post : Figtree × List PathEnt × InsertCont → Heap → Prop}
    (ensures : Ensures
      (do
        let (grown, climbed) ← climb
        ftInsertRightEnd log maxdepth this finalsharedindex grown climbed)
      (fun result next => post (result.1, result.2, ic) next) heap) :
    Ensures
      (do
        let climbed ← climb
        match climbed.1 with
        | none =>
            pure (this, climbed.2.take (finalsharedindex + 1), ic)
        | some root => do
            let path ← ftInsertShift log maxdepth climbed.2 root
            pure (⟨root⟩, path.take (finalsharedindex + 1 + 1), ic))
      post heap := by
  rw [ensures_bind] at ensures ⊢
  refine ensures.mono ?_
  rintro ⟨_ | root, climbed⟩ next ensured
  · obtain ⟨_, _, run, holds⟩ := ensured
    cases run
    exact ensures_pure.mpr holds
  · rw [ensures_bind]
    refine (ensures_bind.mp ensured).mono fun path next shifted => ?_
    obtain ⟨_, _, run, holds⟩ := shifted
    cases run
    exact ensures_pure.mpr holds

/-- The new root goes on top of the path, with the index of the half that the
path continues in. -/
theorem ensures_ftInsertRightEnd_grown
    {post : Figtree × List PathEnt → Heap → Prop}
    {ctx : Ctx h (height + 1)}
    {raised : Raised (height + 1)}
    {pushed : Pushed}
    (ctxRep : CtxRep log ctx path (some mark) root cells)
    (raisedRep : RaisedRep log raised pushed root other)
    (topRep : TopRep (height + 1) pushed topCells)
    (room : (path ++ ⟨mark, index⟩ :: rest).length < maxdepth)
    (owns : Owns heap
      (topCells + (other + (cells + (cell mark markNode + frame)))))
    (finish : ∀ this' path' cells',
      CtxRep log (ctx.append (.cons (rootFrame raised) .nil)) path'
        (some mark) (some this'.root) cells' →
      Owns heap (cells' + (cell mark markNode + frame)) →
      post (this', path' ++ [⟨mark, index⟩]) heap) :
    Ensures
      (ftInsertRightEnd log maxdepth this path.length pushed.topushnode
        (path ++ ⟨mark, index⟩ :: rest)) post heap := by
  obtain ⟨top, topNode, others, rfl, split⟩ := ctxRep.root_cell markNode
  have member := (@CtxRep.head_path _ _ _ _ _ _ _ _ rest index) ctxRep
  have towards := raisedRep.right_eq_iff (Owns.drop
    (owns.of_eq (show _ = topCells + (other +
      (cell top topNode + (others + frame))) by
        rw [← add_assoc (cell top topNode), ← split]; abel)))
  obtain ⟨root, lower, upper, isTop, rfl, lowerPtr, upperPtr⟩ := topRep
  have shift : ∀ k, (⟨root, k⟩ :: (path ++ ⟨mark, index⟩ :: rest)).take
      (path.length + 1 + 1) = (⟨root, k⟩ :: path) ++ [⟨mark, index⟩] := by
    intro k
    rw [List.take_succ_cons, take_append_cons, List.cons_append]
  have rooted := finish ⟨root⟩ (⟨root, (rootFrame raised).left.length⟩ ::
    path) (cells + (cell root _ + other + 0))
    ((@CtxRep.append _ _ _ _ _ _ _ _ _
        [(⟨root, (rootFrame raised).left.length⟩ : PathEnt)]) ctxRep
      ⟨root, _, [], other, 0, rfl, rfl,
        raisedRep.root lowerPtr upperPtr, rfl, rfl, rfl⟩)
    (owns.of_eq (by abel))
  rw [isTop]
  unfold ftInsertRightEnd
  dsimp only
  rw [ensures_bind, ftInsertShift,
    ensures_run_bind (run_subtreeGet (by rfl) upperPtr.1 owns),
    ensures_run_bind (run_subtreeGet (by rfl) lowerPtr.1 owns),
    ensures_run_bind (run_ensure (by simpa using room) _ _), member,
    upperPtr.2, lowerPtr.2]
  obtain ⟨side, otherTree, entry⟩ := raised
  cases side with
  | right =>
      rw [if_pos (towards.mpr rfl)]
      refine ensures_pure.mpr (ensures_pure.mpr ?_)
      rw [shift]
      exact rooted
  | left =>
      rw [if_neg (fun same => Side.noConfusion (towards.mp same)),
        ensures_run_bind (run_ensure (by
          simpa using raisedRep.halves.1.symm) _ _)]
      refine ensures_pure.mpr (ensures_pure.mpr ?_)
      rw [shift]
      exact rooted

/-- The rest of a right continuation after the node that was hit split. -/
theorem ensures_climbShared
    {post : Figtree × List PathEnt → Heap → Prop}
    {ctx : Ctx h (height + 1)}
    {raised : Raised h}
    {pushed : Pushed}
    (ctxRep : CtxRep log ctx path hole (some this.root) cells)
    (ok : ctx.Ok regime 0 regime.limit)
    (raisedOk : RaisedOk regime (ctx.low 0) (ctx.high regime.limit)
      (some raised))
    (raisedRep : RaisedRep log raised pushed (some mark) other)
    (topRep : TopRep h pushed topCells)
    (room : (path ++ ⟨mark, index⟩ :: rest).length < maxdepth)
    (owns : Owns heap
      (topCells + (other + (cells + (cell mark markNode + frame)))))
    (finish : ∀ next this' path' cells',
      CtxRep log (pushRoot ⟨height, ctx⟩ (some raised)).ctx path'
        (some mark) (some this'.root) cells' →
      Owns next (cells' + (cell mark markNode + frame)) →
      post (this', path' ++ [⟨mark, index⟩]) next) :
    Ensures
      (do
        let (grown, climbed) ← ftInsertUp log true path.length path.length
          (path ++ ⟨mark, index⟩ :: rest) pushed
        ftInsertRightEnd log maxdepth this path.length grown climbed) post
      heap := by
  have length := ctxRep.length_path
  rw [List.length_append] at room
  rw [ensures_bind]
  refine ensures_ftInsertUp_shared ctxRep le_rfl ok (Nat.zero_le _) le_rfl
    raisedOk raisedRep topRep owns ?_ ?_
  · intro stays next path' cells' ctxRep' owns
    have length' := ctxRep'.length_path
    have same : path.length = path'.length := by omega
    have shape := (@pushRoot_of_none _ ⟨height, ctx⟩) stays
    rw [shape] at finish
    refine ensures_pure.mpr ?_
    rw [same, take_append_cons]
    exact finish next this path' cells' ctxRep' owns
  · intro raised' grows next path' pushed' root' other' cells' top' ctxRep'
      raisedRep' topRep' owns
    have length' := ctxRep'.length_path
    have same : path.length = path'.length := by omega
    have shape := (@pushRoot_of_some _ ⟨height, ctx⟩) grows
    rw [shape] at finish
    rw [same] at room ⊢
    rw [← List.length_append] at room
    exact ensures_ftInsertRightEnd_grown ctxRep' raisedRep' topRep' room owns
      (finish next)

/-- Both halves of what is raised, once the marked one is given. -/
theorem RaisedRep.halvesRep
    {raised : Raised h}
    {child : Tree h}
    (raisedRep : RaisedRep log raised pushed marked other)
    (childRep : Rep log h (.memory marked) child below) :
    ∃ lower upper, other + below = lower + upper ∧
      Rep log h (.memory pushed.left) (raised.lower child) lower ∧
      Rep log h (.memory pushed.right) (raised.upper child) upper := by
  obtain ⟨side, otherTree, entry⟩ := raised
  obtain ⟨_, halves⟩ := raisedRep
  cases side with
  | left =>
      obtain ⟨rfl, otherRep⟩ := halves
      exact ⟨below, other, add_comm _ _, childRep, otherRep⟩
  | right =>
      obtain ⟨rfl, otherRep⟩ := halves
      exact ⟨other, below, rfl, otherRep, childRep⟩

/-- The round of a right continuation at the node that was hit: the raised
entry goes into the gap right of the new entry, and the path is moved to the
gap left of it. -/
theorem ensures_climbHit
    {post : Figtree × List PathEnt → Heap → Prop}
    {hit : Hit h}
    {inner : Ctx (h + 1) (height + 1)}
    {raised : Raised h}
    {child : Tree h}
    (isRight : right = (⟨range, value⟩, .loaded none (raised.lower child)) ::
      (raised.entry, .loaded none (raised.upper child)) :: hit.right)
    (prefixed : climbed.take (path.length + 1) =
      path ++ [⟨node, hit.left.length + 1⟩])
    (room : climbed.length < maxdepth)
    (leftRep : RepKids (KidRep (Rep log h)) before
      (hit.left.map Prod.snd).reverse leftCells)
    (leftGap : HoleRep (Rep log h) leftPtr (hit.leftKid range) leftStart)
    (rightRep : RepKids (KidRep (Rep log h)) after
      (hit.right.map Prod.snd) rightCells)
    (innerRep : CtxRep log inner path (some node) (some this.root) outer)
    (innerOk : inner.Ok regime 0 regime.limit)
    (fits : Fits (range.right + 1) (highOf high hit.right) raised.entry)
    (count : hit.left.length + hit.right.length + 1 ≤ 2 * ftOrder)
    (raisedOk : RaisedOk regime (inner.low 0) (inner.high regime.limit)
      (hit.frame range right).settle.2)
    (raisedRep : RaisedRep log raised pushed marked other)
    (topRep : TopRep h pushed topCells)
    (childRep : Rep log h (.memory marked) child below)
    (owns : Owns heap (topCells +
      (cell node
          ⟨(hit.left.map Prod.fst).reverse ++
              ⟨range, value⟩ :: hit.right.map Prod.fst,
            before ++ leftPtr :: nextPtr :: after, h, true⟩ +
        (leftCells + (other + below + rightCells) + (outer + frame)))))
    (finish : ∀ next this' path' cells',
      CtxRep log (.cons (hit.frame range right).settle.1
          (pushRoot ⟨height, inner⟩ (hit.frame range right).settle.2).ctx)
        path' leftStart (some this'.root) cells' →
      Owns next (cells' + frame) →
      post (this', path') next) :
    Ensures
      (do
        let (grown, climbed) ← ftInsertUp log true path.length
          (path.length + 1) climbed pushed
        ftInsertRightEnd log maxdepth this path.length grown climbed) post
      heap := by
  obtain ⟨lower, upper, halves, lowerRep, upperRep⟩ :=
    raisedRep.halvesRep childRep
  have beforeLength := leftRep.length_eq
  have afterLength := rightRep.length_eq
  simp only [List.length_reverse, List.length_map] at beforeLength afterLength
  have gapRep : FrameRep (Rep log h) h
      (insertedNode ((hit.left.map Prod.fst).reverse ++ [⟨range, value⟩])
        (hit.right.map Prod.fst) (before ++ [leftPtr]) after nextPtr h
        pushed)
      (hit.frame range right) leftStart
      (leftCells + (other + below + rightCells)) := by
    refine ⟨?_, rfl, rfl, before, leftPtr, subtreeSet nextPtr pushed.left ::
      subtreeSet (after.headD nullPtr) pushed.right :: after, leftCells,
      lower + (upper + rightCells), ?_, by rw [halves]; abel, leftRep, ?_,
      leftGap⟩
    · simp [insertedNode, Hit.frame, isRight, raisedRep.entry]
    · simp [insertedNode]
    · rw [isRight]
      exact ⟨lower, _, rfl, ⟨rfl, by simp, lowerRep⟩, upper, rightCells,
        rfl, ⟨rfl, by simp, upperRep⟩, rightRep⟩
  obtain ⟨rest, rfl⟩ : ∃ rest,
      climbed = path ++ ⟨node, hit.left.length + 1⟩ :: rest := by
    refine ⟨climbed.drop (path.length + 1), ?_⟩
    rw [List.append_cons, ← prefixed, List.take_append_drop]
  have nearLength : ((hit.left.map Prod.fst).reverse ++
      [(⟨range, value⟩ : FtEnt)]).length = hit.left.length + 1 := by
    simp
  have patched : patchIndex path.length path.length
      (path ++ ⟨node, hit.left.length + 1⟩ :: rest)
      ((hit.left.map Prod.fst).reverse ++
        [(⟨range, value⟩ : FtEnt)]).length pushed.right =
        hit.left.length := by
    rw [patchIndex, if_pos rfl, nearLength, Nat.add_sub_cancel]
  have moved : ∀ ent, (path ++ ⟨node, hit.left.length + 1⟩ :: rest).set
      path.length ent = path ++ ent :: rest := by
    intro ent
    simp
  have fitsHere : fitsGap (((hit.left.map Prod.fst).reverse ++
      [⟨range, value⟩]) ++ hit.right.map Prod.fst) pushed.topushent
      (hit.left.length + 1) = true := by
    have fitting := (@fitsGap_of_fits _ 0 _ _ ((⟨range, value⟩, hit.kid) :: hit.left))
      fits
    rw [raisedRep.entry]
    simpa using fitting
  rw [ensures_bind]
  refine ensures_ftInsertUp_succ
    ?_ ?_ ?_ ?_ ?_ ?_ ?_ gapRep ?_ rfl topRep owns ?_ ?_
  · rw [nearLength]
    simp
  · simp
  · simp
  · rw [nearLength]
    simp [beforeLength]
  · simp [afterLength]
  · rw [nearLength]
    simpa using fitsHere
  · simp only [ftSplitlimit, ftOrder, List.length_append, List.length_cons,
      List.length_reverse, List.length_map] at count ⊢
    omega
  · simp only [Hit.frame, Frame.size, isRight, nearLength, List.length_cons,
      List.length_map]
    omega
  · intro short next owns
    have settled : (hit.frame range right).settle =
        (hit.frame range right, none) := if_neg short
    rw [settled] at finish
    rw [pushRoot_none] at finish
    simp only [if_true, lt_irrefl, if_false]
    refine ensures_pure.mpr ?_
    rw [patched, moved, take_append_cons]
    exact finish next this _ _ ⟨node, _, path, _, outer, rfl, rfl, gapRep,
      innerRep⟩ (owns.of_eq (by dsimp only; abel))
  · intro full next pushed' left right' half node' belowHalf other' top'
      isLeft isRight' halfRep raisedRep' topRep' owns
    have settled : (hit.frame range right).settle =
        ((hit.frame range right).split.1,
          some (hit.frame range right).split.2) := if_pos full
    rw [settled] at finish raisedOk
    have ent := halfEnt_split raisedRep' isLeft isRight'
    change halfEnt left right' hit.left.length = _ at ent
    simp only [if_true]
    rw [patched, moved, ent]
    refine ensures_bind.mp ((@ensures_climbShared _ _ _ _ _ (belowHalf + frame))
      innerRep innerOk raisedOk raisedRep'
      topRep' (by simpa using room) (owns.of_eq (by abel)) ?_)
    intro next this' path' cells' ctxRep owns
    exact finish next this' _ _ ⟨half, node', path', belowHalf, cells', rfl,
      rfl, halfRep, ctxRep⟩ (owns.of_eq (by abel))

/-- What was done to the child in a gap, as the child that the gap then
has. -/
theorem HoleRep.put
    {kid : Kid (Tree h)}
    {child : Tree h}
    (holeRep : HoleRep (Rep log h) sptr kid ptr)
    (childRep : Rep log h (.memory ptr) child below) :
    ∃ leaked owned, below = leaked + owned ∧
      KidRep (Rep log h) sptr (kid.put child) owned := by
  cases kid with
  | loaded saved old =>
      obtain ⟨loaded, position, rfl⟩ := holeRep
      exact ⟨0, below, (zero_add _).symm, loaded, position, childRep⟩
  | unloaded saved seen stored =>
      obtain ⟨unloaded, isSeen, position, storedRep⟩ := holeRep
      exact ⟨below, 0, (add_zero _).symm, unloaded, isSeen, position,
        storedRep, rfl⟩

/-- `_ft_insert` in a right continuation leaves the path at the gap left of the
new entry. -/
theorem ensures_ftInsert_right
    {post : Figtree × List PathEnt × InsertCont → Heap → Prop}
    {hit : Hit h}
    {inner : Ctx (h + 1) (height + 1)}
    (overlap : Overlap regime range hit)
    (edgeClear : hit.EdgeClear range)
    (sticksOut : hit.hasRight range = true)
    (rightShape : hit.rightPart range value = some right)
    (rightOk : RightOk regime range value hit right)
    (innerOk : inner.Ok regime 0 regime.limit)
    (lows : hit.valid.left = inner.low 0)
    (highs : validEnd regime hit.valid = inner.high regime.limit)
    (leftRep : RepKids (KidRep (Rep log h)) before
      (hit.left.map Prod.snd).reverse leftCells)
    (leftGap : HoleRep (Rep log h) leftPtr (hit.leftKid range) leftStart)
    (rightGap : GapRep log true nextPtr hit.next rightStart there)
    (rightRep : RepKids (KidRep (Rep log h)) after
      (hit.right.map Prod.snd) rightCells)
    (innerRep : CtxRep log inner path (some node) (some this.root) outer)
    (room : height + 2 ≤ maxdepth)
    (nodeShape : hitNode =
      ⟨(hit.left.map Prod.fst).reverse ++
          ⟨range, value⟩ :: hit.right.map Prod.fst,
        before ++ leftPtr :: nextPtr :: after, h, true⟩)
    (owns : Owns heap (cell node hitNode +
      (leftCells + (there + rightCells) + (outer + frame))))
    (finish : ∀ next this' path' cells',
      CtxRep log (.cons (hit.frame range right).settle.1
          (pushRoot ⟨height, inner⟩ (hit.frame range right).settle.2).ctx)
        path' leftStart (some this'.root) cells' →
      Owns next (cells' + frame) →
      post (this', path', ⟨none, none⟩) next) :
    Ensures
      (ftInsert log maxdepth this
        ⟨(hit.rightEntry range).irange, hit.last.value, rightStart,
          hit.rightValid⟩ (path ++ [⟨node, hit.left.length + 1⟩]) true)
      post heap := by
  obtain ⟨leaf, lands, landed⟩ := overlap.right_lands edgeClear sticksOut
  obtain ⟨entryShape, longer, beforeNext, _⟩ :=
    overlap.rightEntry_eq sticksOut
  have raisedOk := landed.raisedOk (by rw [entryShape]; rfl)
    (by rw [entryShape]; exact longer) hit.last.value
  have rightOrdered := overlap.last.1.2.2.2.2
  have after' := overlap.after
  have highLe := rightOrdered.highOf_le_high.trans
    (validEnd_le regime hit.valid).1
  have length := innerRep.length_path
  have count := overlap.count
  have fewer := overlap.last.2.2.1
  simp only [ftOrder] at count
  rw [rightPart_of_lands sticksOut lands] at rightShape
  rw [ftInsert, ← List.append_nil (path ++ [_])]
  refine Ensures.bind ((@ensures_ftInsertDown _ _ _ _ _ (cell node hitNode + (leftCells + rightCells + (outer + frame))) _ _ _ _ _ _ _ (.nil : Ctx h h))
    (rightGap.child (Or.inl rfl)) ⟨rfl, rfl, rfl⟩
    (overlap.regular.restrictTo _ _) ?_ (owns.of_eq (by abel)) _ _) ?_
  · simp only [List.length_append, List.length_singleton, List.length_nil]
    omega
  rintro result next ⟨stopCells, stopRep, owns⟩
  change StopRep log _ _ _ _ (descend (hit.rightEntry range).irange h .nil
    hit.next.get hit.rightValid) result stopCells at stopRep
  rw [lands] at stopRep
  obtain ⟨innerPath, rfl, leafRep⟩ := stopRep
  have final : (path ++ [(⟨node, hit.left.length + 1⟩ : PathEnt)]).length -
      1 = path.length := by simp
  simp only [List.append_nil, if_true, pure_bind, final]
  refine ensures_of_rightEnd (ensures_bind.mpr ?_)
  rw [List.length_append]
  refine (@ensures_ftInsertUp_plain _ _ 0 _ _ (cell node hitNode + (leftCells + rightCells + (outer + frame))) _ _ _ _ _ _ ())
    leafRep (by rw [← List.length_append, List.take_length]) (by simp)
    landed.ok after' highLe raisedOk (raisedRep_leaf log _) ⟨rfl, rfl⟩
    ⟨rfl, rfl⟩ (owns.of_eq (by simp)) ?_ ?_
  · rintro stays next climbed _ prefixed ⟨childCells, childRep, owns⟩
    change (leaf.push (some (leafRaised (hit.rightEntry range)))).2 = none
      at stays
    simp only [stays] at rightShape
    have isRight := (Option.some.inj rightShape).symm
    obtain ⟨leaked, owned, rfl, nextRep⟩ := rightGap.pointer.put childRep
    have settled : (hit.frame range right).settle =
        (hit.frame range right, none) := if_neg (by
      rw [isRight]
      simp only [Hit.frame, Frame.size, List.length_cons, ftSplitlimit,
        ftOrder]
      omega)
    rw [settled, pushRoot_none] at finish
    simp only [if_true] at prefixed
    rw [modify_append_cons, List.length_append, List.length_singleton]
      at prefixed
    refine ensures_pure.mpr ?_
    rw [prefixed]
    refine finish next this _ (cell node hitNode +
      (leftCells + (owned + rightCells)) + outer) ⟨node, hitNode, path,
        leftCells + (owned + rightCells), outer, rfl, rfl, ?_, innerRep⟩
      (Owns.drop (owns.of_eq (by abel)))
    rw [nodeShape, isRight]
    exact ⟨rfl, rfl, rfl, before, leftPtr, nextPtr :: after, leftCells,
      owned + rightCells, rfl, rfl, leftRep,
      ⟨owned, rightCells, rfl, nextRep, rightRep⟩, leftGap⟩
  · intro raised grows next climbed pushed marked other below top sameLength
      prefixed raisedRep topRep childRep owns
    change (leaf.push (some (leafRaised (hit.rightEntry range)))).2 =
      some raised at grows
    simp only [grows] at rightShape
    have fits := (Ctx.push_spec landed.ok after' highLe raisedOk).2.1
    change RaisedOk regime _ _ (leaf.push (some (leafRaised
      (hit.rightEntry range)))).2 at fits
    rw [grows] at fits
    obtain ⟨_, region, innerHigh⟩ :=
      Ctx.low_le_high innerOk (Nat.zero_le _)
    have frameOk := overlap.frame_ok rightOk
    rw [lows, highs] at frameOk
    have settledOk := (settle_spec frameOk rightOk.count region
      innerHigh).2.2.1
    rw [List.length_append, List.length_singleton] at prefixed ⊢
    refine ensures_bind.mp ((@ensures_climbHit _ _ _ _ _ _ _ _ _ _ _ _ _ _ _ _ _ _ _ _ _ _ _ _ _ _ _ nextPtr)
      (Option.some.inj rightShape).symm prefixed ?_ leftRep leftGap rightRep
      innerRep innerOk fits.1 ?_ settledOk raisedRep topRep childRep
      ?_ finish)
    · have leafLength := leafRep.length_path
      rw [sameLength]
      simp only [List.length_append, List.length_singleton]
      omega
    · simp only [ftOrder]
      omega
    · rw [← nodeShape]
      exact owns.of_eq (by abel)

end Right

/-! ## The whole write -/

section Write

variable {log : List LogRecord} {regime : Regime} {heap : Heap}
  {frame cells : Part} {fig : Fig} {this : Figtree} {start stop : Nat}

/-- What `ft_write` does last: insert the piece on the left, if any. -/
def ftWriteLeft
    (log : List LogRecord)
    (maxdepth : Nat)
    (this : Figtree)
    (path : List PathEnt)
    (leftc : Option InsertArgs) : FigM Figtree :=
  match leftc with
  | none => pure this
  | some leftc => do
      let (this, _, newstarinserts) ←
        ftInsert log maxdepth this leftc path false
      ensure (newstarinserts.leftc.isNone && newstarinserts.rightc.isNone)
        .starLeft
      pure this

theorem ensures_ftWriteLeft
    {h height : Nat}
    {hit : Hit h}
    {gap : Frame (Tree h)}
    {outer : Ctx (h + 1) (height + 1)}
    {range : Interval}
    {post : Figtree → Heap → Prop}
    (ctxRep : CtxRep log (.cons gap outer) path leftStart (some this.root)
      cells)
    (hole : gap.hole.isLoaded = hit.kid.isLoaded)
    (child : hit.hasLeft range = true ∨ hit.kid.isLoaded = true →
      Rep log h (.memory leftStart) hit.kid.get here)
    (lands : hit.hasLeft range = true → ∃ leaf,
      descend (hit.leftEntry range).irange h (.cons gap outer) hit.kid.get
          hit.leftValid = .null leaf ∧
        leaf.Ok regime 0 regime.limit ∧
        RaisedOk regime (leaf.low 0) (leaf.high regime.limit)
          (some (leafRaised (hit.leftEntry range))))
    (regular : hit.leftValid.Regular)
    (fits : height + 1 ≤ maxdepth)
    (owns : Owns heap (cells + (here + frame)))
    (covered : ¬hit.hasLeft range = true →
      Holds (FigRep log ⟨height, (Ctx.cons gap outer).plug hit.kid.get⟩ this)
        frame heap → post this heap)
    (sticksOut : hit.hasLeft range = true → ∀ leaf,
      descend (hit.leftEntry range).irange h (.cons gap outer) hit.kid.get
        hit.leftValid = .null leaf →
      ∀ next this',
        Holds (FigRep log ((pushRoot ⟨height, leaf⟩
          (some (leafRaised (hit.leftEntry range)))).plug ()) this')
          frame next → post this' next) :
    Ensures
      (ftWriteLeft log maxdepth this path
        (if hit.hasLeft range then
          some ⟨(hit.leftEntry range).irange, hit.first.value, leftStart,
            hit.leftValid⟩
        else none)) post heap := by
  have length := ctxRep.length_path
  by_cases hasLeft : hit.hasLeft range = true
  · obtain ⟨leaf, landing, leafOk, raisedOk⟩ := lands hasLeft
    rw [if_pos hasLeft, ftWriteLeft, ensures_bind]
    refine (@ensures_ftInsert_plain _ regime)
      (child (Or.inl hasLeft)) ctxRep regular (by omega) ?_ (owns.of_eq (add_left_comm _ _ _)) ?_ ?_
    · intro leaf' landing'
      cases landing.symm.trans landing'
      exact ⟨leafOk, raisedOk⟩
    · intro leaf' landing' next this' path' holds
      dsimp only
      rw [ensures_run_bind (run_ensure (by rfl) _ _), ensures_pure]
      exact sticksOut hasLeft leaf' landing' next this' holds
    · intro deep inner hit' strikes
      cases landing.symm.trans strikes
  · rw [if_neg hasLeft]
    refine ensures_pure.mpr (covered hasLeft ?_)
    obtain ⟨node, cell', above, beside, outerCells, rfl, rfl, gapRep,
      outerRep⟩ := ctxRep
    by_cases loaded : hit.kid.isLoaded = true
    · obtain ⟨leaked, owned, split, rep⟩ := outerRep.plug (h := h + 1)
        ⟨node, cell', beside + here, rfl, rfl,
          gapRep.fill (hole.trans loaded) _ (child (Or.inr loaded))⟩
      refine ⟨owned, rep, (@Owns.drop _ _ leaked) (owns.of_eq ?_)⟩
      rw [← add_assoc leaked, ← split]
      abel
    · obtain ⟨leaked, owned, split, rep⟩ := outerRep.plug (h := h + 1)
        ⟨node, cell', beside, rfl, rfl,
          gapRep.fill_unloaded (by rw [hole]; simpa using loaded) _⟩
      refine ⟨owned, rep, (@Owns.drop _ _ (leaked + here))
        (owns.of_eq ?_)⟩
      rw [add_right_comm leaked here, ← add_assoc leaked, ← split]
      abel

/-- What `ft_write` does first: the write itself and its right continuation.
The path it hands back is the one the left continuation starts from. -/
def ftWriteShared
    (log : List LogRecord)
    (maxdepth : Nat)
    (this : Figtree)
    (start stop : Nat)
    (value : Int) : FigM (Figtree × List PathEnt × InsertCont) := do
  let iargs : InsertArgs :=
    { range := iInit start stop
      value := value
      startNode := some this.root
      valid := iInit byteIndexMin byteIndexMax }
  let (this, path, starinserts) ←
    ftInsert log maxdepth this iargs [] false
  let (this, path) ←
    match starinserts.rightc with
    | none => pure (this, path)
    | some rightc => do
        let (this, path, newstarinserts) ←
          ftInsert log maxdepth this rightc path true
        ensure (newstarinserts.leftc.isNone && newstarinserts.rightc.isNone)
          .starRight
        pure (this, path)
  pure (this, path, starinserts)

/-- `ft_write` in two parts. -/
theorem ftWrite_eq_shared
    (log : List LogRecord)
    (this : Figtree)
    (start stop : Nat)
    (value : Int) :
    ftWrite log this start stop value = (do
      let maxdepth := (← loadNode this.root).height + 2
      let (this, path, starinserts) ←
        ftWriteShared log maxdepth this start stop value
      ftWriteLeft log maxdepth this path starinserts.leftc) := by
  unfold ftWrite ftWriteShared
  simp only [bind_assoc, pure_bind]
  refine bind_congr fun node => bind_congr fun inserted => ?_
  cases inserted.2.2.rightc with
  | none =>
      simp only [pure_bind]
      rfl
  | some rightc =>
      simp only [bind_assoc, pure_bind]
      rfl

/-- What is known of the entries that a write has hit. -/
structure SharedHit
    (regime : Regime)
    (fig : Fig)
    (range : Interval)
    (value : Int)
    (inner : Ctx (h + 1) (fig.height + 1))
    (hit : Hit h)
    (right : List (FtEnt × Kid (Tree h))) : Prop where
  strikes : descend range (fig.height + 1) .nil fig.tree
    (iInit byteIndexMin byteIndexMax) = .hit h inner hit
  overlap : Overlap regime range hit
  ok : inner.Ok regime 0 regime.limit
  lows : hit.valid.left = inner.low 0
  highs : validEnd regime hit.valid = inner.high regime.limit
  rightShape : hit.rightPart range value = some right
  rightOk : RightOk regime range value hit right

/-- Before its left continuation, `ft_write` has inserted the whole range, or
the path leads to the gap left of the new entry. -/
theorem ensures_ftWriteShared
    {post : Figtree × List PathEnt × InsertCont → Heap → Prop}
    (rep : FigRep log fig this cells)
    (sound : fig.Sound regime)
    (ends : start ≤ stop)
    (below : stop < regime.limit)
    (edgeClear : fig.EdgeClear (iInit start stop))
    (loaded : regime.Trusting ∨ fig.wayLoaded (iInit start stop) = true)
    (owns : Owns heap (cells + frame))
    (value : Int)
    (null : ∀ leaf,
      descend (iInit start stop) (fig.height + 1) .nil fig.tree
        (iInit byteIndexMin byteIndexMax) = .null leaf →
      ∀ next this' path',
        Holds (FigRep log ((pushRoot ⟨fig.height, leaf⟩
          (some (leafRaised ⟨iInit start stop, value⟩))).plug ()) this')
          frame next →
        post (this', path', ⟨none, none⟩) next)
    (struck : ∀ {h : Nat} (inner : Ctx (h + 1) (fig.height + 1))
      (hit : Hit h) (right : List (FtEnt × Kid (Tree h))),
      SharedHit regime fig (iInit start stop) value inner hit right →
      ∀ leftPtr leftStart rightc here,
        GapRep log (hit.hasLeft (iInit start stop)) leftPtr hit.kid
          leftStart here →
        ∀ next this' path' cells',
          CtxRep log (.cons (hit.frame (iInit start stop) right).settle.1
              (pushRoot ⟨fig.height, inner⟩
                (hit.frame (iInit start stop) right).settle.2).ctx)
            path' leftStart (some this'.root) cells' →
          Owns next (cells' + (here + frame)) →
          post (this', path',
            { leftc :=
                if hit.hasLeft (iInit start stop) then
                  some ⟨(hit.leftEntry (iInit start stop)).irange,
                    hit.first.value, leftStart, hit.leftValid⟩
                else none
              rightc := rightc }) next) :
    Ensures (ftWriteShared log (fig.height + 2) this start stop value) post
      heap := by
  have spec := descend_spec (Nat.zero_le _) le_rfl
    ((@Fig.Sound.descent _ _ (iInit start stop)) sound ends below)
  rw [ftWriteShared, ensures_bind]
  refine (@ensures_ftInsert_plain _ regime _ _ _ _ _ _ _ _ _ _ _ _ _ _ (.nil : Ctx (fig.height + 1) (fig.height + 1)))
    rep ⟨rfl, rfl, rfl⟩ ⟨fun _ => Nat.zero_le _, nofun⟩ (by simp) ?_
    (owns.of_eq (by rw [zero_add])) ?_ ?_
  · intro leaf lands
    rw [lands] at spec
    exact ⟨spec.ok, spec.raisedOk rfl ends value⟩
  · intro leaf lands next this' path' holds
    dsimp only
    rw [pure_bind]
    exact ensures_pure.mpr (null leaf lands next this' path' holds)
  · intro deep inner hit strikes next path node' ic here outer hitRep
      innerRep owns
    rw [strikes] at spec
    obtain ⟨tree, strike⟩ := spec
    unfold Fig.EdgeClear at edgeClear
    rw [strikes] at edgeClear
    have limited := regime.bounded
    have inside : ∀ x, (iInit start stop).left ≤ x →
        x ≤ (iInit start stop).right →
        (iInit byteIndexMin byteIndexMax).left ≤ x ∧
          x ≤ (iInit byteIndexMin byteIndexMax).right := by
      intro x _ upper
      refine ⟨Nat.zero_le _, Nat.le_of_lt_succ ?_⟩
      exact lt_of_le_of_lt upper (lt_of_lt_of_le below limited)
    have overlap := strike.overlap inside rfl
    obtain ⟨lows, highs⟩ := strike.gap_eq inside
    have rightLoaded : fig.wayLoaded (iInit start stop) = true →
        hit.rightLoaded (iInit start stop) = true := by
      intro allLoaded
      have both := (Bool.and_eq_true_iff.mp allLoaded).2
      rw [strikes] at both
      exact (Bool.and_eq_true_iff.mp both).1
    obtain ⟨right, rightShape, rightOk⟩ :=
      overlap.rightPart_spec edgeClear
        (loaded.imp_right rightLoaded)
    obtain ⟨before, leftPtr, nextPtr, after, leftStart, rightStart, leftCells,
      here, there, rightCells, rfl, leftRep, leftGap, rightGap, rightRep,
      rfl⟩ := hitRep
    have finish := struck inner hit right ⟨strikes, overlap,
      strike.descent.ok, lows, highs, rightShape, rightOk⟩
    dsimp only
    by_cases hasRight : hit.hasRight (iInit start stop) = true
    · simp only [if_pos hasRight]
      rw [hasRight] at rightGap
      rw [ensures_bind]
      refine (@ensures_ftInsert_right _ _ _ _ _ (here + frame)) overlap edgeClear hasRight rightShape
        rightOk strike.descent.ok lows highs leftRep leftGap.pointer rightGap
        rightRep innerRep le_rfl rfl
        (owns.of_eq (by abel)) ?_
      intro next this' path' cells' ctxRep owns
      dsimp only
      rw [ensures_run_bind (run_ensure (by rfl) _ _), pure_bind]
      refine ensures_pure.mpr ?_
      exact finish leftPtr leftStart _ here leftGap next this' path' cells'
        ctxRep owns
    · simp only [if_neg hasRight]
      rw [Bool.not_eq_true] at hasRight
      rw [hasRight] at rightGap
      rw [Hit.rightPart, if_neg (by rw [hasRight]; exact Bool.false_ne_true)]
        at rightShape
      have isRight := (Option.some.inj rightShape).symm
      have count := overlap.count
      have fewer := overlap.last.2.2.1
      have settled : (hit.frame (iInit start stop) right).settle =
          (hit.frame (iInit start stop) right, none) := if_neg (by
        rw [isRight]
        simp only [Hit.frame, Frame.size, List.length_cons, ftSplitlimit,
          ftOrder] at count ⊢
        omega)
      rw [settled, pushRoot_none] at finish
      rw [pure_bind]
      refine ensures_pure.mpr (finish leftPtr leftStart _ here leftGap next
        this _ _ ⟨node', _, path, leftCells + (there + rightCells), outer,
          rfl, rfl, ?_, innerRep⟩ (owns.of_eq (by abel)))
      rw [isRight]
      exact ⟨rfl, rfl, rfl, before, leftPtr, nextPtr :: after, leftCells,
        there + rightCells, rfl, rfl, leftRep,
        ⟨there, rightCells, rfl, rightGap.kidRep, rightRep⟩,
        leftGap.pointer⟩

theorem ensures_ftWrite
    (rep : FigRep log fig this cells)
    (sound : fig.Sound regime)
    (ends : start ≤ stop)
    (below : stop < regime.limit)
    (edgeClear : fig.EdgeClear (iInit start stop))
    (loaded : regime.Trusting ∨ fig.wayLoaded (iInit start stop) = true)
    (owns : Owns heap (cells + frame))
    (value : Int) :
    Ensures (ftWrite log this start stop value)
      (fun this' next => ∃ fig',
        fig.write (iInit start stop) value = some fig' ∧
          Holds (FigRep log fig' this') frame next) heap := by
  have whole := rep
  obtain ⟨_, node, beneath, same, rfl, nodeRep⟩ := rep
  cases same
  have owned := owns.of_eq (add_assoc _ _ _)
  rw [ftWrite_eq_shared, ensures_run_bind (run_loadNode owned),
    nodeRep.height, ensures_bind]
  refine ensures_ftWriteShared whole sound ends below edgeClear loaded owns
    value ?_ ?_
  · intro leaf lands next this' path' holds
    refine ensures_pure.mpr ⟨_, ?_, holds⟩
    rw [Fig.write, lands]
  · intro h inner hit right shared leftPtr leftStart rightc here leftGap next
      this' path' cells' ctxRep owns
    obtain ⟨strikes, overlap, innerOk, lows, highs, rightShape, rightOk⟩ :=
      shared
    obtain ⟨pathOk, pathLow, pathHigh, _, _⟩ := overlap.path_ok
      rightOk innerOk lows highs
    refine (@ensures_ftWriteLeft _ regime) ctxRep ?_ leftGap.child
      ?_ (overlap.regular.restrictTo _ _)
      (Nat.succ_le_succ (height_pushRoot_le _ _)) owns ?_ ?_
    · rw [(settle_same _).2, Hit.frame, Hit.leftKid]
      split
      · exact hit.kid.isLoaded_visit
      · rfl
    · intro hasLeft
      obtain ⟨leaf, lands, landed⟩ :=
        overlap.left_lands hasLeft pathOk pathLow pathHigh
      obtain ⟨entryShape, shorter, _⟩ := overlap.leftEntry_eq hasLeft
      refine ⟨leaf, lands, landed.ok, landed.raisedOk ?_ ?_ _⟩
      · rw [entryShape]
        rfl
      · rw [entryShape]
        exact Nat.le_sub_one_of_lt shorter
    · intro covered holds
      refine ⟨_, ?_, holds⟩
      rw [Fig.write, strikes]
      dsimp only
      rw [rightShape]
      dsimp only
      rw [if_neg covered]
      rfl
    · intro hasLeft leaf lands next this' holds
      refine ⟨_, ?_, holds⟩
      rw [Fig.write, strikes]
      dsimp only
      rw [rightShape]
      dsimp only
      rw [if_pos hasLeft, lands]

end Write

end FigTree
end Gdpfs
