import Gdpfs.FigTree.Abstract.Overwrite

/-!
# Writing to a tree

A write goes through, keeps the tree sound and changes lookups inside its range
only.  For the answers to be right it may follow only children in memory, since
what it does below another child is lost.
-/

namespace Gdpfs
namespace FigTree

/-- Whether a write only follows children in memory. -/
def Fig.wayLoaded (fig : Fig) (range : Interval) : Bool :=
  FigTree.wayLoaded range (fig.height + 1) fig.tree
      (iInit byteIndexMin byteIndexMax) &&
    match descend range (fig.height + 1) .nil fig.tree
        (iInit byteIndexMin byteIndexMax) with
    | .null _ => true
    | .hit _ _ hit => hit.rightLoaded range && hit.leftLoaded range

/-- The write does not cut an entry that ends at the last byte index and has
entries in the subtree on its right. -/
def Fig.EdgeClear (fig : Fig) (range : Interval) : Prop :=
  match descend range (fig.height + 1) .nil fig.tree
      (iInit byteIndexMin byteIndexMax) with
  | .null _ => True
  | .hit _ _ hit => hit.EdgeClear range

/-- The invariant of a whole tree. -/
def Fig.Sound (regime : Regime) (fig : Fig) : Prop :=
  FigTree.Sound regime (fig.height + 1) 0 regime.limit fig.tree

/-! ## The node that is hit -/

section Hit

variable {regime : Regime} {h top deep : Nat} {range valid : Interval}
  {ctx : Ctx h top} {tree : Tree h} {inner : Ctx (deep + 1) top}
  {hit : Hit deep} {node : Node (Tree deep)}

/-- A valid interval that holds the range is the whole gap of the node. -/
theorem Struck.gap_eq
    (struck : Struck regime 0 regime.limit range ctx valid tree inner hit
      node)
    (whole : ∀ x, range.left ≤ x → x ≤ range.right →
      valid.left ≤ x ∧ x ≤ valid.right) :
    hit.valid.left = inner.low 0 ∧
      validEnd regime hit.valid = inner.high regime.limit := by
  have descent := struck.descent
  have lower := descent.lower
  have upper := descent.upper
  have ends := descent.ends
  have keeps := struck.keeps whole
  have inGap : ∀ x, inner.low 0 ≤ x → x < inner.high regime.limit →
      hit.valid.left ≤ x ∧ x ≤ hit.valid.right := by
    intro x xLow xHigh
    by_cases inRange : range.left ≤ x ∧ x ≤ range.right
    · exact keeps x inRange.1 inRange.2
    · exact descent.covers x xLow xHigh inRange
  have flag := descent.regular.nonempty_of_mem
    (keeps range.left le_rfl ends).1 (keeps range.left le_rfl ends).2
  obtain ⟨insideLow, insideHigh⟩ := descent.inside flag
  have first := inGap (inner.low 0) le_rfl (by omega)
  have last := inGap (inner.high regime.limit - 1) (by omega) (by omega)
  have limited := (Ctx.low_le_high descent.ok (Nat.zero_le _)).2.2
  refine ⟨by omega, le_antisymm insideHigh ?_⟩
  unfold validEnd
  omega

theorem Struck.overlap
    (struck : Struck regime 0 regime.limit range ctx valid tree inner hit
      node)
    (whole : ∀ x, range.left ≤ x → x ≤ range.right →
      valid.left ≤ x ∧ x ≤ valid.right)
    (flag : range.nonempty = true) :
    Overlap regime range hit := by
  obtain ⟨hitOk, shape, passed⟩ := struck.hitOk (Nat.zero_le _)
  obtain ⟨lows, highs⟩ := struck.gap_eq whole
  obtain ⟨next, rest, _, restShape, absorbed⟩ := struck.scan
  have ordered := hitOk.rest
  have upper := struck.descent.upper
  rw [restShape] at ordered
  obtain ⟨middle, split, lastStarts, _, after⟩ :=
    absorb_spec ordered hitOk.starts hitOk.reaches
      (by omega)
  rw [absorbed, ← restShape] at split
  rw [absorbed] at lastStarts after
  refine
    { toHitOk := hitOk
      flag := flag
      ends := struck.descent.ends
      bounded := struck.descent.bounded
      regular := struck.descent.regular
      lower := by rw [lows]; exact passed
      shape := ⟨middle, split⟩
      lastStarts := lastStarts
      after := after
      edge := ?_ }
  intro edge
  have noLeft : hit.left = [] := by
    cases leftShape : hit.left with
    | nil => rfl
    | cons head left =>
        have leftOrdered := hitOk.left
        rw [leftShape] at leftOrdered ordered
        have entryLow := leftOrdered.2.1
        have entryEnds := leftOrdered.2.2.1
        have firstLow := ordered.2.1
        simp only [lowOf] at firstLow
        omega
  rw [noLeft] at shape
  have firstShape : (node.prune hit.valid).first = hit.kid :=
    (congrArg Prod.fst shape).symm
  have restEq : (node.prune hit.valid).rest = hit.rest :=
    (congrArg Prod.snd shape).symm
  obtain ⟨kid, cleared⟩ := exists_clearKid_of_prune
    struck.descent.sound.ordered (restEq.trans restShape) edge.le
  rw [firstShape] at cleared
  cases deep with
  | zero => exact ⟨hitOk.kid.2, trivial⟩
  | succ deep =>
      rw [cleared]
      cases kid with
      | loaded saved child => exact ⟨rfl, bare_clear child⟩
      | unloaded saved seen stored => exact ⟨rfl, bare_chain (deep + 1)⟩

end Hit

/-! ## The left continuation -/

section Left

variable {regime : Regime} {h top : Nat} {range : Interval} {value : Int}
  {hit : Hit h} {ctx : Ctx h top}

theorem Overlap.leftEntry_eq
    (overlap : Overlap regime range hit)
    (sticksOut : hit.hasLeft range = true) :
    hit.leftEntry range =
        ⟨iInit hit.first.irange.left (range.left - 1), hit.first.value⟩ ∧
      hit.first.irange.left < range.left ∧
      range.left ≤ byteIndexMax := by
  have shorter : hit.first.irange.left < range.left :=
    of_decide_eq_true sticksOut
  obtain ⟨next, rest, shape⟩ := overlap.head
  have ordered := overlap.rest
  rw [shape] at ordered
  have high := ordered.2.2.2.1
  have reaches := overlap.reaches
  have limited := (validEnd_le regime hit.valid).2
  simp only [byteIndexEnd] at limited
  refine ⟨?_, shorter, by omega⟩
  rw [Hit.leftEntry, pred32_of_pos (by omega) (by omega)]

/-- The left continuation ends in the gap of a leaf. -/
theorem Overlap.left_lands
    (overlap : Overlap regime range hit)
    (sticksOut : hit.hasLeft range = true)
    (ok : ctx.Ok regime 0 regime.limit)
    (lows : ctx.low 0 = lowOf hit.valid.left hit.left)
    (highs : ctx.high regime.limit = range.left) :
    ∃ leaf,
      descend (hit.leftEntry range).irange h ctx hit.kid.get
          hit.leftValid = .null leaf ∧
        Landed regime 0 regime.limit (hit.leftEntry range).irange ctx
          hit.kid.get leaf := by
  obtain ⟨entryShape, shorter, rangeBounded⟩ :=
    overlap.leftEntry_eq sticksOut
  obtain ⟨next, rest, shape⟩ := overlap.head
  have ordered := overlap.rest
  rw [shape] at ordered
  obtain ⟨_, firstLow, firstEnds, firstHigh, _⟩ := ordered
  have validLow := overlap.left.low_le_lowOf
  have limited := (validEnd_le regime hit.valid).2
  have highShape : ∀ high, highOf high hit.rest = hit.first.irange.left := by
    intro high
    rw [shape, highOf_cons]
  rw [entryShape]
  by_cases wraps : hit.first.irange.left = 0
  · refine descend_bare (overlap.edge (by omega)).2 ok (Nat.zero_le _) ?_ ?_
    · rw [lows]
      exact firstLow
    · rw [highs]
      simp only [iInit]
      omega
  · obtain ⟨members, validBounded, exactEnds⟩ :=
      (@gapValid_spec _ _ _ _ _ _ _ 0)
        overlap.lower (by rw [highShape]; omega) overlap.rest limited
        rangeBounded overlap.bounded
    rw [highShape] at exactEnds
    change ∀ y, hit.leftValid.left ≤ y ∧ y ≤ hit.leftValid.right ↔ _
      at members
    change hit.leftValid.nonempty = true →
      hit.leftValid.left = _ ∧ hit.leftValid.right + 1 = _ at exactEnds
    refine Descent.lands
      { ok := ok
        lower := by rw [lows]; exact firstLow
        ends := by simp only [iInit]; omega
        upper := by rw [highs]; simp only [iInit]; omega
        regular := overlap.regular.restrictTo _ _
        bounded := validBounded
        inside := ?_
        covers := ?_
        sound := ?_ } (Nat.zero_le _) le_rfl ?_
    · intro validFlag
      obtain ⟨leftEnd, rightEnd⟩ := exactEnds validFlag
      rw [lows, highs, validEnd, leftEnd, rightEnd]
      refine ⟨?_, by omega⟩
      cases hit.left with
      | nil => exact le_max_left _ _
      | cons head left => exact le_max_right _ _
    · intro x xLow xHigh outside
      rw [lows] at xLow
      rw [highs] at xHigh
      simp only [iInit] at outside
      refine (members x).mpr ⟨⟨by omega, ?_⟩, ?_, ?_⟩
      · have below : x < validEnd regime hit.valid := by omega
        unfold validEnd at below
        omega
      · cases leftShape : hit.left with
        | nil => exact Nat.zero_le _
        | cons head left =>
            rw [leftShape] at xLow
            exact xLow
      · rw [highShape]
        omega
    · refine overlap.kid.1.shrink fun x xLow xHigh => ?_
      unfold validEnd at xHigh
      obtain ⟨inValid, inLeft, inRight⟩ :=
        (members x).mp ⟨xLow, by omega⟩
      rw [highShape] at inRight
      refine ⟨?_, inRight⟩
      cases leftShape : hit.left with
      | nil => exact inValid.1
      | cons head left =>
          rw [leftShape] at inLeft
          exact inLeft
    · intro x xLow _ inValid
      have inRight := ((members x).mp inValid).2.2
      rw [highShape] at inRight
      simp only [iInit] at xLow
      omega

end Left

/-! ## The node with the new entry -/

section Frame

variable {regime : Regime} {h : Nat} {range : Interval} {value : Int}
  {hit : Hit h} {right : List (FtEnt × Kid (Tree h))}

theorem Overlap.leftKid_get (hit : Hit h) (range : Interval) :
    ((hit.leftKid range).put hit.kid.get).get = hit.kid.get := by
  unfold Hit.leftKid
  split
  · exact hit.kid.get_visit_put
  · rw [Kid.put_get]

theorem Overlap.frame_ok
    (overlap : Overlap regime range hit)
    (rightOk : RightOk regime range value hit right) :
    FrameOk hit.valid.left (validEnd regime hit.valid) (SoundKid regime h)
      (hit.frame range right) := by
  refine ⟨overlap.left, rightOk.ordered, overlap.leftKids, fun _ => ?_,
    rightOk.kids⟩
  have kidSound : SoundKid regime h 0 0 hit.kid :=
    overlap.kid.shrink (by omega)
  simp only [Hit.frame, Hit.leftKid]
  split
  · exact kidSound.visit
  · exact kidSound

/-- The node with the new entry answers as before outside the range and what
the left continuation still has to insert. -/
theorem Overlap.look_frame
    (overlap : Overlap regime range hit)
    (rightOk : RightOk regime range value hit right)
    (rightLoaded : hit.rightLoaded range = true)
    (dirty : Bool)
    (lower : hit.valid.left ≤ x)
    (upper : x < validEnd regime hit.valid)
    (present : ¬(hit.first.irange.left ≤ x ∧ x < range.left)) :
    look (h + 1) ((hit.frame range right).fill hit.kid.get) x =
      if range.left ≤ x ∧ x ≤ range.right then some value
      else look (h + 1) (⟨dirty, (zipUp hit.left hit.kid hit.rest).1,
        (zipUp hit.left hit.kid hit.rest).2⟩ : Node (Tree h)) x := by
  obtain ⟨next, rest, shape⟩ := overlap.head
  have region : hit.valid.left ≤ validEnd regime hit.valid := by omega
  have orderedOld : Ordered hit.valid.left (validEnd regime hit.valid)
      (zipUp hit.left hit.kid hit.rest).2 :=
    (ordered_zipUp_iff region).mpr ⟨overlap.left, overlap.rest⟩
  have orderedNew :=
    (overlap.frame_ok rightOk).fill_ordered region hit.kid.get
  have rangeLow := overlap.lower
  simp only [Hit.frame, Frame.fill] at orderedNew ⊢
  simp only [look]
  by_cases beyond : lowOf hit.valid.left hit.left ≤ x
  · rw [lookIn_zipUp_right orderedNew beyond,
      lookIn_zipUp_right orderedOld beyond]
    by_cases early : x < range.left
    · rw [if_neg (by omega),
        lookIn_of_lt_highOf rightOk.ordered (by rw [rightOk.starts]; omega),
        Overlap.leftKid_get,
        lookIn_of_lt_highOf overlap.rest
          (by rw [shape, highOf_cons]; omega)]
    · rw [rightOk.look rightLoaded _ x (Nat.le_of_not_lt early) upper]
      simp only [Nat.le_of_not_lt early, true_and]
  · rw [if_neg (by omega)]
    exact lookIn_zipUp_left orderedNew orderedOld
      (Nat.lt_of_not_le beyond) lower

/-- The piece that the left continuation inserts had its value before. -/
theorem Overlap.look_left
    (overlap : Overlap regime range hit)
    (dirty : Bool)
    (upper : x < validEnd regime hit.valid)
    (starts : hit.first.irange.left ≤ x)
    (before : x < range.left) :
    look (h + 1) (⟨dirty, (zipUp hit.left hit.kid hit.rest).1,
        (zipUp hit.left hit.kid hit.rest).2⟩ : Node (Tree h)) x =
      some hit.first.value := by
  obtain ⟨next, rest, shape⟩ := overlap.head
  have reaches := overlap.reaches
  have validLow := overlap.left.low_le_lowOf
  have ordered := overlap.rest
  rw [shape] at ordered
  have firstLow := ordered.2.1
  have orderedOld : Ordered hit.valid.left (validEnd regime hit.valid)
      (zipUp hit.left hit.kid hit.rest).2 :=
    (ordered_zipUp_iff (by omega)).mpr ⟨overlap.left, overlap.rest⟩
  simp only [look]
  rw [lookIn_zipUp_right orderedOld (by omega), shape,
    lookIn_inside starts (by omega)]

end Frame

/-! ## The whole write -/

section Write

variable {regime : Regime} {fig : Fig} {range : Interval} {value : Int}

/-- A write starts with the whole address space as the valid interval. -/
theorem Fig.Sound.descent
    (sound : fig.Sound regime)
    (ends : range.left ≤ range.right)
    (below : range.right < regime.limit) :
    Descent regime 0 regime.limit range (.nil : Ctx (fig.height + 1) _)
      (iInit byteIndexMin byteIndexMax) fig.tree := by
  have limited := regime.bounded
  have whole : validEnd regime (iInit byteIndexMin byteIndexMax) =
      regime.limit := min_eq_left limited
  exact
    { ok := trivial
      lower := Nat.zero_le _
      ends := ends
      upper := below
      regular := ⟨fun _ => Nat.zero_le _, nofun⟩
      bounded := le_rfl
      inside := fun _ => ⟨le_rfl, whole.le⟩
      covers := fun x _ upper _ =>
        ⟨Nat.zero_le _, Nat.le_of_lt_succ (lt_of_lt_of_le upper limited)⟩
      sound := by rw [whole]; exact sound }

/-- After the right continuation and the splits it caused, the path to the gap
left of the new entry is in order. -/
theorem Overlap.path_ok
    {h height : Nat}
    {hit : Hit h}
    {inner : Ctx (h + 1) (height + 1)}
    {right : List (FtEnt × Kid (Tree h))}
    (overlap : Overlap regime range hit)
    (rightOk : RightOk regime range value hit right)
    (innerOk : inner.Ok regime 0 regime.limit)
    (lows : hit.valid.left = inner.low 0)
    (highs : validEnd regime hit.valid = inner.high regime.limit) :
    let settled := (hit.frame range right).settle
    let outer := pushRoot ⟨height, inner⟩ settled.2
    let path : Ctx h (outer.height + 1) := .cons settled.1 outer.ctx
    path.Ok regime 0 regime.limit ∧
      path.low 0 = lowOf hit.valid.left hit.left ∧
      path.high regime.limit = range.left ∧
      (inner.AllLoaded → (hit.leftKid range).isLoaded = true →
        path.AllLoaded) ∧
      ∀ marked x, inner.AllLoaded → x < regime.limit →
        look (outer.height + 1) (path.plug marked) x =
          if inner.low 0 ≤ x ∧ x < inner.high regime.limit then
            look (h + 1) ((hit.frame range right).fill marked) x
          else look (height + 1) (inner.plug (settled.1.fill marked)) x := by
  obtain ⟨_, region, highLe⟩ := Ctx.low_le_high innerOk (Nat.zero_le _)
  have frameOk := overlap.frame_ok rightOk
  rw [lows, highs] at frameOk
  obtain ⟨settledOk, count, raisedOk, settledLow, settledHigh,
    settledLook⟩ := settle_spec frameOk rightOk.count region highLe
  have loadedOuter : inner.AllLoaded → (pushRoot ⟨height, inner⟩
      (hit.frame range right).settle.2).ctx.AllLoaded :=
    (@pushRoot_allLoaded _ ⟨height, inner⟩ _)
  obtain ⟨outerOk, outerLow, outerHigh, outerLook⟩ :=
    (@pushRoot_spec _ _ ⟨height, inner⟩) innerOk raisedOk
  obtain ⟨_, holeSame⟩ := settle_same (hit.frame range right)
  dsimp only
  generalize (hit.frame range right).settle = settled at *
  generalize pushRoot ⟨height, inner⟩ settled.2 = outer at *
  refine ⟨⟨count, ?_, outerOk⟩, ?_, ?_, ?_, ?_⟩
  · rw [outerLow, outerHigh]
    exact settledOk
  · simp only [Ctx.low]
    rw [outerLow, settledLow, lows]
    rfl
  · simp only [Ctx.high]
    rw [outerHigh, settledHigh, ← highs]
    exact rightOk.starts
  · intro loaded kidLoaded
    exact ⟨by rw [holeSame]; exact kidLoaded, loadedOuter loaded⟩
  · intro marked x loaded below
    refine (outerLook (settled.1.fill marked) x loaded below).trans ?_
    split
    · exact settledLook marked x
    · rfl

/-- The tree looks the same from the node that is hit as from the root. -/
theorem Struck.look_hit
    {deep : Nat}
    {valid : Interval}
    {inner : Ctx (deep + 1) (fig.height + 1)}
    {hit : Hit deep}
    {node : Node (Tree deep)}
    (struck : Struck regime 0 regime.limit range
      (.nil : Ctx (fig.height + 1) _) valid fig.tree inner hit node)
    (loaded : inner.AllLoaded)
    (below : x < regime.limit)
    (outside : ¬(range.left ≤ x ∧ x ≤ range.right))
    (other : Tree (deep + 1)) :
    fig.look x =
      if inner.low 0 ≤ x ∧ x < inner.high regime.limit then
        FigTree.look (deep + 1)
          (⟨(node.prune hit.valid).dirty,
            (zipUp hit.left hit.kid hit.rest).1,
            (zipUp hit.left hit.kid hit.rest).2⟩ : Node (Tree deep)) x
      else FigTree.look (fig.height + 1) (inner.plug other) x := by
  have region := Nat.zero_le regime.limit
  have same := struck.look loaded x (Nat.zero_le _) below outside
  refine same.symm.trans ?_
  split
  · next inGap =>
      have through := Ctx.look_plug_inside struck.descent.ok region loaded
        node inGap.1 inGap.2
      have pruned := struck.descent.look_prune inGap.1 inGap.2 outside
      rw [(struck.hitOk region).2.1]
      exact through.trans pruned.symm
  · next outGap =>
      exact Ctx.look_plug_outside struck.descent.ok region loaded node
        other (Nat.zero_le _) below outGap

/-- What a write does to lookups. -/
def Fig.Written
    (fig next : Fig)
    (limit : Nat)
    (range : Interval)
    (value : Int) : Prop :=
  ∀ x, x < limit → next.look x =
    if range.left ≤ x ∧ x ≤ range.right then some value else fig.look x

/-- A write that replaces entries and leaves nothing to insert on the left. -/
theorem Struck.write_without_left
    {deep : Nat}
    {valid : Interval}
    {inner : Ctx (deep + 1) (fig.height + 1)}
    {hit : Hit deep}
    {node : Node (Tree deep)}
    {right : List (FtEnt × Kid (Tree deep))}
    (struck : Struck regime 0 regime.limit range
      (.nil : Ctx (fig.height + 1) _) valid fig.tree inner hit node)
    (overlap : Overlap regime range hit)
    (rightOk : RightOk regime range value hit right)
    (lows : hit.valid.left = inner.low 0)
    (highs : validEnd regime hit.valid = inner.high regime.limit)
    (covered : ¬hit.hasLeft range = true)
    (loaded : regime.Trusting ∨ inner.AllLoaded) :
    let settled := (hit.frame range right).settle
    let outer := pushRoot ⟨fig.height, inner⟩ settled.2
    let next : Fig := ⟨outer.height,
      (Ctx.cons settled.1 outer.ctx).plug hit.kid.get⟩
    next.Sound regime ∧
      (inner.AllLoaded → hit.rightLoaded range = true →
        fig.Written next regime.limit range value) := by
  have starts : range.left ≤ hit.first.irange.left := by
    by_contra later
    exact covered (decide_eq_true (Nat.lt_of_not_le later))
  obtain ⟨pathOk, pathLow, pathHigh, _, pathLook⟩ :=
    overlap.path_ok rightOk struck.descent.ok lows
      highs
  have outerLoaded : inner.AllLoaded → (pushRoot ⟨fig.height, inner⟩
      (hit.frame range right).settle.2).ctx.AllLoaded :=
    (@pushRoot_allLoaded _ ⟨fig.height, inner⟩ _)
  obtain ⟨dirtySame, holeSame⟩ := settle_same (hit.frame range right)
  have holeKid : (hit.frame range right).hole = hit.kid := by
    simp only [Hit.frame, Hit.leftKid]
    rw [if_neg covered]
  dsimp only at pathOk pathLow pathHigh pathLook ⊢
  refine ⟨?_, ?_⟩
  · generalize (hit.frame range right).settle = settled at *
    generalize pushRoot ⟨fig.height, inner⟩ settled.2 = outer at *
    obtain ⟨count, frameOk, outerOk⟩ := pathOk
    obtain ⟨_, outerRegion, outerHigh⟩ :=
      Ctx.low_le_high outerOk (Nat.zero_le _)
    refine (Ctx.sound_plug (h := deep + 1)
      outerOk (Nat.zero_le _) le_rfl
      (Sound.of_region ((FrameOk.length_fill settled.1 _).trans_le count)
        (frameOk.fill_ordered outerRegion _) outerHigh
        (frameOk.fill_kids ?_)) ?_).1
    · rw [holeSame, holeKid, Kid.put_get]
      simp only [Ctx.low, Ctx.high] at pathLow pathHigh
      rw [pathLow, pathHigh]
      exact overlap.kid.shrink (by omega)
    · exact loaded.imp_right fun all =>
        ⟨outerLoaded all, allClean_fill (Or.inl dirtySame)⟩
  · intro allLoaded rightLoaded x below
    refine (pathLook hit.kid.get x allLoaded below).trans ?_
    by_cases inside : range.left ≤ x ∧ x ≤ range.right
    · have lower := struck.descent.lower
      have upper := struck.descent.upper
      rw [if_pos (by omega), if_pos inside,
        overlap.look_frame rightOk rightLoaded true (by omega) (by omega)
          (by omega), if_pos inside]
    · rw [if_neg inside,
        struck.look_hit allLoaded below inside
          ((hit.frame range right).settle.1.fill hit.kid.get)]
      split
      · rw [overlap.look_frame rightOk rightLoaded
          (node.prune hit.valid).dirty (by omega) (by omega) (by omega),
          if_neg inside]
      · rfl

/-- A write that replaces entries and inserts what sticks out on the left. -/
theorem Struck.write_with_left
    {deep : Nat}
    {valid : Interval}
    {inner : Ctx (deep + 1) (fig.height + 1)}
    {hit : Hit deep}
    {node : Node (Tree deep)}
    {right : List (FtEnt × Kid (Tree deep))}
    (struck : Struck regime 0 regime.limit range
      (.nil : Ctx (fig.height + 1) _) valid fig.tree inner hit node)
    (overlap : Overlap regime range hit)
    (rightOk : RightOk regime range value hit right)
    (lows : hit.valid.left = inner.low 0)
    (highs : validEnd regime hit.valid = inner.high regime.limit)
    (sticksOut : hit.hasLeft range = true)
    (loaded : regime.Trusting ∨
      inner.AllLoaded ∧ hit.leftLoaded range = true) :
    let settled := (hit.frame range right).settle
    let outer := pushRoot ⟨fig.height, inner⟩ settled.2
    let path : Ctx deep (outer.height + 1) := .cons settled.1 outer.ctx
    ∃ leaf,
      descend (hit.leftEntry range).irange deep path hit.kid.get
          hit.leftValid = .null leaf ∧
        ((pushRoot ⟨outer.height, leaf⟩
          (some (leafRaised (hit.leftEntry range)))).plug ()).Sound regime ∧
        (inner.AllLoaded → hit.rightLoaded range = true →
          hit.leftLoaded range = true →
            fig.Written ((pushRoot ⟨outer.height, leaf⟩
              (some (leafRaised (hit.leftEntry range)))).plug ())
              regime.limit range value) := by
  obtain ⟨pathOk, pathLow, pathHigh, pathLoaded, pathLook⟩ :=
    overlap.path_ok rightOk struck.descent.ok lows
      highs
  dsimp only at pathOk pathLow pathHigh pathLoaded pathLook ⊢
  obtain ⟨leaf, lands, landed⟩ :=
    overlap.left_lands sticksOut pathOk pathLow pathHigh
  obtain ⟨entryShape, shorter, _⟩ := overlap.leftEntry_eq sticksOut
  have leafLoaded : inner.AllLoaded → hit.leftLoaded range = true →
      leaf.AllLoaded := by
    intro allLoaded leftLoaded
    simp only [Hit.leftLoaded, sticksOut, Bool.not_true, Bool.false_or,
      Bool.and_eq_true] at leftLoaded
    have kidLoaded : (hit.leftKid range).isLoaded = true := by
      rw [Hit.leftKid, if_pos sticksOut, Kid.isLoaded_visit]
      exact leftLoaded.1
    have way := descend_allLoaded (pathLoaded allLoaded kidLoaded)
      leftLoaded.2
    rw [lands] at way
    exact way
  refine ⟨leaf, lands, ?_, ?_⟩
  all_goals rw [entryShape] at landed ⊢
  · exact (@Landed.sound_pushRoot _ _ _ _ ⟨_, .cons (hit.frame range right).settle.1 _⟩)
      landed rfl
      (by simp only [iInit]; omega)
      (loaded.imp_right fun ⟨allLoaded, leftLoaded⟩ =>
        leafLoaded allLoaded leftLoaded)
  · intro allLoaded rightLoaded leftLoaded x below
    refine ((@Landed.look_pushRoot _ _ _ _ _ ⟨_, .cons (hit.frame range right).settle.1 _⟩)
      landed rfl
      (by simp only [iInit]; omega) (leafLoaded allLoaded leftLoaded)
      below).trans ?_
    have viaPath := pathLook hit.kid.get x allLoaded below
    have lower := struck.descent.lower
    have upper := struck.descent.upper
    have ends := overlap.ends
    have firstLow : inner.low 0 ≤ hit.first.irange.left := by
      obtain ⟨next, rest, shape⟩ := overlap.head
      have ordered := overlap.rest
      rw [shape] at ordered
      have firstLow := ordered.2.1
      have validLow := overlap.left.low_le_lowOf
      omega
    by_cases inside : range.left ≤ x ∧ x ≤ range.right
    · rw [if_neg (by simp only [iInit]; omega), if_pos inside]
      refine viaPath.trans ?_
      rw [if_pos (by omega),
        overlap.look_frame rightOk rightLoaded true (by omega) (by omega)
          (by omega), if_pos inside]
    · rw [if_neg inside,
        struck.look_hit allLoaded below inside
          ((hit.frame range right).settle.1.fill hit.kid.get)]
      by_cases piece : hit.first.irange.left ≤ x ∧ x < range.left
      · rw [if_pos (by simp only [iInit]; omega), if_pos (by omega),
          overlap.look_left _ (by omega) piece.1 piece.2]
      · rw [if_neg (by simp only [iInit]; omega)]
        refine viaPath.trans ?_
        split
        · rw [overlap.look_frame rightOk rightLoaded
            (node.prune hit.valid).dirty (by omega) (by omega) piece,
            if_neg inside]
        · rfl

/-- A write goes through, keeps the tree sound, and changes lookups inside its
range only. -/
theorem Fig.write_spec
    (sound : fig.Sound regime)
    (flag : range.nonempty = true)
    (ends : range.left ≤ range.right)
    (below : range.right < regime.limit)
    (edgeClear : fig.EdgeClear range)
    (loaded : regime.Trusting ∨ fig.wayLoaded range = true)
    (value : Int) :
    ∃ next, fig.write range value = some next ∧ next.Sound regime ∧
      (fig.wayLoaded range = true →
        fig.Written next regime.limit range value) := by
  have spec := descend_spec (Nat.zero_le _) le_rfl
    (sound.descent ends below)
  have way : fig.wayLoaded range = true → _ := fun allLoaded =>
    (@descend_allLoaded _ _ _ _ (.nil : Ctx (fig.height + 1) _)) trivial
      (Bool.and_eq_true_iff.mp allLoaded).1
  unfold Fig.EdgeClear at edgeClear
  unfold Fig.write
  cases stop : descend range (fig.height + 1) .nil fig.tree
      (iInit byteIndexMin byteIndexMax) with
  | null leaf =>
      rw [stop] at spec way
      refine ⟨_, rfl, (@Landed.sound_pushRoot _ _ _ _ ⟨fig.height, .nil⟩)
        spec flag ends
        (loaded.imp_right way), fun allLoaded x limit => ?_⟩
      exact (@Landed.look_pushRoot _ _ _ _ _ ⟨fig.height, .nil⟩) spec flag
        ends (way allLoaded) limit
  | hit deep inner hit =>
      rw [stop] at spec way edgeClear
      obtain ⟨node, struck⟩ := spec
      have limited := regime.bounded
      have whole : ∀ x, range.left ≤ x → x ≤ range.right →
          (iInit byteIndexMin byteIndexMax).left ≤ x ∧
            x ≤ (iInit byteIndexMin byteIndexMax).right := by
        intro x _ upper
        refine ⟨Nat.zero_le _, Nat.le_of_lt_succ ?_⟩
        exact lt_of_le_of_lt upper (lt_of_lt_of_le below limited)
      have overlap := struck.overlap whole flag
      obtain ⟨lows, highs⟩ := struck.gap_eq whole
      have sides : fig.wayLoaded range = true →
          hit.rightLoaded range = true ∧ hit.leftLoaded range = true := by
        intro allLoaded
        have both := (Bool.and_eq_true_iff.mp allLoaded).2
        rw [stop] at both
        exact Bool.and_eq_true_iff.mp both
      obtain ⟨right, rightShape, rightOk⟩ :=
        overlap.rightPart_spec edgeClear
          (loaded.imp_right fun allLoaded => (sides allLoaded).1)
      dsimp only
      rw [rightShape]
      dsimp only
      by_cases sticksOut : hit.hasLeft range = true
      · rw [if_pos sticksOut]
        obtain ⟨leaf, lands, nextSound, written⟩ :=
          struck.write_with_left overlap rightOk lows highs sticksOut
            (loaded.imp_right fun allLoaded =>
              ⟨way allLoaded, (sides allLoaded).2⟩)
        rw [lands]
        exact ⟨_, rfl, nextSound, fun allLoaded =>
          written (way allLoaded) (sides allLoaded).1
            (sides allLoaded).2⟩
      · rw [if_neg sticksOut]
        obtain ⟨nextSound, written⟩ :=
          struck.write_without_left overlap rightOk lows highs sticksOut
            (loaded.imp_right way)
        exact ⟨_, rfl, nextSound, fun allLoaded =>
          written (way allLoaded) (sides allLoaded).1⟩

end Write

end FigTree
end Gdpfs
