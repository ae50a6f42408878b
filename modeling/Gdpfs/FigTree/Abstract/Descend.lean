import Gdpfs.FigTree.Abstract.Push

/-!
# Descent

A descent prunes the nodes on its way and ends in a gap of a leaf, or at a node
with entries that overlap the range.  `Descent` is what holds between the path
so far, the valid interval and the range: the valid interval lies in the gap
around the hole, and what it leaves out of the gap is covered by the range.
The two continuations of a write start with a valid interval that is disjoint
from their range, so they never meet an overlapping entry.
-/

namespace Gdpfs
namespace FigTree

/-! ## The scan of one node -/

section Scan

variable {range : Interval} {left rest : List (FtEnt × Kid C)} {kid : Kid C}
  {low high : Nat}

/-- Where the scan of a node ends, when all entries passed so far are left of
the range. -/
theorem place_spec
    (region : low ≤ high)
    (ordered : Ordered low high (zipUp left kid rest).2)
    (passed : lowOf low left ≤ range.left)
    (below : range.right < high) :
    match place range left kid rest with
    | .gap left' kid' right =>
        zipUp left' kid' right = zipUp left kid rest ∧
          lowOf low left' ≤ range.left ∧ range.right < highOf high right
    | .hit left' kid' entry next right =>
        zipUp left' kid' ((entry, next) :: right) = zipUp left kid rest ∧
          lowOf low left' ≤ range.left ∧
          entry.irange.left ≤ range.right ∧
          range.left ≤ entry.irange.right := by
  induction rest generalizing left kid with
  | nil => exact ⟨rfl, passed, below⟩
  | cons head rest inductionHypothesis =>
      obtain ⟨entry, next⟩ := head
      unfold place
      by_cases overlaps : iOverlaps entry.irange range = true
      · rw [if_pos overlaps]
        obtain ⟨reaches, starts⟩ := iOverlaps_iff.mp overlaps
        exact ⟨rfl, passed, starts, reaches⟩
      · rw [if_neg overlaps]
        rw [iOverlaps_iff] at overlaps
        obtain ⟨_, flag, _, bounds⟩ := (ordered_zipUp_iff region).mp ordered
        by_cases after : iRightOfInt entry.irange range = true
        · rw [if_pos after]
          exact ⟨rfl, passed, (iRightOfInt_iff.mp after).2⟩
        · rw [if_neg after]
          have before : ¬range.right < entry.irange.left := fun beyond =>
            after (iRightOfInt_iff.mpr ⟨flag, beyond⟩)
          refine inductionHypothesis ordered ?_
          simp only [lowOf_cons]
          omega

/-- The entries that a range covers from their first byte on, up to the last
one that overlaps it. -/
theorem absorb_spec
    {entry : FtEnt}
    {next : Kid C}
    (ordered : Ordered low high ((entry, next) :: rest))
    (starts : entry.irange.left ≤ range.right)
    (reaches : range.left ≤ entry.irange.right)
    (below : range.right < high) :
    ∃ middle,
      (entry, next) :: rest =
        middle ++ ((absorb range entry next rest).1,
          (absorb range entry next rest).2.1) ::
            (absorb range entry next rest).2.2 ∧
      (absorb range entry next rest).1.irange.left ≤ range.right ∧
      range.left ≤ (absorb range entry next rest).1.irange.right ∧
      range.right < highOf high (absorb range entry next rest).2.2 := by
  induction rest generalizing entry next low with
  | nil => exact ⟨[], rfl, starts, reaches, below⟩
  | cons head rest inductionHypothesis =>
      obtain ⟨after, beyond⟩ := head
      have tail := ordered.2.2.2.2
      have afterFlag := tail.1
      have afterLow := tail.2.1
      have afterEnds := tail.2.2.1
      unfold absorb
      by_cases overlaps : iLeftOverlaps after.irange range = true
      · rw [if_pos overlaps]
        obtain ⟨_, _, inside⟩ := iLeftOverlaps_iff.mp overlaps
        obtain ⟨middle, shape, bounds⟩ :=
          inductionHypothesis tail inside (by omega)
        exact ⟨(entry, next) :: middle,
          congrArg ((entry, next) :: ·) shape, bounds⟩
      · rw [if_neg overlaps]
        refine ⟨[], rfl, starts, reaches, ?_⟩
        rw [iLeftOverlaps_iff] at overlaps
        simp only [highOf_cons]
        by_contra inside
        exact overlaps ⟨afterFlag, by omega, by omega⟩

end Scan

/-! ## The gap of a valid interval -/

/-- The byte after the valid interval, up to the limit. -/
def validEnd (regime : Regime) (valid : Interval) : Nat :=
  min regime.limit (valid.right + 1)

/-- How the path, the valid interval and the range of a descent fit together. -/
structure Descent
    (regime : Regime)
    (low high : Nat)
    (range : Interval)
    (ctx : Ctx h top)
    (valid : Interval)
    (tree : Tree h) : Prop where
  ok : ctx.Ok regime low high
  lower : ctx.low low ≤ range.left
  ends : range.left ≤ range.right
  upper : range.right < ctx.high high
  regular : valid.Regular
  bounded : valid.right ≤ byteIndexMax
  inside : valid.nonempty = true →
    ctx.low low ≤ valid.left ∧ validEnd regime valid ≤ ctx.high high
  covers : ∀ x, ctx.low low ≤ x → x < ctx.high high →
    ¬(range.left ≤ x ∧ x ≤ range.right) →
      valid.left ≤ x ∧ x ≤ valid.right
  sound : Sound regime h valid.left (validEnd regime valid) tree

/-- A descent that ended in the gap of a leaf. -/
structure Landed
    (regime : Regime)
    (low high : Nat)
    (range : Interval)
    (ctx : Ctx h top)
    (tree : Tree h)
    (leaf : Ctx 0 top) : Prop where
  ok : leaf.Ok regime low high
  lower : leaf.low low ≤ range.left
  upper : range.right < leaf.high high
  loaded : leaf.AllLoaded → ctx.AllLoaded
  look : leaf.AllLoaded → ∀ x, low ≤ x → x < high →
    ¬(range.left ≤ x ∧ x ≤ range.right) →
      look top (leaf.plug ()) x = look top (ctx.plug tree) x

section Rebase

variable {good : Nat → Nat → Kid C → Prop} {low low' high high' bound : Nat}

theorem KidsLeft.rebase
    {left : List (FtEnt × Kid C)}
    (shrinks : ∀ low high low' high' kid,
      (∀ x, low' ≤ x → x < high' → low ≤ x ∧ x < high) →
        good low high kid → good low' high' kid)
    (kids : KidsLeft good low left)
    (ordered : OrderedLeft base bound left)
    (covers : ∀ x, low' ≤ x → x < bound → low ≤ x) :
    KidsLeft good low' left := by
  induction left generalizing bound with
  | nil => trivial
  | cons head left inductionHypothesis =>
      obtain ⟨entry, kid⟩ := head
      obtain ⟨_, _, ends, highBound, tail⟩ := ordered
      refine ⟨shrinks _ _ _ _ _ ?_ kids.1,
        inductionHypothesis kids.2 tail fun x lower upper =>
          covers x lower (by omega)⟩
      intro x lower upper
      refine ⟨?_, upper⟩
      rcases left with _ | ⟨⟨after, other⟩, left⟩
      · exact covers x lower (by omega)
      · exact lower

theorem KidsRight.rebase
    {right : List (FtEnt × Kid C)}
    (shrinks : ∀ low high low' high' kid,
      (∀ x, low' ≤ x → x < high' → low ≤ x ∧ x < high) →
        good low high kid → good low' high' kid)
    (kids : KidsRight good high right)
    (ordered : Ordered bound base right)
    (covers : ∀ x, bound ≤ x → x < high' → x < high) :
    KidsRight good high' right := by
  induction right generalizing bound with
  | nil => trivial
  | cons head right inductionHypothesis =>
      obtain ⟨entry, kid⟩ := head
      obtain ⟨_, lowBound, ends, _, tail⟩ := ordered
      refine ⟨shrinks _ _ _ _ _ ?_ kids.1,
        inductionHypothesis kids.2 tail fun x lower upper =>
          covers x (by omega) upper⟩
      intro x lower upper
      refine ⟨lower, ?_⟩
      rcases right with _ | ⟨⟨after, other⟩, right⟩
      · exact covers x (by omega) upper
      · exact upper

end Rebase

/-! ## One step down -/

section Step

variable {regime : Regime} {h top low high x : Nat} {range valid : Interval}
  {ctx : Ctx (h + 1) top} {node : Node (Tree h)}
  {left right : List (FtEnt × Kid (Tree h))} {kid : Kid (Tree h)}

theorem gapLow_eq
    {left : List (FtEnt × Kid C)}
    (passed : lowOf low left ≤ bound)
    (bounded : bound ≤ byteIndexMax) :
    gapLow left = lowOf 0 left := by
  rcases left with _ | ⟨⟨entry, kid⟩, left⟩
  · rfl
  · simp only [lowOf_cons] at passed
    exact succ32_of_lt (by omega)

theorem gapHigh_eq
    {right : List (FtEnt × Kid C)}
    (ordered : Ordered low high right)
    (bounded : high ≤ byteIndexEnd)
    (before : bound < highOf high right) :
    gapHigh right + 1 = highOf byteIndexEnd right := by
  rcases right with _ | ⟨⟨entry, kid⟩, right⟩
  · rfl
  · obtain ⟨_, _, ends, highBound, _⟩ := ordered
    simp only [highOf_cons] at before
    simp only [byteIndexEnd] at bounded
    simp only [gapHigh, highOf_cons]
    rw [pred32_of_pos (by omega) (by omega)]
    omega

/-- A byte of the valid interval witnesses that it is not empty. -/
theorem Interval.Regular.nonempty_of_mem
    {valid : Interval}
    (regular : valid.Regular)
    (lower : valid.left ≤ x)
    (upper : x ≤ valid.right) :
    valid.nonempty = true := by
  by_contra empty
  have crossed := regular.crossed (by simpa using empty)
  omega

/-- What pruning leaves on the way down is ordered in the gap of the node. -/
theorem Descent.prune_ordered
    (descent : Descent regime low high range ctx valid node) :
    Ordered (ctx.low low) (ctx.high high) (node.prune valid).rest := by
  obtain ⟨_, ordered, _⟩ := sound_prune descent.regular rfl descent.sound
  by_cases validFlag : valid.nonempty = true
  · obtain ⟨lowLe, highLe⟩ := descent.inside validFlag
    exact ordered.mono lowLe highLe
  · rw [Node.prune, if_neg validFlag]
    trivial

/-- Bytes of the gap outside the range are looked up as before pruning. -/
theorem Descent.look_prune
    (descent : Descent regime low high range ctx valid node)
    (lower : ctx.low low ≤ x)
    (upper : x < ctx.high high)
    (outside : ¬(range.left ≤ x ∧ x ≤ range.right)) :
    look (h + 1) (node.prune valid) x = look (h + 1) node x := by
  obtain ⟨validLow, validHigh⟩ := descent.covers x lower upper outside
  exact FigTree.look_prune descent.sound.ordered
    (descent.regular.nonempty_of_mem validLow validHigh) validLow validHigh

theorem Descent.range_bounds
    (descent : Descent regime low high range ctx valid node)
    (region : low ≤ high)
    (bounded : high ≤ regime.limit) :
    ctx.high high ≤ byteIndexEnd ∧ range.right ≤ byteIndexMax := by
  have highLe := (Ctx.low_le_high descent.ok region).2.2
  have limited := regime.bounded
  have upper := descent.upper
  simp only [byteIndexEnd] at limited ⊢
  omega

/-- The valid interval of the child in the gap that the range falls into. -/
theorem gapValid_spec
    (passed : lowOf low left ≤ lower)
    (before : upper < highOf high right)
    (ordered : Ordered base high right)
    (bounded : high ≤ byteIndexEnd)
    (lowerBounded : lower ≤ byteIndexMax)
    (validBounded : valid.right ≤ byteIndexMax) :
    (∀ y, (gapValid valid left right).left ≤ y ∧
        y ≤ (gapValid valid left right).right ↔
      (valid.left ≤ y ∧ y ≤ valid.right) ∧
        lowOf 0 left ≤ y ∧ y < highOf byteIndexEnd right) ∧
      (gapValid valid left right).right ≤ byteIndexMax ∧
      ((gapValid valid left right).nonempty = true →
        (gapValid valid left right).left =
            max valid.left (lowOf 0 left) ∧
          (gapValid valid left right).right + 1 =
            min (valid.right + 1) (highOf byteIndexEnd right)) := by
  have lows := gapLow_eq passed lowerBounded
  have highs := gapHigh_eq ordered bounded before
  unfold gapValid restrictTo
  rw [lows]
  split
  · refine ⟨fun y => ?_, ?_, fun _ => ⟨rfl, ?_⟩⟩
    · simp only
      omega
    · simp only
      omega
    · simp only
      omega
  · refine ⟨fun y => ?_, Nat.zero_le _, nofun⟩
    simp only [byteIndexMax, byteIndexMin]
    omega

/-- The child in the gap goes on with the descent. -/
theorem Descent.step
    (descent : Descent regime low high range ctx valid node)
    (region : low ≤ high)
    (bounded : high ≤ regime.limit)
    (shape : zipUp left kid right =
      ((node.prune valid).first, (node.prune valid).rest))
    (passed : lowOf (ctx.low low) left ≤ range.left)
    (before : range.right < highOf (ctx.high high) right) :
    Descent regime low high range
      (.cons ⟨(node.prune valid).dirty, left, kid.visit, right⟩ ctx)
      (gapValid valid left right) kid.get := by
  obtain ⟨count, _, kids⟩ :=
    (@sound_prune _ _ (validEnd regime valid)) descent.regular rfl
      descent.sound
  obtain ⟨lowLe, gapRegion, highLe⟩ := Ctx.low_le_high descent.ok region
  obtain ⟨limited, rangeBounded⟩ := descent.range_bounds region bounded
  have ends := descent.ends
  have upperGap := descent.upper
  have ordered := descent.prune_ordered
  have firstShape : (node.prune valid).first = (zipUp left kid right).1 := by
    rw [shape]
  have restShape : (node.prune valid).rest = (zipUp left kid right).2 := by
    rw [shape]
  rw [restShape] at count ordered
  rw [firstShape, restShape] at kids
  obtain ⟨leftOrdered, rightOrdered⟩ :=
    (ordered_zipUp_iff gapRegion).mp ordered
  obtain ⟨leftKids, kidSound, rightKids⟩ := kidsIn_zipUp_iff.mp kids
  have leftNear : OrderedLeft (ctx.low low) range.left left :=
    (orderedLeft_iff_lowOf_le descent.lower (by omega)).mpr
      ⟨leftOrdered, passed⟩
  obtain ⟨members, validBounded, exactEnds⟩ :=
    gapValid_spec passed before rightOrdered limited
      (by omega) descent.bounded
  refine
    { ok := ⟨?_, ⟨leftOrdered, rightOrdered, ?_, ?_, ?_⟩, descent.ok⟩
      lower := passed
      ends := ends
      upper := before
      regular := descent.regular.restrictTo _ _
      bounded := validBounded
      inside := ?_
      covers := ?_
      sound := ?_ }
  · rw [length_zipUp] at count
    exact count
  · refine KidsLeft.rebase
      (fun _ _ _ _ _ within sound => SoundKid.shrink within sound)
      leftKids leftNear fun x lower upper => ?_
    exact (descent.covers x lower (by omega) (by omega)).1
  · intro _
    exact kidSound.visit.shrink (by omega)
  · refine KidsRight.rebase
      (fun _ _ _ _ _ within sound => SoundKid.shrink within sound)
      rightKids (rightOrdered.from_gap before) fun x lower upper => ?_
    have gapLowLe := descent.lower
    have inValid := descent.covers x (by omega) upper (by omega)
    unfold validEnd
    omega
  · intro validFlag
    have oldFlag : valid.nonempty = true := by
      unfold gapValid restrictTo at validFlag
      split at validFlag
      · exact validFlag
      · cases validFlag
    obtain ⟨insideLow, insideHigh⟩ := descent.inside oldFlag
    obtain ⟨leftEnd, rightEnd⟩ := exactEnds validFlag
    unfold validEnd at insideHigh ⊢
    simp only [Ctx.low, Ctx.high, Frame.low, Frame.high, leftEnd, rightEnd]
    constructor
    · rcases left with _ | ⟨⟨entry, beyond⟩, left⟩ <;>
        simp only [lowOf_nil, lowOf_cons] <;> omega
    · rcases right with _ | ⟨⟨entry, beyond⟩, right⟩
      · exact (min_le_min_left _ (min_le_left _ _)).trans insideHigh
      · exact (min_le_right _ _).trans (min_le_right _ _)
  · intro x lower upper outside
    rw [members]
    simp only [Ctx.low, Ctx.high, Frame.low, Frame.high] at lower upper
    obtain ⟨frameLow, _⟩ := leftOrdered.lowOf_le gapRegion
    have frameHigh := rightOrdered.highOf_le_high
    refine ⟨descent.covers x (by omega) (by omega) outside, ?_, ?_⟩
    · rcases left with _ | ⟨⟨entry, beyond⟩, left⟩
      · exact Nat.zero_le _
      · exact lower
    · rcases right with _ | ⟨⟨entry, beyond⟩, right⟩
      · simp only [highOf_nil] at upper ⊢
        omega
      · exact upper
  · refine kidSound.1.shrink fun x lower upper => ?_
    unfold validEnd at upper ⊢
    obtain ⟨inValid, inLeft, inRight⟩ := (members x).mp ⟨lower, by omega⟩
    constructor
    · rcases left with _ | ⟨⟨entry, beyond⟩, left⟩
      · exact inValid.1
      · exact inLeft
    · rcases right with _ | ⟨⟨entry, beyond⟩, right⟩
      · simp only [highOf_nil]
        omega
      · exact inRight

/-- The valid interval shrinks on the way down, but not inside the range. -/
theorem Descent.gapValid_members
    (descent : Descent regime low high range ctx valid node)
    (region : low ≤ high)
    (bounded : high ≤ regime.limit)
    (shape : zipUp left kid right =
      ((node.prune valid).first, (node.prune valid).rest))
    (passed : lowOf (ctx.low low) left ≤ range.left)
    (before : range.right < highOf (ctx.high high) right) :
    (∀ x, (gapValid valid left right).left ≤ x ∧
        x ≤ (gapValid valid left right).right →
      valid.left ≤ x ∧ x ≤ valid.right) ∧
      ∀ x, range.left ≤ x → x ≤ range.right →
        valid.left ≤ x ∧ x ≤ valid.right →
          (gapValid valid left right).left ≤ x ∧
            x ≤ (gapValid valid left right).right := by
  obtain ⟨limited, rangeBounded⟩ := descent.range_bounds region bounded
  have gapRegion := (Ctx.low_le_high descent.ok region).2.1
  have ends := descent.ends
  have ordered := descent.prune_ordered
  rw [show (node.prune valid).rest = (zipUp left kid right).2 by
    rw [shape]] at ordered
  obtain ⟨members, _⟩ :=
    gapValid_spec passed before
      ((ordered_zipUp_iff gapRegion).mp ordered).2 limited
      (by omega) descent.bounded
  refine ⟨fun x member => ((members x).mp member).1, ?_⟩
  intro x lower upper inValid
  refine (members x).mpr ⟨inValid, ?_, ?_⟩
  · rcases left with _ | ⟨⟨entry, beyond⟩, left⟩
    · exact Nat.zero_le _
    · exact passed.trans lower
  · rcases right with _ | ⟨⟨entry, beyond⟩, right⟩
    · exact Nat.lt_succ_of_le (upper.trans rangeBounded)
    · exact lt_of_le_of_lt upper before

/-- Going one step down changes no lookup outside the range. -/
theorem Descent.look_step
    (descent : Descent regime low high range ctx valid node)
    (region : low ≤ high)
    (shape : zipUp left kid right =
      ((node.prune valid).first, (node.prune valid).rest))
    (loaded : ctx.AllLoaded)
    (lowLe : low ≤ x)
    (below : x < high)
    (outside : ¬(range.left ≤ x ∧ x ≤ range.right)) :
    look top (Ctx.plug
        (.cons ⟨(node.prune valid).dirty, left, kid.visit, right⟩ ctx)
        kid.get) x =
      look top (ctx.plug node) x := by
  by_cases inGap : ctx.low low ≤ x ∧ x < ctx.high high
  · have through := Ctx.look_plug_inside descent.ok region loaded
      (Frame.fill ⟨(node.prune valid).dirty, left, kid.visit, right⟩ kid.get)
      inGap.1 inGap.2
    have through' := Ctx.look_plug_inside descent.ok region loaded node
      inGap.1 inGap.2
    have pruned := descent.look_prune inGap.1 inGap.2 outside
    refine through.trans (Eq.trans ?_ (pruned.trans through'.symm))
    have same := (@lookIn_zipUp_congr _ (fun child => look h child x) _ x)
      (lookIn_congr_get (x := x)
        kid.get_visit_put right) left
    rw [shape] at same
    exact same
  · exact Ctx.look_plug_outside descent.ok region loaded _ _ lowLe below inGap

end Step

/-! ## The whole descent -/

/-- A descent that ended at a node with entries that overlap the range. -/
structure Struck
    (regime : Regime)
    (low high : Nat)
    (range : Interval)
    (ctx : Ctx h top)
    (valid : Interval)
    (tree : Tree h)
    (inner : Ctx (deep + 1) top)
    (hit : Hit deep)
    (node : Node (Tree deep)) : Prop where
  descent : Descent regime low high range inner hit.valid node
  scan : ∃ next rest,
    place range [] (node.prune hit.valid).first
        (node.prune hit.valid).rest =
      .hit hit.left hit.kid hit.first next rest ∧
    hit.rest = (hit.first, next) :: rest ∧
    absorb range hit.first next rest = (hit.last, hit.next, hit.right)
  narrows : ∀ x, hit.valid.left ≤ x → x ≤ hit.valid.right →
    valid.left ≤ x ∧ x ≤ valid.right
  keeps : (∀ x, range.left ≤ x → x ≤ range.right →
      valid.left ≤ x ∧ x ≤ valid.right) →
    ∀ x, range.left ≤ x → x ≤ range.right →
      hit.valid.left ≤ x ∧ x ≤ hit.valid.right
  loaded : inner.AllLoaded → ctx.AllLoaded
  look : inner.AllLoaded → ∀ x, low ≤ x → x < high →
    ¬(range.left ≤ x ∧ x ≤ range.right) →
      look top (inner.plug node) x = look top (ctx.plug tree) x

theorem descend_spec
    {regime : Regime}
    {h top low high : Nat}
    {range valid : Interval}
    {ctx : Ctx h top}
    {tree : Tree h}
    (region : low ≤ high)
    (bounded : high ≤ regime.limit)
    (descent : Descent regime low high range ctx valid tree) :
    match descend range h ctx tree valid with
    | .null leaf => Landed regime low high range ctx tree leaf
    | .hit _ inner hit =>
        ∃ node, Struck regime low high range ctx valid tree inner hit
          node := by
  induction h generalizing valid with
  | zero =>
      exact
        { ok := descent.ok
          lower := descent.lower
          upper := descent.upper
          loaded := id
          look := fun _ _ _ _ _ => rfl }
  | succ h inductionHypothesis =>
      have gapRegion := (Ctx.low_le_high descent.ok region).2.1
      have scanned := (@place_spec _ _ [] _ ((Node.prune (h := h) tree valid).first))
        gapRegion
        descent.prune_ordered descent.lower descent.upper
      unfold descend
      dsimp only
      cases scan : place range [] (Node.prune (h := h) tree valid).first
          (Node.prune (h := h) tree valid).rest with
      | hit left kid entry next rest =>
          exact ⟨tree, descent, ⟨next, rest, scan, rfl, rfl⟩,
            fun x lower upper => ⟨lower, upper⟩, id, id,
            fun _ _ _ _ _ => rfl⟩
      | gap left kid right =>
          rw [scan] at scanned
          obtain ⟨shape, passed, before⟩ := scanned
          have below := inductionHypothesis
            (descent.step region bounded shape passed before)
          have step : ∀ x, ctx.AllLoaded → low ≤ x → x < high →
              ¬(range.left ≤ x ∧ x ≤ range.right) → _ :=
            fun x => descent.look_step (x := x) region shape
          obtain ⟨narrows, keeps⟩ :=
            descent.gapValid_members region bounded shape passed before
          dsimp only
          generalize descend range h _ kid.get _ = stop at below ⊢
          cases stop with
          | null leaf =>
              exact
                { ok := below.ok
                  lower := below.lower
                  upper := below.upper
                  loaded := fun loaded => (below.loaded loaded).2
                  look := fun loaded x lowLe less outside =>
                    (below.look loaded x lowLe less outside).trans
                      (step x (below.loaded loaded).2 lowLe less outside) }
          | hit deep inner hit =>
              obtain ⟨node, struck⟩ := below
              exact ⟨node,
                { descent := struck.descent
                  scan := struck.scan
                  narrows := fun x lower upper =>
                    narrows x (struck.narrows x lower upper)
                  keeps := fun whole => struck.keeps fun x lower upper =>
                    keeps x lower upper (whole x lower upper)
                  loaded := fun loaded => (struck.loaded loaded).2
                  look := fun loaded x lowLe less outside =>
                    (struck.look loaded x lowLe less outside).trans
                      (step x (struck.loaded loaded).2 lowLe less
                        outside) }⟩

/-- The entries and children around the overlapping entries of a node. -/
structure HitOk
    (regime : Regime)
    (low high : Nat)
    (range : Interval)
    (hit : Hit h) : Prop where
  count : hit.left.length + hit.rest.length ≤ 2 * ftOrder
  left : OrderedLeft low high hit.left
  rest : Ordered (lowOf low hit.left) high hit.rest
  leftKids : KidsLeft (SoundKid regime h) low hit.left
  kid : SoundKid regime h (lowOf low hit.left) hit.first.irange.left hit.kid
  restKids : KidsRight (SoundKid regime h) high hit.rest
  starts : hit.first.irange.left ≤ range.right
  reaches : range.left ≤ hit.first.irange.right
  head : ∃ next rest, hit.rest = (hit.first, next) :: rest

theorem Struck.hitOk
    {regime : Regime}
    {h top deep low high : Nat}
    {range valid : Interval}
    {ctx : Ctx h top}
    {tree : Tree h}
    {inner : Ctx (deep + 1) top}
    {hit : Hit deep}
    {node : Node (Tree deep)}
    (struck : Struck regime low high range ctx valid tree inner hit node)
    (region : low ≤ high) :
    HitOk regime hit.valid.left (validEnd regime hit.valid) range hit ∧
      zipUp hit.left hit.kid hit.rest =
        ((node.prune hit.valid).first, (node.prune hit.valid).rest) ∧
      lowOf (inner.low low) hit.left ≤ range.left := by
  obtain ⟨next, rest, scan, restShape, _⟩ := struck.scan
  have scanned := (@place_spec _ _ [] _ ((node.prune hit.valid).first))
    (Ctx.low_le_high struck.descent.ok region).2.1
    struck.descent.prune_ordered struck.descent.lower struck.descent.upper
  rw [scan] at scanned
  obtain ⟨shape, passed, starts, reaches⟩ := scanned
  rw [← restShape] at shape
  obtain ⟨count, ordered, kids⟩ :=
    sound_prune
      struck.descent.regular rfl struck.descent.sound
  have firstShape : (node.prune hit.valid).first =
      (zipUp hit.left hit.kid hit.rest).1 := by
    rw [shape]
    rfl
  have entriesShape : (node.prune hit.valid).rest =
      (zipUp hit.left hit.kid hit.rest).2 := by
    rw [shape]
    rfl
  rw [entriesShape] at count ordered
  rw [firstShape, entriesShape] at kids
  have nonempty : (zipUp hit.left hit.kid hit.rest).2 ≠ [] := by
    rw [← List.length_pos_iff, length_zipUp, restShape, List.length_cons]
    omega
  obtain ⟨leftOrdered, restOrdered⟩ :=
    (ordered_zipUp_iff (ordered.region nonempty)).mp ordered
  obtain ⟨leftKids, kidSound, restKids⟩ := kidsIn_zipUp_iff.mp kids
  rw [length_zipUp] at count
  rw [restShape, highOf_cons] at kidSound
  exact ⟨⟨count, leftOrdered, restOrdered, leftKids, kidSound, restKids,
    starts, reaches, next, rest, restShape⟩, shape, passed⟩

end FigTree
end Gdpfs
