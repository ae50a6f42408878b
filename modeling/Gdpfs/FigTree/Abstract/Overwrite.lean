import Gdpfs.FigTree.Abstract.Continuation

/-!
# Overwriting entries of a node

A write that meets overlapping entries puts its own entry in their place and
continues below on either side of it.  This module follows the right
continuation: it changes the child right of the new entry, and may hand one
more entry to the node.
-/

namespace Gdpfs
namespace FigTree

/-! ## Children that are followed -/

/-- Whether every child that a descent follows is in memory. -/
def wayLoaded (range : Interval) : (h : Nat) → Tree h → Interval → Bool
  | 0, _, _ => true
  | h + 1, tree, valid =>
      let node := Node.prune (h := h) tree valid
      match place range [] node.first node.rest with
      | .hit _ _ _ _ _ => true
      | .gap left kid right =>
          kid.isLoaded &&
            wayLoaded range h kid.get (gapValid valid left right)

theorem descend_allLoaded
    {range valid : Interval}
    {ctx : Ctx h top}
    {tree : Tree h}
    (loaded : ctx.AllLoaded)
    (way : wayLoaded range h tree valid = true) :
    match descend range h ctx tree valid with
    | .null leaf => leaf.AllLoaded
    | .hit _ inner _ => inner.AllLoaded := by
  induction h generalizing valid with
  | zero => exact loaded
  | succ h inductionHypothesis =>
      unfold wayLoaded at way
      unfold descend
      dsimp only at way ⊢
      cases scan : place range [] (Node.prune (h := h) tree valid).first
          (Node.prune (h := h) tree valid).rest with
      | hit left kid entry next rest => exact loaded
      | gap left kid right =>
          rw [scan] at way
          obtain ⟨kidLoaded, below⟩ := Bool.and_eq_true_iff.mp way
          refine inductionHypothesis ⟨?_, loaded⟩ below
          exact kid.isLoaded_visit.trans kidLoaded

namespace Hit

variable {h : Nat} (range : Interval) (hit : Hit h)

/-- Whether the right continuation only follows children in memory. -/
def rightLoaded : Bool :=
  !hit.hasRight range ||
    hit.next.isLoaded &&
      wayLoaded (hit.rightEntry range).irange h hit.next.get hit.rightValid

/-- Whether the left continuation only follows children in memory. -/
def leftLoaded : Bool :=
  !hit.hasLeft range ||
    hit.kid.isLoaded &&
      wayLoaded (hit.leftEntry range).irange h hit.kid.get hit.leftValid

/-- The right continuation does not meet entries that a bound past the last
byte index failed to prune. -/
def EdgeClear : Prop :=
  hit.hasRight range = true → hit.last.irange.right = byteIndexMax →
    Bare h hit.next.get

end Hit

/-! ## The right continuation -/

/-- The node around its overlapping entries, and the valid interval as the
gap of the node. -/
structure Overlap
    (regime : Regime)
    (range : Interval)
    (hit : Hit h) : Prop
    extends HitOk regime hit.valid.left (validEnd regime hit.valid) range
      hit where
  flag : range.nonempty = true
  ends : range.left ≤ range.right
  bounded : hit.valid.right ≤ byteIndexMax
  regular : hit.valid.Regular
  lower : lowOf hit.valid.left hit.left ≤ range.left
  shape : ∃ middle, hit.rest = middle ++ (hit.last, hit.next) :: hit.right
  lastStarts : hit.last.irange.left ≤ range.right
  after : range.right < highOf (validEnd regime hit.valid) hit.right
  edge : hit.first.irange.left = hit.valid.left →
    hit.kid.isLoaded = true ∧ Bare h hit.kid.get

/-- What the right continuation leaves right of the gap on the left of the new
entry. -/
structure RightOk
    (regime : Regime)
    (range : Interval)
    (value : Int)
    (hit : Hit h)
    (right : List (FtEnt × Kid (Tree h))) : Prop where
  ordered : Ordered (lowOf hit.valid.left hit.left)
    (validEnd regime hit.valid) right
  starts : highOf (validEnd regime hit.valid) right = range.left
  count : hit.left.length + right.length ≤ ftSplitlimit
  kids : KidsRight (SoundKid regime h) (validEnd regime hit.valid) right
  look : hit.rightLoaded range = true → ∀ kid x, range.left ≤ x →
    x < validEnd regime hit.valid →
      lookIn (fun child => look h child x) x kid right =
        if x ≤ range.right then some value
        else lookIn (fun child => look h child x) x hit.kid hit.rest

section Right

variable {regime : Regime} {h : Nat} {range : Interval} {value : Int}
  {hit : Hit h}

/-- The entries from the last overlapping one on. -/
theorem Overlap.last
    (overlap : Overlap regime range hit) :
    Ordered hit.last.irange.left (validEnd regime hit.valid)
        ((hit.last, hit.next) :: hit.right) ∧
      KidsIn (SoundKid regime h) (hit.last.irange.right + 1)
        (validEnd regime hit.valid) hit.next hit.right ∧
      hit.right.length + 1 ≤ hit.rest.length ∧
      ∀ kid x, range.right < x →
        lookIn (fun child => look h child x) x kid hit.rest =
          if x ≤ hit.last.irange.right then some hit.last.value
          else lookIn (fun child => look h child x) x hit.next
            hit.right := by
  obtain ⟨middle, shape⟩ := overlap.shape
  have ordered := overlap.rest
  have kids := overlap.restKids
  rw [shape] at ordered kids
  obtain ⟨_, lastOrdered, rightOrdered⟩ := ordered_append.mp ordered
  obtain ⟨flag, _, ends, high, _⟩ := lastOrdered
  obtain ⟨_, nextSound, rightKids⟩ := kidsRight_append.mp kids
  refine ⟨⟨flag, le_rfl, ends, high, rightOrdered⟩,
    ⟨nextSound, rightKids⟩, ?_, ?_⟩
  · rw [shape, List.length_append, List.length_cons]
    omega
  · intro kid x past
    have lastStarts := overlap.lastStarts
    rw [shape, lookIn_append ordered, if_neg (by omega)]

theorem validEnd_le (regime : Regime) (valid : Interval) :
    validEnd regime valid ≤ regime.limit ∧
      validEnd regime valid ≤ byteIndexEnd :=
  ⟨min_le_left _ _, (min_le_left _ _).trans regime.bounded⟩

/-- The range of the right continuation. -/
theorem Overlap.rightEntry_eq
    (overlap : Overlap regime range hit)
    (sticksOut : hit.hasRight range = true) :
    hit.rightEntry range =
        ⟨iInit (range.right + 1) hit.last.irange.right, hit.last.value⟩ ∧
      range.right + 1 ≤ hit.last.irange.right ∧
      hit.last.irange.right <
        highOf (validEnd regime hit.valid) hit.right ∧
      hit.last.irange.right ≤ byteIndexMax := by
  have longer : range.right < hit.last.irange.right :=
    of_decide_eq_true sticksOut
  obtain ⟨_, _, _, high, rightOrdered⟩ := overlap.last.1
  have limited := (validEnd_le regime hit.valid).2
  simp only [byteIndexEnd] at limited
  refine ⟨?_, longer, (rightOrdered.highOf_le high).1, by omega⟩
  rw [Hit.rightEntry, succ32_of_lt (by omega)]

/-- The right continuation ends in the gap of a leaf. -/
theorem Overlap.right_lands
    (overlap : Overlap regime range hit)
    (edgeClear : hit.EdgeClear range)
    (sticksOut : hit.hasRight range = true) :
    ∃ leaf,
      descend (hit.rightEntry range).irange h .nil hit.next.get
          hit.rightValid = .null leaf ∧
        Landed regime (range.right + 1)
          (highOf (validEnd regime hit.valid) hit.right)
          (hit.rightEntry range).irange .nil hit.next.get leaf := by
  obtain ⟨entryShape, longer, beforeNext, lastBounded⟩ :=
    overlap.rightEntry_eq sticksOut
  obtain ⟨⟨_, _, _, high, rightOrdered⟩, ⟨nextSound, _⟩, _⟩ := overlap.last
  obtain ⟨limitedBy, limited⟩ := validEnd_le regime hit.valid
  have after := overlap.after
  have highLe := rightOrdered.highOf_le_high
  rw [entryShape]
  by_cases wraps : hit.last.irange.right = byteIndexMax
  · exact descend_bare (edgeClear sticksOut wraps) trivial after le_rfl
      beforeNext
  · obtain ⟨members, validBounded, exactEnds⟩ :=
      (@gapValid_spec _ 0 _ _ [(hit.last, hit.next)])
        (le_refl (hit.last.irange.right + 1)) after rightOrdered limited
        (by omega) overlap.bounded
    change ∀ y, hit.rightValid.left ≤ y ∧ y ≤ hit.rightValid.right ↔ _
      at members
    change hit.rightValid.nonempty = true →
      hit.rightValid.left = _ ∧ hit.rightValid.right + 1 = _ at exactEnds
    have validLow := overlap.left.low_le_lowOf
    have lower := overlap.lower
    have ends := overlap.ends
    refine Descent.lands
      { ok := trivial
        lower := le_rfl
        ends := longer
        upper := beforeNext
        regular := overlap.regular.restrictTo _ _
        bounded := validBounded
        inside := ?_
        covers := ?_
        sound := ?_ } after (highLe.trans limitedBy) ?_
    · intro validFlag
      obtain ⟨leftEnd, rightEnd⟩ := exactEnds validFlag
      simp only [Ctx.low, Ctx.high, validEnd, leftEnd, rightEnd, lowOf_cons]
      refine ⟨by omega, ?_⟩
      cases hit.right with
      | nil => exact min_le_min_left _ (min_le_left _ _)
      | cons head right =>
          exact (min_le_right _ _).trans (min_le_right _ _)
    · intro x xLow xHigh outside
      simp only [Ctx.low, Ctx.high, iInit] at xLow xHigh outside
      have below := lt_of_lt_of_le xHigh highLe
      refine (members x).mpr ⟨⟨by omega, ?_⟩, ?_, ?_⟩
      · unfold validEnd at below
        omega
      · simp only [lowOf_cons]
        omega
      · exact (lt_highOf_congr hit.right below
          (lt_of_lt_of_le below limited)).mp xHigh
    · refine nextSound.1.shrink fun x xLow xHigh => ?_
      unfold validEnd at xHigh
      obtain ⟨inValid, inLeft, inRight⟩ :=
        (members x).mp ⟨xLow, by omega⟩
      have below : x < validEnd regime hit.valid := by
        unfold validEnd
        omega
      exact ⟨inLeft, (lt_highOf_congr hit.right below
        (lt_of_lt_of_le below limited)).mpr inRight⟩
    · intro x _ xHigh inValid
      have inLeft := ((members x).mp inValid).2.1
      simp only [lowOf_cons, iInit] at inLeft xHigh
      omega

/-- Both halves beside a raised entry are sound children. -/
theorem RaisedOk.halves
    {raised : Raised h}
    {marked : Tree h}
    (raisedOk : RaisedOk regime low high (some raised))
    (sound : Sound regime h (markLow low (some raised))
      (markHigh high (some raised)) marked)
    (touched : 0 < h → regime.Trusting ∨ allClean h marked = false) :
    SoundKid regime h low raised.entry.irange.left
        (.loaded none (raised.lower marked)) ∧
      SoundKid regime h (raised.entry.irange.right + 1) high
        (.loaded none (raised.upper marked)) := by
  obtain ⟨side, other, entry⟩ := raised
  obtain ⟨_, otherSound⟩ := raisedOk
  cases side with
  | left => exact ⟨SoundKid.of_touched sound touched none, otherSound⟩
  | right => exact ⟨otherSound, SoundKid.of_touched sound touched none⟩

/-- A lookup in a node finds its way through the halves beside a raised
entry. -/
theorem lookIn_halves
    {raised : Raised h}
    {marked : Tree h}
    {right : List (FtEnt × Kid (Tree h))}
    (ordered : Ordered low high right)
    (ends : raised.entry.irange.left ≤ raised.entry.irange.right)
    (near : x < highOf high right) :
    lookIn (fun child => look h child x) x
        (.loaded none (raised.lower marked))
        ((raised.entry, .loaded none (raised.upper marked)) :: right) =
      markLook (some raised) marked x := by
  simp only [markLook, Raised.look]
  by_cases early : x < raised.entry.irange.left
  · have notInside : ¬iContainsVal raised.entry.irange x = true := by
      rw [iContainsVal_iff]
      omega
    rw [if_pos early, lookIn, if_neg notInside, if_pos early]
    rfl
  · rw [if_neg early]
    by_cases within : x ≤ raised.entry.irange.right
    · rw [if_pos within, lookIn_inside (Nat.le_of_not_lt early) within]
    · rw [if_neg within, lookIn_past ends (Nat.lt_of_not_le within),
        lookIn_of_lt_highOf ordered near]
      rfl

/-- The result of the right continuation, with the two sides of a split
treated alike. -/
theorem rightPart_of_lands
    (sticksOut : hit.hasRight range = true)
    (lands : descend (hit.rightEntry range).irange h .nil hit.next.get
      hit.rightValid = .null leaf) :
    hit.rightPart range value =
      let pushed := leaf.push (some (leafRaised (hit.rightEntry range)))
      match pushed.2 with
      | none =>
          some ((⟨range, value⟩, hit.next.visit.put (pushed.1.plug ())) ::
            hit.right)
      | some raised =>
          some ((⟨range, value⟩,
              .loaded none (raised.lower (pushed.1.plug ()))) ::
            (raised.entry, .loaded none (raised.upper (pushed.1.plug ()))) ::
              hit.right) := by
  unfold Hit.rightPart
  rw [if_pos sticksOut, lands]
  dsimp only
  generalize leaf.push _ = pushed
  obtain ⟨ctx, _ | ⟨side, other, entry⟩⟩ := pushed
  · rfl
  · cases side <;> rfl

theorem Overlap.rightPart_of_not_hasRight
    (overlap : Overlap regime range hit)
    (covered : ¬hit.hasRight range = true) :
    RightOk regime range value hit
      ((⟨range, value⟩, hit.next) :: hit.right) := by
  have shorter : hit.last.irange.right ≤ range.right := by
    by_contra longer
    exact covered (decide_eq_true (Nat.lt_of_not_le longer))
  obtain ⟨⟨_, _, ends, high, rightOrdered⟩, ⟨nextSound, rightKids⟩,
    fewer, oldLook⟩ := overlap.last
  have count := overlap.count
  have after := overlap.after
  have highLe := rightOrdered.highOf_le_high
  have rangeHigh : range.right < validEnd regime hit.valid := by omega
  refine ⟨⟨overlap.flag, overlap.lower, overlap.ends, rangeHigh,
      rightOrdered.from_gap after⟩, rfl, ?_, ⟨?_, rightKids⟩, ?_⟩
  · simp only [List.length_cons, ftSplitlimit] at fewer ⊢
    omega
  · exact nextSound.shrink (by simp only; omega)
  · intro _ kid x lower upper
    by_cases inside : x ≤ range.right
    · rw [if_pos inside, lookIn_inside lower inside]
    · rw [if_neg inside, lookIn_past overlap.ends (Nat.lt_of_not_le inside),
        oldLook hit.kid x (Nat.lt_of_not_le inside), if_neg (by omega)]

/-- The right continuation goes through, and leaves entries and children in
order that answer lookups as before, except inside the range. -/
theorem Overlap.rightPart_spec
    (overlap : Overlap regime range hit)
    (edgeClear : hit.EdgeClear range)
    (loaded : regime.Trusting ∨ hit.rightLoaded range = true) :
    ∃ right, hit.rightPart range value = some right ∧
      RightOk regime range value hit right := by
  by_cases sticksOut : hit.hasRight range = true
  · obtain ⟨leaf, lands, landed⟩ :=
      overlap.right_lands edgeClear sticksOut
    obtain ⟨entryShape, longer, beforeNext, _⟩ :=
      overlap.rightEntry_eq sticksOut
    obtain ⟨⟨_, _, ends, high, rightOrdered⟩, ⟨nextSound, rightKids⟩,
      fewer, oldLook⟩ := overlap.last
    have limitedBy := (validEnd_le regime hit.valid).1
    have count := overlap.count
    have after := overlap.after
    have highLe := rightOrdered.highOf_le_high
    have leafLoaded : hit.rightLoaded range = true →
        hit.next.isLoaded = true ∧ leaf.AllLoaded := by
      intro allLoaded
      simp only [Hit.rightLoaded, sticksOut, Bool.not_true, Bool.false_or,
        Bool.and_eq_true] at allLoaded
      have way := (@descend_allLoaded _ _ _ _ (.nil : Ctx h h)) trivial
        allLoaded.2
      rw [lands] at way
      exact ⟨allLoaded.1, way⟩
    rw [entryShape] at landed
    have raisedOk := landed.raisedOk rfl longer hit.last.value
    obtain ⟨sound, touched⟩ := Ctx.sound_push_leaf landed.ok after
      (highLe.trans limitedBy) raisedOk
      (loaded.imp_right fun allLoaded => (leafLoaded allLoaded).2)
    obtain ⟨_, pushedRaised, _⟩ := Ctx.push_spec landed.ok after
      (highLe.trans limitedBy) raisedOk
    have rangeHigh : range.right < validEnd regime hit.valid := by omega
    have agrees : ∀ x, hit.rightLoaded range = true → range.right < x →
        x < highOf (validEnd regime hit.valid) hit.right →
        markLook (leaf.push (some (leafRaised ⟨iInit (range.right + 1)
            hit.last.irange.right, hit.last.value⟩))).2
          ((leaf.push (some (leafRaised ⟨iInit (range.right + 1)
            hit.last.irange.right, hit.last.value⟩))).1.plug ()) x =
          if x ≤ hit.last.irange.right then some hit.last.value
          else look h hit.next.get x := by
      intro x allLoaded past near
      have pushedLook := (@Landed.look_push _ _ _ _ _ _ _ hit.last.value) landed after
        (highLe.trans limitedBy) rfl longer (leafLoaded allLoaded).2 past
        near
      rw [pushedLook]
      simp only [iInit, Nat.succ_le_of_lt past, true_and]
      rfl
    rw [rightPart_of_lands sticksOut lands, entryShape]
    dsimp only
    generalize leaf.push _ = pushed at *
    obtain ⟨inner, _ | raised⟩ := pushed
    · refine ⟨_, rfl, ⟨overlap.flag, overlap.lower, overlap.ends, rangeHigh,
        rightOrdered.from_gap after⟩, rfl, ?_, ⟨?_, rightKids⟩, ?_⟩
      · simp only [List.length_cons, ftSplitlimit] at fewer ⊢
        omega
      · cases shape : hit.next with
        | loaded saved old => exact SoundKid.of_touched sound touched saved
        | unloaded saved seen stored =>
            rcases loaded with trusting | allLoaded
            · rw [shape] at nextSound
              exact SoundKid.of_unloaded trusting nextSound
            · have nextLoaded := (leafLoaded allLoaded).1
              rw [shape] at nextLoaded
              cases nextLoaded
      · intro allLoaded kid x lower upper
        by_cases inside : x ≤ range.right
        · rw [if_pos inside, lookIn_inside lower inside]
        · have past := Nat.lt_of_not_le inside
          rw [if_neg inside, lookIn_past overlap.ends past,
            oldLook hit.kid x past]
          by_cases near :
              x < highOf (validEnd regime hit.valid) hit.right
          · have newLook := agrees x allLoaded past near
            rw [lookIn_of_lt_highOf rightOrdered near,
              lookIn_of_lt_highOf rightOrdered near, ← newLook,
              Kid.get_put_of_isLoaded]
            · rfl
            · rw [Kid.isLoaded_visit]
              exact (leafLoaded allLoaded).1
          · rw [if_neg (by omega)]
            exact lookIn_kid_irrelevant (Nat.le_of_not_lt near) upper _ _
    · obtain ⟨lowerSound, upperSound⟩ :=
        RaisedOk.halves pushedRaised sound touched
      obtain ⟨⟨midFlag, midLow, midEnds, midHigh⟩, _⟩ := pushedRaised
      have midBelow : raised.entry.irange.right <
          validEnd regime hit.valid := by omega
      refine ⟨_, rfl, ⟨overlap.flag, overlap.lower, overlap.ends, rangeHigh,
        midFlag, midLow, midEnds, midBelow, rightOrdered.from_gap midHigh⟩,
        rfl, ?_, ⟨lowerSound, upperSound, rightKids⟩, ?_⟩
      · simp only [List.length_cons, ftSplitlimit] at fewer ⊢
        omega
      · intro allLoaded kid x lower upper
        by_cases inside : x ≤ range.right
        · rw [if_pos inside, lookIn_inside lower inside]
        · have past := Nat.lt_of_not_le inside
          rw [if_neg inside, lookIn_past overlap.ends past,
            oldLook hit.kid x past]
          by_cases near :
              x < highOf (validEnd regime hit.valid) hit.right
          · have newLook := agrees x allLoaded past near
            rw [lookIn_of_lt_highOf rightOrdered near, ← newLook]
            exact lookIn_halves rightOrdered midEnds near
          · rw [lookIn_past midEnds (by omega), if_neg (by omega)]
            exact lookIn_kid_irrelevant (Nat.le_of_not_lt near) upper _ _
  · refine ⟨_, ?_, overlap.rightPart_of_not_hasRight sticksOut⟩
    rw [Hit.rightPart, if_neg sticksOut]

end Right

end FigTree
end Gdpfs
