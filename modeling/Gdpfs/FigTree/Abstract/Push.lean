import Gdpfs.FigTree.Abstract.Context

/-!
# Splitting nodes along a path

A frame with one entry too many is cut around its middle entry.  Seen as nodes,
the two halves and the middle entry are just the old node taken apart, so the
cut changes no lookup.  `push_spec` follows an insertion through any number of
splits up to the top of a path.
-/

namespace Gdpfs
namespace FigTree

section Split

variable {regime : Regime} {h : Nat} {frame : Frame (Tree h)}

/-- A list around one of its elements. -/
theorem exists_append_getD
    {items : List α}
    (bound : index < items.length)
    (filler : α) :
    ∃ near far, items = near ++ items.getD index filler :: far ∧
      near = items.take index ∧ far = items.drop (index + 1) := by
  refine ⟨_, _, ?_, rfl, rfl⟩
  have element : items.getD index filler = items[index] := by
    simp [List.getD_eq_getElem?_getD, bound]
  rw [element, List.getElem_cons_drop, List.take_append_drop]

/-- The two shapes of a split: the gap is in the left half, or in the right
one. -/
theorem split_cases
    (full : frame.size = ftSplitlimit) :
    (∃ near entry kid far,
        frame.right = near ++ (entry, kid) :: far ∧
        frame.left.length + near.length = ftOrder ∧
        far.length = ftOrder ∧
        frame.split =
          ({ frame with right := near },
            ⟨.left, (⟨true, kid, far⟩ : Node (Tree h)), entry⟩)) ∨
      ∃ near entry kid far,
        frame.left = near ++ (entry, kid) :: far ∧
        near.length + frame.right.length = ftOrder ∧
        far.length = ftOrder ∧
        frame.split =
          ({ frame with left := near },
            ⟨.right, (⟨true, (zipUp far kid []).1, (zipUp far kid []).2⟩ :
              Node (Tree h)), entry⟩) := by
  simp only [Frame.size, ftSplitlimit, ftOrder] at full
  by_cases leftHalf : frame.left.length ≤ ftOrder
  · left
    have bound : ftOrder - frame.left.length < frame.right.length := by
      simp only [ftOrder] at leftHalf ⊢
      omega
    obtain ⟨near, far, shape, nearShape, farShape⟩ :=
      exists_append_getD bound (Frame.filler h)
    refine ⟨near,
      (frame.right.getD (ftOrder - frame.left.length) (Frame.filler h)).1,
      (frame.right.getD (ftOrder - frame.left.length) (Frame.filler h)).2,
      far, shape, ?_, ?_, ?_⟩
    · rw [nearShape, List.length_take]
      omega
    · rw [farShape, List.length_drop]
      simp only [ftOrder] at leftHalf bound ⊢
      omega
    · simp only [Frame.split, leftHalf, if_true, nearShape, farShape]
  · right
    have bound :
        frame.left.length - (ftOrder + 1) < frame.left.length := by
      simp only [ftOrder] at leftHalf ⊢
      omega
    obtain ⟨near, far, shape, nearShape, farShape⟩ :=
      exists_append_getD bound (Frame.filler h)
    refine ⟨near,
      (frame.left.getD (frame.left.length - (ftOrder + 1))
        (Frame.filler h)).1,
      (frame.left.getD (frame.left.length - (ftOrder + 1))
        (Frame.filler h)).2,
      far, shape, ?_, ?_, ?_⟩
    · rw [nearShape, List.length_take]
      simp only [ftOrder] at leftHalf bound ⊢
      omega
    · rw [farShape, List.length_drop]
      simp only [ftOrder] at leftHalf bound ⊢
      omega
    · simp only [Frame.split, leftHalf, if_false, nearShape, farShape]

/-- The halves of a split around the raised entry are the old node. -/
theorem split_fill
    (full : frame.size = ftSplitlimit)
    (marked : Tree h) :
    (frame.fill marked).first =
        Node.first (C := Tree h)
          (frame.split.2.lower (frame.split.1.fill marked)) ∧
      (frame.fill marked).rest =
        Node.rest (C := Tree h)
            (frame.split.2.lower (frame.split.1.fill marked)) ++
          (frame.split.2.entry,
            Node.first (C := Tree h)
              (frame.split.2.upper (frame.split.1.fill marked))) ::
            Node.rest (C := Tree h)
              (frame.split.2.upper (frame.split.1.fill marked)) := by
  rcases split_cases full with
    ⟨near, entry, kid, far, shape, _, _, result⟩ |
    ⟨near, entry, kid, far, shape, _, _, result⟩
  · rw [result]
    simp only [Raised.lower, Raised.upper, Frame.fill]
    rw [shape, zipUp_append]
    exact ⟨rfl, rfl⟩
  · rw [result]
    simp only [Raised.lower, Raised.upper, Frame.fill]
    have beyond := zipUp_append far kid []
      ((entry, (zipUp near (frame.hole.put marked) frame.right).1) ::
        (zipUp near (frame.hole.put marked) frame.right).2)
    rw [List.nil_append] at beyond
    rw [shape, zipUp_concat, zipUp, beyond]
    exact ⟨rfl, rfl⟩

/-- Both halves of a split are in order and the gap stays the same. -/
theorem split_ok
    (full : frame.size = ftSplitlimit)
    (ok : FrameOk low high (SoundKid regime h) frame)
    (region : low ≤ high)
    (bounded : high ≤ regime.limit) :
    FrameOk (markLow low (some frame.split.2))
        (markHigh high (some frame.split.2))
        (SoundKid regime h) frame.split.1 ∧
      frame.split.1.size ≤ 2 * ftOrder ∧
      RaisedOk regime low high (some frame.split.2) ∧
      frame.split.1.low (markLow low (some frame.split.2)) =
        frame.low low ∧
      frame.split.1.high (markHigh high (some frame.split.2)) =
        frame.high high := by
  obtain ⟨lowLe, lowHigh⟩ := ok.left.lowOf_le region
  rcases split_cases full with
    ⟨near, entry, kid, far, shape, nearCount, farCount, result⟩ |
    ⟨near, entry, kid, far, shape, nearCount, farCount, result⟩
  · have ordered := ok.right
    have kids := ok.rightKids
    rw [shape] at ordered kids
    obtain ⟨nearOk, ⟨flag, entryLow, ends, entryHigh, _⟩, farOk⟩ :=
      ordered_append.mp ordered
    obtain ⟨nearKids, kidOk, farKids⟩ := kidsRight_append.mp kids
    rw [result]
    simp only [markLow, markHigh, RaisedOk]
    refine ⟨⟨?_, nearOk, ok.leftKids, ok.hole, nearKids⟩, ?_,
      ⟨⟨flag, by omega, ends, entryHigh⟩, ?_⟩, rfl, ?_⟩
    · exact (orderedLeft_iff_lowOf_le (by omega) (by omega)).mpr
        ⟨ok.left, entryLow⟩
    · simp only [Frame.size, ftOrder] at nearCount ⊢
      omega
    · refine SoundKid.of_dirty (Sound.of_region ?_ farOk bounded
        ⟨kidOk, farKids⟩) rfl none
      simp only [farCount, ftOrder]
      omega
    · simp only [Frame.high, shape]
      exact (highOf_append_cons high near far entry kid).symm
  · have ordered := ok.left
    have kids := ok.leftKids
    have right := ok.right
    rw [shape] at ordered kids right
    rw [lowOf_append_cons] at right
    obtain ⟨nearOk, ⟨flag, entryLow, ends, entryHigh, _⟩, farOk⟩ :=
      orderedLeft_append.mp ordered
    obtain ⟨nearKids, kidOk, farKids⟩ := kidsLeft_append.mp kids
    have farOrdered :
        Ordered low entry.irange.left (zipUp far kid []).2 :=
      (ordered_zipUp_iff entryLow).mpr ⟨farOk, trivial⟩
    rw [result]
    simp only [markLow, markHigh, RaisedOk]
    refine ⟨⟨nearOk, right, nearKids, ok.hole, ok.rightKids⟩, ?_,
      ⟨⟨flag, entryLow, ends, entryHigh⟩, ?_⟩, ?_, rfl⟩
    · simp only [Frame.size, ftOrder] at nearCount ⊢
      omega
    · refine SoundKid.of_dirty (Sound.of_region ?_ farOrdered (by omega)
        ((@kidsIn_zipUp_iff _ _ _ _ _ []).mpr ⟨farKids, kidOk, trivial⟩))
        rfl none
      simp only [length_zipUp, farCount, ftOrder, List.length_nil]
      omega
    · simp only [Frame.low, shape]
      exact (lowOf_append_cons low near far entry kid).symm

/-- Splitting changes no lookup. -/
theorem look_split
    (full : frame.size = ftSplitlimit)
    (ok : FrameOk low high (SoundKid regime h) frame)
    (region : low ≤ high)
    (marked : Tree h)
    (x : Nat) :
    frame.split.2.look (frame.split.1.fill marked) x =
      look (h + 1) (frame.fill marked) x := by
  obtain ⟨firstShape, restShape⟩ := split_fill full marked
  have ordered := ok.fill_ordered region marked
  simp only [Raised.look, look]
  rw [firstShape]
  rw [restShape] at ordered ⊢
  rw [lookIn_append ordered]

end Split

/-! ## Settling a frame -/

section Settle

variable {regime : Regime} {h : Nat} {frame : Frame (Tree h)}

/-- A frame with room for its last entry, or split if it had none. -/
theorem settle_spec
    (ok : FrameOk low high (SoundKid regime h) frame)
    (count : frame.size ≤ ftSplitlimit)
    (region : low ≤ high)
    (bounded : high ≤ regime.limit) :
    FrameOk (markLow low frame.settle.2) (markHigh high frame.settle.2)
        (SoundKid regime h) frame.settle.1 ∧
      frame.settle.1.size ≤ 2 * ftOrder ∧
      RaisedOk regime low high frame.settle.2 ∧
      frame.settle.1.low (markLow low frame.settle.2) = frame.low low ∧
      frame.settle.1.high (markHigh high frame.settle.2) =
        frame.high high ∧
      ∀ marked x,
        markLook frame.settle.2 (frame.settle.1.fill marked) x =
          look (h + 1) (frame.fill marked) x := by
  unfold Frame.settle
  by_cases full : frame.size = ftSplitlimit
  · rw [if_pos full]
    obtain ⟨frameOk, size, raisedOk, lows, highs⟩ :=
      split_ok full ok region bounded
    exact ⟨frameOk, size, raisedOk, lows, highs, fun marked x =>
      look_split full ok region marked x⟩
  · rw [if_neg full]
    refine ⟨ok, ?_, trivial, rfl, rfl, fun marked x => rfl⟩
    simp only [ftSplitlimit] at count full ⊢
    omega

end Settle

/-! ## Paths -/

/-- First byte of the gap around the hole. -/
def Ctx.low (base : Nat) : Ctx h top → Nat
  | .nil => base
  | .cons frame outer => frame.low (outer.low base)

/-- The byte after the gap around the hole. -/
def Ctx.high (base : Nat) : Ctx h top → Nat
  | .nil => base
  | .cons frame outer => frame.high (outer.high base)

/-- Whether every hole on the path is in memory. -/
def Ctx.AllLoaded : Ctx h top → Prop
  | .nil => True
  | .cons frame outer => frame.hole.isLoaded = true ∧ outer.AllLoaded

/-- The nodes on the path fit into each other's gaps, below a region. -/
def Ctx.Ok (regime : Regime) (low high : Nat) : Ctx h top → Prop
  | .nil => True
  | .cons (h := h) frame outer =>
      frame.size ≤ 2 * ftOrder ∧
        FrameOk (outer.low low) (outer.high high) (SoundKid regime h)
          frame ∧
        outer.Ok regime low high

section Paths

variable {regime : Regime} {h top low high x : Nat} {ctx : Ctx h top}

theorem Ctx.low_le_high
    (ok : ctx.Ok regime low high)
    (region : low ≤ high) :
    low ≤ ctx.low low ∧ ctx.low low ≤ ctx.high high ∧
      ctx.high high ≤ high := by
  induction ctx with
  | nil => exact ⟨le_rfl, region, le_rfl⟩
  | cons frame outer inductionHypothesis =>
      obtain ⟨_, frameOk, outerOk⟩ := ok
      obtain ⟨outerLow, outerRegion, outerHigh⟩ :=
        inductionHypothesis outerOk
      obtain ⟨frameLow, frameRegion, frameHigh⟩ :=
        frameOk.bounds outerRegion
      exact ⟨outerLow.trans frameLow, frameRegion,
        frameHigh.trans outerHigh⟩

/-- Inside the gap a lookup goes to the tree in the hole. -/
theorem Ctx.look_plug_inside
    (ok : ctx.Ok regime low high)
    (region : low ≤ high)
    (loaded : ctx.AllLoaded)
    (tree : Tree h)
    (lower : ctx.low low ≤ x)
    (upper : x < ctx.high high) :
    look top (ctx.plug tree) x = look h tree x := by
  induction ctx with
  | nil => rfl
  | cons frame outer inductionHypothesis =>
      obtain ⟨_, frameOk, outerOk⟩ := ok
      obtain ⟨holeLoaded, outerLoaded⟩ := loaded
      have outerRegion := (Ctx.low_le_high outerOk region).2.1
      obtain ⟨frameLow, _, frameHigh⟩ := frameOk.bounds outerRegion
      have through := inductionHypothesis outerOk outerLoaded
        (frame.fill tree) (frameLow.trans lower)
        (lt_of_lt_of_le upper frameHigh)
      rw [Ctx.plug, through,
        look_fill_inside frameOk outerRegion tree lower upper,
        Kid.get_put_of_isLoaded holeLoaded]

/-- Outside the gap the tree in the hole does not matter. -/
theorem Ctx.look_plug_outside
    (ok : ctx.Ok regime low high)
    (region : low ≤ high)
    (loaded : ctx.AllLoaded)
    (tree tree' : Tree h)
    (lowLe : low ≤ x)
    (below : x < high)
    (outside : ¬(ctx.low low ≤ x ∧ x < ctx.high high)) :
    look top (ctx.plug tree) x = look top (ctx.plug tree') x := by
  induction ctx with
  | nil => exact absurd ⟨lowLe, below⟩ outside
  | cons frame outer inductionHypothesis =>
      obtain ⟨_, frameOk, outerOk⟩ := ok
      obtain ⟨_, outerLoaded⟩ := loaded
      have outerRegion := (Ctx.low_le_high outerOk region).2.1
      by_cases inOuter : outer.low low ≤ x ∧ x < outer.high high
      · have through := Ctx.look_plug_inside outerOk region outerLoaded
          (frame.fill tree) inOuter.1 inOuter.2
        have through' := Ctx.look_plug_inside outerOk region outerLoaded
          (frame.fill tree') inOuter.1 inOuter.2
        exact through.trans ((look_fill_outside frameOk outerRegion tree
          tree' inOuter.1 inOuter.2 outside).trans through'.symm)
      · exact inductionHypothesis outerOk outerLoaded _ _ inOuter

/-- Pushing keeps the path in order, moves the hole to the marked half, and
changes lookups inside the old gap only. -/
theorem Ctx.push_spec
    {raised : Option (Raised h)}
    (ok : ctx.Ok regime low high)
    (region : low ≤ high)
    (bounded : high ≤ regime.limit)
    (raisedOk : RaisedOk regime (ctx.low low) (ctx.high high) raised) :
    (ctx.push raised).1.Ok regime (markLow low (ctx.push raised).2)
        (markHigh high (ctx.push raised).2) ∧
      RaisedOk regime low high (ctx.push raised).2 ∧
      (ctx.push raised).1.low (markLow low (ctx.push raised).2) =
        markLow (ctx.low low) raised ∧
      (ctx.push raised).1.high (markHigh high (ctx.push raised).2) =
        markHigh (ctx.high high) raised ∧
      ∀ marked x, ctx.AllLoaded → low ≤ x → x < high →
        markLook (ctx.push raised).2 ((ctx.push raised).1.plug marked) x =
          if ctx.low low ≤ x ∧ x < ctx.high high then
            markLook raised marked x
          else look top (ctx.plug marked) x := by
  induction ctx with
  | nil =>
      cases raised with
      | none =>
          refine ⟨trivial, trivial, rfl, rfl, ?_⟩
          intro marked x _ lowLe below
          exact (if_pos ⟨lowLe, below⟩).symm
      | some raised =>
          refine ⟨trivial, raisedOk, rfl, rfl, ?_⟩
          intro marked x _ lowLe below
          exact (if_pos ⟨lowLe, below⟩).symm
  | cons frame outer inductionHypothesis =>
      obtain ⟨count, frameOk, outerOk⟩ := ok
      obtain ⟨outerLow, outerRegion, outerHigh⟩ :=
        Ctx.low_le_high outerOk region
      cases raised with
      | none =>
          refine ⟨⟨count, frameOk, outerOk⟩, trivial, rfl, rfl, ?_⟩
          intro marked x loaded lowLe below
          split
          · next inside =>
              exact (@Ctx.look_plug_inside _ _ _ _ _ _ (.cons frame outer))
                ⟨count, frameOk, outerOk⟩ region loaded marked
                inside.1 inside.2
          · rfl
      | some raised =>
          have insertedOk := insert_ok frameOk outerRegion raisedOk
          have insertedCount :
              (frame.insert raised).size ≤ ftSplitlimit := by
            rw [insert_size]
            simp only [ftSplitlimit] at count ⊢
            omega
          obtain ⟨settledOk, settledCount, settledRaised, settledLow,
            settledHigh, settledLook⟩ :=
            settle_spec insertedOk insertedCount outerRegion
              (outerHigh.trans bounded)
          obtain ⟨insertedLow, insertedHigh⟩ :=
            insert_low_high frame raised (outer.low low) (outer.high high)
          obtain ⟨pushedOk, pushedRaised, pushedLow, pushedHigh,
            pushedLook⟩ := inductionHypothesis outerOk settledRaised
          simp only [Ctx.push]
          generalize (frame.insert raised).settle = settled at *
          generalize outer.push settled.2 = pushed at *
          refine ⟨⟨settledCount, ?_, pushedOk⟩, pushedRaised, ?_, ?_, ?_⟩
          · rw [pushedLow, pushedHigh]
            exact settledOk
          · simp only [Ctx.low]
            rw [pushedLow, settledLow, insertedLow]
          · simp only [Ctx.high]
            rw [pushedHigh, settledHigh, insertedHigh]
          · intro marked x loaded lowLe below
            have through := pushedLook (settled.1.fill marked) x
              loaded.2 lowLe below
            simp only [Ctx.plug] at through ⊢
            rw [through, settledLook]
            by_cases inOuter : outer.low low ≤ x ∧ x < outer.high high
            · rw [if_pos inOuter,
                look_insert frameOk outerRegion raisedOk marked marked
                  inOuter.1 inOuter.2]
              congr 1
              exact (Ctx.look_plug_inside outerOk region loaded.2 _
                inOuter.1 inOuter.2).symm
            · obtain ⟨frameLow, _, frameHigh⟩ :=
                frameOk.bounds outerRegion
              have outside : ¬((Ctx.cons frame outer).low low ≤ x ∧
                  x < (Ctx.cons frame outer).high high) := by
                intro inside
                exact inOuter ⟨frameLow.trans inside.1,
                  lt_of_lt_of_le inside.2 frameHigh⟩
              rw [if_neg inOuter, if_neg outside]
              exact Ctx.look_plug_outside outerOk region loaded.2 _ _
                lowLe below inOuter

theorem Ctx.push_allLoaded
    {raised : Option (Raised h)}
    (loaded : ctx.AllLoaded) :
    (ctx.push raised).1.AllLoaded := by
  induction ctx with
  | nil => cases raised <;> trivial
  | cons frame outer inductionHypothesis =>
      cases raised with
      | none => exact loaded
      | some raised =>
          refine ⟨?_, inductionHypothesis loaded.2⟩
          obtain ⟨side, other, entry⟩ := raised
          unfold Frame.settle Frame.split
          cases side <;> split <;> (try split) <;> rfl

theorem mem_kids_zipUp
    (left : List (FtEnt × Kid C))
    (kid : Kid C)
    (right : List (FtEnt × Kid C)) :
    kid ∈ (zipUp left kid right).1 :: (zipUp left kid right).2.map Prod.snd ∧
      ∀ pair ∈ right, pair.2 ∈ (zipUp left kid right).1 ::
        (zipUp left kid right).2.map Prod.snd := by
  induction left generalizing kid right with
  | nil =>
      refine ⟨List.mem_cons_self, fun pair member => ?_⟩
      exact List.mem_cons_of_mem _ (List.mem_map.mpr ⟨pair, member, rfl⟩)
  | cons head left inductionHypothesis =>
      obtain ⟨entry, before⟩ := head
      obtain ⟨_, rightKids⟩ :=
        inductionHypothesis before ((entry, kid) :: right)
      exact ⟨rightKids (entry, kid) List.mem_cons_self, fun pair member =>
        rightKids pair (List.mem_cons_of_mem _ member)⟩

/-- A node is not clean when it is dirty or when the tree in its gap is not
clean. -/
theorem allClean_fill
    {frame : Frame (Tree h)}
    {tree : Tree h}
    (touched : frame.dirty = true ∨
      frame.hole.isLoaded = true ∧ allClean h tree = false) :
    allClean (h + 1) (frame.fill tree) = false := by
  rw [← Bool.not_eq_true]
  intro clean
  simp only [allClean, Bool.and_eq_true, List.all_eq_true] at clean
  rcases touched with dirty | ⟨loaded, unclean⟩
  · have flag := clean.1
    simp [Frame.fill, dirty] at flag
  · have inHole := clean.2 _
      (mem_kids_zipUp frame.left (frame.hole.put tree) frame.right).1
    cases shape : frame.hole with
    | loaded saved old =>
        rw [shape] at inHole
        exact absurd (unclean.symm.trans inHole) Bool.false_ne_true
    | unloaded saved seen stored =>
        rw [shape] at loaded
        cases loaded

/-- A sound tree in the hole of a path makes a sound tree, if the path leads
through memory to something that changed, or if nothing is asked of the log. -/
theorem Ctx.sound_plug
    {tree : Tree h}
    (ok : ctx.Ok regime low high)
    (region : low ≤ high)
    (bounded : high ≤ regime.limit)
    (sound : Sound regime h (ctx.low low) (ctx.high high) tree)
    (touched : regime.Trusting ∨ ctx.AllLoaded ∧ allClean h tree = false) :
    Sound regime top low high (ctx.plug tree) ∧
      (regime.Trusting ∨ allClean top (ctx.plug tree) = false) := by
  induction ctx with
  | nil => exact ⟨sound, touched.imp_right And.right⟩
  | cons frame outer inductionHypothesis =>
      obtain ⟨count, frameOk, outerOk⟩ := ok
      obtain ⟨_, outerRegion, outerHigh⟩ :=
        Ctx.low_le_high outerOk region
      refine inductionHypothesis outerOk (Sound.of_region ?_
        (frameOk.fill_ordered outerRegion tree) (outerHigh.trans bounded)
        (frameOk.fill_kids ?_)) ?_
      · rw [FrameOk.length_fill]
        exact count
      · cases shape : frame.hole with
        | loaded saved old =>
            exact SoundKid.of_touched sound
              (fun _ => touched.imp_right And.right) saved
        | unloaded saved seen stored =>
            rcases touched with trusting | ⟨loaded, _⟩
            · have holeOk := frameOk.hole
              rw [shape] at holeOk
              exact SoundKid.of_unloaded trusting (holeOk rfl)
            · have holeLoaded := loaded.1
              rw [shape] at holeLoaded
              cases holeLoaded
      · refine touched.imp_right fun ⟨loaded, unclean⟩ => ?_
        exact ⟨loaded.2, allClean_fill (Or.inr ⟨loaded.1, unclean⟩)⟩

theorem markLow_le_markHigh
    {raised : Option (Raised h)}
    (region : low ≤ high)
    (raisedOk : RaisedOk regime low high raised) :
    markLow low raised ≤ markHigh high raised ∧
      markHigh high raised ≤ high := by
  rcases raised with _ | ⟨side, other, entry⟩
  · exact ⟨region, le_rfl⟩
  · obtain ⟨⟨_, lower, ends, upper⟩, _⟩ := raisedOk
    dsimp only at lower ends upper
    cases side <;> simp only [markLow, markHigh] <;> omega

/-- Settling a frame keeps its flag and the child in its gap. -/
theorem settle_same
    (frame : Frame (Tree h)) :
    frame.settle.1.dirty = frame.dirty ∧
      frame.settle.1.hole = frame.hole := by
  unfold Frame.settle Frame.split
  split <;> (try split) <;> exact ⟨rfl, rfl⟩

/-- A path from the gap of a leaf, after an insertion there, makes a sound
tree. -/
theorem Ctx.sound_push_leaf
    {ctx : Ctx 0 top}
    {raised : Raised 0}
    (ok : ctx.Ok regime low high)
    (region : low ≤ high)
    (bounded : high ≤ regime.limit)
    (raisedOk : RaisedOk regime (ctx.low low) (ctx.high high) (some raised))
    (loaded : regime.Trusting ∨ ctx.AllLoaded) :
    Sound regime top (markLow low (ctx.push (some raised)).2)
        (markHigh high (ctx.push (some raised)).2)
        ((ctx.push (some raised)).1.plug ()) ∧
      (0 < top → regime.Trusting ∨
        allClean top ((ctx.push (some raised)).1.plug ()) = false) := by
  obtain ⟨pushedOk, pushedRaised, _⟩ :=
    Ctx.push_spec ok region bounded raisedOk
  have marked := markLow_le_markHigh region pushedRaised
  cases ctx with
  | nil => exact ⟨trivial, fun positive => absurd positive (lt_irrefl 0)⟩
  | cons frame outer =>
      obtain ⟨dirty, hole⟩ := settle_same (frame.insert raised)
      have dirtyInsert : (frame.insert raised).dirty = true ∧
          (frame.insert raised).hole = .loaded none (chain 0) := by
        obtain ⟨side, other, entry⟩ := raised
        cases side <;> exact ⟨rfl, rfl⟩
      rw [dirtyInsert.1] at dirty
      rw [dirtyInsert.2] at hole
      have outerLoaded : regime.Trusting ∨
          (outer.push (frame.insert raised).settle.2).1.AllLoaded :=
        loaded.imp_right fun all => Ctx.push_allLoaded all.2
      simp only [Ctx.push] at pushedOk pushedRaised marked ⊢
      generalize (frame.insert raised).settle = settled at *
      generalize outer.push settled.2 = pushed at *
      obtain ⟨count, frameOk, outerOk⟩ := pushedOk
      obtain ⟨_, outerRegion, outerHigh⟩ :=
        Ctx.low_le_high outerOk marked.1
      have filled := Ctx.sound_plug (h := 0 + 1)
        outerOk
        marked.1 (marked.2.trans bounded)
        (Sound.of_region ((FrameOk.length_fill settled.1 ()).trans_le count)
          (frameOk.fill_ordered outerRegion ())
          (outerHigh.trans (marked.2.trans bounded))
          (frameOk.fill_kids (by rw [hole]; exact ⟨trivial, rfl⟩)))
        (outerLoaded.imp_right fun all =>
          ⟨all, allClean_fill (Or.inl dirty)⟩)
      exact ⟨filled.1, fun _ => filled.2⟩

end Paths

/-! ## The root -/

section Root

variable {regime : Regime} {h middle top low high : Nat}

theorem Ctx.low_append
    (ctx : Ctx h middle)
    (above : Ctx middle top)
    (low : Nat) :
    (ctx.append above).low low = ctx.low (above.low low) := by
  induction ctx with
  | nil => rfl
  | cons frame outer inductionHypothesis =>
      exact congrArg frame.low (inductionHypothesis above)

theorem Ctx.high_append
    (ctx : Ctx h middle)
    (above : Ctx middle top)
    (high : Nat) :
    (ctx.append above).high high = ctx.high (above.high high) := by
  induction ctx with
  | nil => rfl
  | cons frame outer inductionHypothesis =>
      exact congrArg frame.high (inductionHypothesis above)

theorem Ctx.Ok.append
    {ctx : Ctx h middle}
    {above : Ctx middle top}
    (ok : ctx.Ok regime (above.low low) (above.high high))
    (aboveOk : above.Ok regime low high) :
    (ctx.append above).Ok regime low high := by
  induction ctx with
  | nil => exact aboveOk
  | cons frame outer inductionHypothesis =>
      obtain ⟨count, frameOk, outerOk⟩ := ok
      refine ⟨count, ?_, inductionHypothesis outerOk aboveOk⟩
      rw [Ctx.low_append, Ctx.high_append]
      exact frameOk

theorem Ctx.AllLoaded.append
    {ctx : Ctx h middle}
    {above : Ctx middle top}
    (loaded : ctx.AllLoaded)
    (aboveLoaded : above.AllLoaded) :
    (ctx.append above).AllLoaded := by
  induction ctx with
  | nil => exact aboveLoaded
  | cons frame outer inductionHypothesis =>
      exact ⟨loaded.1, inductionHypothesis loaded.2 aboveLoaded⟩

/-- The new root is what an insertion makes of a node without entries. -/
theorem rootFrame_eq_insert (raised : Raised h) :
    rootFrame raised =
      Frame.insert ⟨true, [], .loaded none (chain h), []⟩ raised := by
  obtain ⟨side, other, entry⟩ := raised
  cases side <;> rfl

theorem rootFrame_ok
    {raised : Raised h}
    (raisedOk : RaisedOk regime 0 regime.limit (some raised)) :
    FrameOk 0 regime.limit (SoundKid regime h) (rootFrame raised) ∧
      (rootFrame raised).size ≤ 2 * ftOrder ∧
      (rootFrame raised).low 0 = markLow 0 (some raised) ∧
      (rootFrame raised).high regime.limit =
        markHigh regime.limit (some raised) := by
  have bareOk : FrameOk 0 regime.limit (SoundKid regime h)
      ⟨true, [], .loaded none (chain h), []⟩ :=
    ⟨trivial, trivial, trivial, nofun, trivial⟩
  obtain ⟨lows, highs⟩ := insert_low_high
    ⟨true, [], .loaded none (chain h), []⟩ raised 0 regime.limit
  rw [rootFrame_eq_insert]
  refine ⟨insert_ok bareOk (Nat.zero_le _) raisedOk, ?_, lows, highs⟩
  rw [insert_size]
  simp [Frame.size, ftOrder]

theorem look_rootFrame
    {raised : Raised h}
    (raisedOk : RaisedOk regime 0 regime.limit (some raised))
    (marked : Tree h)
    (below : x < regime.limit) :
    look (h + 1) ((rootFrame raised).fill marked) x =
      raised.look marked x := by
  have bareOk : FrameOk 0 regime.limit (SoundKid regime h)
      ⟨true, [], .loaded none (chain h), []⟩ :=
    ⟨trivial, trivial, trivial, nofun, trivial⟩
  rw [rootFrame_eq_insert,
    look_insert bareOk (Nat.zero_le _) raisedOk marked (chain h)
      (Nat.zero_le x) below]
  exact if_pos ⟨Nat.zero_le _, below⟩

theorem sound_rootFrame
    {raised : Raised h}
    {tree : Tree h}
    (raisedOk : RaisedOk regime 0 regime.limit (some raised))
    (sound : Sound regime h (markLow 0 (some raised))
      (markHigh regime.limit (some raised)) tree)
    (touched : 0 < h → regime.Trusting ∨ allClean h tree = false) :
    Sound regime (h + 1) 0 regime.limit ((rootFrame raised).fill tree) := by
  obtain ⟨frameOk, count, lows, highs⟩ := rootFrame_ok raisedOk
  refine Sound.of_region ?_ (frameOk.fill_ordered (Nat.zero_le _) tree)
    le_rfl (frameOk.fill_kids ?_)
  · rw [FrameOk.length_fill]
    exact count
  · rw [lows, highs]
    obtain ⟨side, other, entry⟩ := raised
    cases side <;> exact SoundKid.of_touched sound touched none

/-- Pushing up to the root keeps the path in order, moves the hole to the
marked half, and changes lookups inside the old gap only. -/
theorem pushRoot_spec
    {root : RootCtx h}
    {raised : Option (Raised h)}
    (ok : root.ctx.Ok regime 0 regime.limit)
    (raisedOk : RaisedOk regime (root.ctx.low 0)
      (root.ctx.high regime.limit) raised) :
    (pushRoot root raised).ctx.Ok regime 0 regime.limit ∧
      (pushRoot root raised).ctx.low 0 = markLow (root.ctx.low 0) raised ∧
      (pushRoot root raised).ctx.high regime.limit =
        markHigh (root.ctx.high regime.limit) raised ∧
      ∀ marked x, root.ctx.AllLoaded → x < regime.limit →
        ((pushRoot root raised).plug marked).look x =
          if root.ctx.low 0 ≤ x ∧ x < root.ctx.high regime.limit then
            markLook raised marked x
          else (root.plug marked).look x := by
  obtain ⟨pushedOk, pushedRaised, pushedLow, pushedHigh, pushedLook⟩ :=
    Ctx.push_spec ok (Nat.zero_le _) le_rfl raisedOk
  unfold pushRoot
  dsimp only
  generalize root.ctx.push raised = pushed at *
  obtain ⟨ctx, _ | above⟩ := pushed
  · exact ⟨pushedOk, pushedLow, pushedHigh, fun marked x loaded below =>
      pushedLook marked x loaded (Nat.zero_le _) below⟩
  · obtain ⟨frameOk, count, lows, highs⟩ := rootFrame_ok pushedRaised
    refine ⟨Ctx.Ok.append ?_ ⟨count, frameOk, trivial⟩, ?_, ?_, ?_⟩
    · simp only [Ctx.low, Ctx.high, lows, highs]
      exact pushedOk
    · rw [Ctx.low_append]
      simp only [Ctx.low, lows]
      exact pushedLow
    · rw [Ctx.high_append]
      simp only [Ctx.high, highs]
      exact pushedHigh
    · intro marked x loaded below
      simp only [RootCtx.plug, Fig.look, Ctx.plug_append, Ctx.plug]
      exact (look_rootFrame pushedRaised (ctx.plug marked) below).trans
        (pushedLook marked x loaded (Nat.zero_le _) below)

theorem pushRoot_allLoaded
    {root : RootCtx h}
    {raised : Option (Raised h)}
    (loaded : root.ctx.AllLoaded) :
    (pushRoot root raised).ctx.AllLoaded := by
  have pushedLoaded := (@Ctx.push_allLoaded _ _ _ raised) loaded
  unfold pushRoot
  dsimp only
  generalize root.ctx.push raised = pushed at *
  obtain ⟨ctx, _ | ⟨side, other, entry⟩⟩ := pushed
  · exact pushedLoaded
  · refine pushedLoaded.append ?_
    cases side <;> exact ⟨rfl, trivial⟩

end Root


end FigTree
end Gdpfs
