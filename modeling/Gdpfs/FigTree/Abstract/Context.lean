import Gdpfs.FigTree.Abstract.Prune

/-!
# Sound trees and contexts

The invariant of a tree, and what a path to a hole means for lookups: inside
the gap around the hole a lookup goes to the tree in the hole, and elsewhere
that tree does not matter.

The invariant speaks about the visible region of each node.  Nothing relates
the entries of a child to the gap it hangs in: entries outside the gap are
stale.  What the log stores for a clean node only has to agree with it on the
visible part.
-/

namespace Gdpfs
namespace FigTree

/-- One past the last byte index. -/
def byteIndexEnd : Nat := byteIndexMax + 1

/-- Whether no node of a tree that is in memory is dirty. -/
def allClean : (h : Nat) → Tree h → Bool
  | 0, _ => true
  | h + 1, tree =>
      !(tree : Node (Tree h)).dirty &&
        (tree : Node (Tree h)).kids.all fun
          | .loaded _ child => allClean h child
          | .unloaded _ _ _ => true

/-- What a development asks of its trees: a limit for the bytes that entries
cover, whether children may be left in the log, and what `saved` has to name
there for a clean tree that is visible in a region. -/
structure Regime where
  limit : Nat
  bounded : limit ≤ byteIndexEnd
  partly : Prop
  backs : (h low high : Nat) → Option (Nat × Nat) → Tree h → Prop
  keep : ∀ {h low high low' high' : Nat} {saved : Option (Nat × Nat)}
    {tree tree' : Tree h},
    (∀ x, low' ≤ x → x < high' →
      low ≤ x ∧ x < high ∧ look h tree x = look h tree' x) →
    backs h low high saved tree → backs h low' high' saved tree'

namespace Regime

/-- Nothing is asked of the log. -/
def Trusting (regime : Regime) : Prop :=
  ∀ h low high saved (tree : Tree h), regime.backs h low high saved tree

/-- A null pointer counts as in memory, and a clean child in memory is backed
by the log. -/
def Backed (regime : Regime) : (h low high : Nat) → Kid (Tree h) → Prop
  | 0, _, _, kid => kid.isLoaded = true
  | _ + 1, _, _, .unloaded _ _ _ => regime.partly
  | h + 1, low, high, .loaded saved child =>
      allClean (h + 1) child = true →
        regime.backs (h + 1) low high saved child

end Regime

/-- The parts of the invariant that concern a single node. -/
structure NodeOk
    (limit : Nat)
    (good : Nat → Nat → Kid C → Prop)
    (node : Node C) : Prop where
  count : node.rest.length ≤ 2 * ftOrder
  ordered : Ordered 0 limit node.rest
  kids : KidsIn good 0 limit node.first node.rest

/-- The invariant of a tree that is visible in a region. -/
def Sound (regime : Regime) : (h low high : Nat) → Tree h → Prop
  | 0, _, _, _ => True
  | h + 1, low, high, tree =>
      NodeOk regime.limit
        (fun low' high' kid =>
          Sound regime h (max low low') (min high high') kid.get ∧
            regime.Backed h (max low low') (min high high') kid)
        (tree : Node (Tree h))

/-- The invariant of a child that is visible in a region. -/
def SoundKid (regime : Regime) (h low high : Nat) (kid : Kid (Tree h)) :
    Prop :=
  Sound regime h low high kid.get ∧ regime.Backed h low high kid

section Sound

variable {regime : Regime} {h low high low' high' : Nat}

theorem Sound.shrink
    {tree : Tree h}
    (within : ∀ x, low' ≤ x → x < high' → low ≤ x ∧ x < high)
    (sound : Sound regime h low high tree) :
    Sound regime h low' high' tree := by
  induction h generalizing low high low' high' with
  | zero => trivial
  | succ h inductionHypothesis =>
      refine ⟨sound.count, sound.ordered, sound.kids.imp ?_⟩
      rintro first last kid ⟨kidSound, kidBacked⟩
      have within' : ∀ x, max low' first ≤ x → x < min high' last →
          max low first ≤ x ∧ x < min high last := by
        intro x lower upper
        have := within x (by omega) (by omega)
        omega
      refine ⟨inductionHypothesis within' kidSound, ?_⟩
      match h, kid with
      | 0, _ => exact kidBacked
      | _ + 1, .unloaded _ _ _ => exact kidBacked
      | _ + 1, .loaded _ _ =>
          intro clean
          refine regime.keep (fun x lower upper => ?_) (kidBacked clean)
          exact ⟨(within' x lower upper).1, (within' x lower upper).2, rfl⟩

theorem SoundKid.shrink
    {kid : Kid (Tree h)}
    (within : ∀ x, low' ≤ x → x < high' → low ≤ x ∧ x < high)
    (sound : SoundKid regime h low high kid) :
    SoundKid regime h low' high' kid := by
  refine ⟨sound.1.shrink within, ?_⟩
  match h, kid with
  | 0, _ => exact sound.2
  | _ + 1, .unloaded _ _ _ => exact sound.2
  | _ + 1, .loaded _ _ =>
      intro clean
      refine regime.keep (fun x lower upper => ?_) (sound.2 clean)
      exact ⟨(within x lower upper).1, (within x lower upper).2, rfl⟩

/-- The region is immaterial when nothing is asked of the log. -/
theorem Sound.of_trusting
    {tree : Tree h}
    (trusting : regime.Trusting)
    (sound : Sound regime h low high tree) :
    Sound regime h low' high' tree := by
  induction h generalizing low high low' high' with
  | zero => trivial
  | succ h inductionHypothesis =>
      refine ⟨sound.count, sound.ordered, sound.kids.imp ?_⟩
      rintro first last kid ⟨kidSound, kidBacked⟩
      refine ⟨inductionHypothesis kidSound, ?_⟩
      match h, kid with
      | 0, _ => exact kidBacked
      | _ + 1, .unloaded _ _ _ => exact kidBacked
      | _ + 1, .loaded _ _ => exact fun _ => trusting _ _ _ _ _

/-- A tree that changed needs no backing. -/
theorem SoundKid.of_touched
    {tree : Tree h}
    (sound : Sound regime h low high tree)
    (touched : 0 < h → regime.Trusting ∨ allClean h tree = false)
    (saved : Option (Nat × Nat)) :
    SoundKid regime h low high (.loaded saved tree) := by
  refine ⟨sound, ?_⟩
  cases h with
  | zero => rfl
  | succ h =>
      intro clean
      rcases touched (Nat.succ_pos h) with trusting | unclean
      · exact trusting _ _ _ _ _
      · exact absurd (unclean.symm.trans clean) Bool.false_ne_true

theorem SoundKid.of_unloaded
    {saved : Nat × Nat}
    {seen seen' : Bool}
    {stored : Tree h}
    (trusting : regime.Trusting)
    (sound : SoundKid regime h low high (.unloaded saved seen stored)) :
    SoundKid regime h low' high' (.unloaded saved seen' stored) := by
  refine ⟨sound.1.of_trusting trusting, ?_⟩
  cases h with
  | zero => exact sound.2
  | succ h => exact sound.2

theorem SoundKid.visit
    {kid : Kid (Tree h)}
    (sound : SoundKid regime h low high kid) :
    SoundKid regime h low high kid.visit := by
  cases kid with
  | loaded saved child => exact sound
  | unloaded saved seen stored =>
      refine ⟨sound.1, ?_⟩
      cases h with
      | zero => exact sound.2
      | succ h => exact sound.2

theorem SoundKid.of_dirty
    {node : Node (Tree h)}
    (sound : Sound regime (h + 1) low high node)
    (dirty : node.dirty = true)
    (saved : Option (Nat × Nat)) :
    SoundKid regime (h + 1) low high (.loaded saved node) :=
  SoundKid.of_touched sound (fun _ => Or.inr (by simp [allClean, dirty]))
    saved

theorem soundKid_chain : (h : Nat) → (low high : Nat) →
    SoundKid regime h low high (.loaded none (chain h))
  | 0, _, _ => ⟨trivial, rfl⟩
  | h + 1, _, _ =>
      (@SoundKid.of_dirty _ _ _ _ ⟨true, .loaded none (chain h), []⟩)
        ⟨Nat.zero_le _, trivial, soundKid_chain h _ _, trivial⟩ rfl none

theorem sound_clear (node : Node (Tree h)) :
    Sound regime (h + 1) low high node.clear :=
  ⟨Nat.zero_le _, trivial, soundKid_chain h _ _, trivial⟩

/-- A cleared child is sound where nothing of it is visible. -/
theorem SoundKid.clear
    {kid : Kid (Tree h)}
    (sound : SoundKid regime h low high kid)
    (edge : Nat) :
    SoundKid regime h edge edge (clearKid kid) := by
  match h, kid with
  | 0, _ => exact ⟨trivial, sound.2⟩
  | h + 1, .unloaded _ _ _ => exact soundKid_chain (h + 1) edge edge
  | 1, .loaded saved child =>
      refine ⟨sound_clear child, fun clean => ?_⟩
      have childClean : allClean 1 child = true := by
        simp only [allClean, Node.clear, Bool.and_eq_true] at clean
        simp only [allClean, Bool.and_eq_true, clean.1, true_and,
          List.all_eq_true]
        rintro (_ | _) _ <;> rfl
      refine regime.keep (fun x lower upper => ?_) (sound.2 childClean)
      omega
  | h + 2, .loaded saved child =>
      refine ⟨sound_clear child, fun clean => ?_⟩
      simp [allClean, Node.clear, Node.kids, chain] at clean

/-- Pruning to a nonempty interval leaves entries and children that are good
for their gaps inside the interval. -/
theorem sound_prune
    {node : Node (Tree h)}
    {valid : Interval}
    (regular : valid.Regular)
    (isTop : top = min regime.limit (valid.right + 1))
    (sound : Sound regime (h + 1) valid.left top node) :
    (node.prune valid).rest.length ≤ 2 * ftOrder ∧
      Ordered valid.left top (node.prune valid).rest ∧
      KidsIn (SoundKid regime h) valid.left top (node.prune valid).first
        (node.prune valid).rest := by
  obtain ⟨ordered, shorter⟩ := prune_ordered sound.ordered regular
  rw [← isTop] at ordered
  refine ⟨shorter.trans sound.count, ordered, ?_⟩
  unfold Node.prune
  by_cases validFlag : valid.nonempty = true
  · rw [if_pos validFlag]
    exact kidsIn_prunePhases
      (fun _ _ _ _ _ within kidSound => SoundKid.shrink within kidSound)
      (fun _ _ _ edge kidSound => SoundKid.clear kidSound edge)
      validFlag isTop sound.ordered (Nat.zero_le _) sound.kids
  · rw [if_neg validFlag]
    exact ⟨soundKid_chain h _ _, trivial⟩

/-- Where all entries of a node are visible, the children need not be clipped
to its region. -/
theorem Sound.of_region
    {node : Node (Tree h)}
    (count : node.rest.length ≤ 2 * ftOrder)
    (ordered : Ordered low high node.rest)
    (bounded : high ≤ regime.limit)
    (kids : KidsIn (SoundKid regime h) low high node.first node.rest) :
    Sound regime (h + 1) low high node := by
  have clip : ∀ rest : List (FtEnt × Kid (Tree h)),
      KidsRight (SoundKid regime h) high rest →
        KidsRight (fun low' high' => SoundKid regime h (max low low')
          (min high high')) regime.limit rest := by
    intro rest kidsRest
    induction rest with
    | nil => trivial
    | cons head rest inductionHypothesis =>
        refine ⟨kidsRest.1.shrink ?_, inductionHypothesis kidsRest.2⟩
        rcases rest with _ | ⟨⟨after, kid⟩, rest⟩ <;>
          simp only [highOf_nil, highOf_cons] <;> omega
  refine ⟨count, ordered.mono (Nat.zero_le _) bounded,
    kids.1.shrink ?_, clip node.rest kids.2⟩
  rcases node.rest with _ | ⟨⟨after, kid⟩, rest⟩ <;>
    simp only [highOf_nil, highOf_cons] <;> omega

end Sound

/-! ## Frames -/

/-- A node with a gap whose entries are ordered in a region and whose children
are good for their gaps.  The child in the gap is about to change; if it is
only in the log, it is good where nothing of it is visible. -/
structure FrameOk
    (low high : Nat)
    (good : Nat → Nat → Kid C → Prop)
    (frame : Frame C) : Prop where
  left : OrderedLeft low high frame.left
  right : Ordered (lowOf low frame.left) high frame.right
  leftKids : KidsLeft good low frame.left
  hole : frame.hole.isLoaded = false → good 0 0 frame.hole
  rightKids : KidsRight good high frame.right

/-- First byte of the gap of a frame. -/
def Frame.low (low : Nat) (frame : Frame C) : Nat := lowOf low frame.left

/-- The byte after the gap of a frame. -/
def Frame.high (high : Nat) (frame : Frame C) : Nat :=
  highOf high frame.right

namespace FrameOk

variable {good : Nat → Nat → Kid C → Prop} {frame : Frame C}

theorem bounds
    (ok : FrameOk low high good frame)
    (region : low ≤ high) :
    low ≤ frame.low low ∧ frame.low low ≤ frame.high high ∧
      frame.high high ≤ high := by
  obtain ⟨lowLe, lowHigh⟩ := ok.left.lowOf_le region
  obtain ⟨highLow, highLe⟩ := ok.right.highOf_le lowHigh
  exact ⟨lowLe, highLow, highLe⟩

theorem fill_ordered
    (ok : FrameOk low high good frame)
    (region : low ≤ high)
    (child : C) :
    Ordered low high (frame.fill child).rest :=
  (ordered_zipUp_iff region).mpr ⟨ok.left, ok.right⟩

theorem fill_kids
    (ok : FrameOk low high good frame)
    {child : C}
    (putGood :
      good (frame.low low) (frame.high high) (frame.hole.put child)) :
    KidsIn good low high (frame.fill child).first
      (frame.fill child).rest :=
  kidsIn_zipUp_iff.mpr ⟨ok.leftKids, putGood, ok.rightKids⟩

theorem length_fill (frame : Frame C) (child : C) :
    (frame.fill child).rest.length = frame.size :=
  length_zipUp _ _ _

end FrameOk

section FrameLook

variable {h : Nat} {good : Nat → Nat → Kid (Tree h) → Prop}
  {frame : Frame (Tree h)}

/-- Inside the gap, a lookup goes to the child in the gap. -/
theorem look_fill_inside
    (ok : FrameOk low high good frame)
    (region : low ≤ high)
    (child : Tree h)
    (lower : frame.low low ≤ x)
    (upper : x < frame.high high) :
    look (h + 1) (frame.fill child) x =
      look h (frame.hole.put child).get x := by
  unfold Frame.fill
  simp only [look]
  rw [lookIn_zipUp_right (ok.fill_ordered region child) lower]
  exact lookIn_of_lt_highOf ok.right upper

/-- Outside the gap, the child in the gap does not matter. -/
theorem look_fill_outside
    (ok : FrameOk low high good frame)
    (region : low ≤ high)
    (child child' : Tree h)
    (lowLe : low ≤ x)
    (below : x < high)
    (outside : ¬(frame.low low ≤ x ∧ x < frame.high high)) :
    look (h + 1) (frame.fill child) x =
      look (h + 1) (frame.fill child') x := by
  have ordered := ok.fill_ordered region child
  have ordered' := ok.fill_ordered region child'
  unfold Frame.fill at ordered ordered' ⊢
  simp only [look]
  by_cases right : lowOf low frame.left ≤ x
  · rw [lookIn_zipUp_right ordered right,
      lookIn_zipUp_right ordered' right]
    apply lookIn_kid_irrelevant _ below
    by_contra early
    exact outside ⟨right, Nat.lt_of_not_le early⟩
  · exact lookIn_zipUp_left ordered ordered' (Nat.lt_of_not_le right) lowLe

end FrameLook

/-! ## Raised entries -/

namespace Raised

variable {h : Nat}

/-- The left half, once the marked one is given. -/
def lower (raised : Raised h) (marked : Tree h) : Tree h :=
  match raised.side with
  | .left => marked
  | .right => raised.other

/-- The right half, once the marked one is given. -/
def upper (raised : Raised h) (marked : Tree h) : Tree h :=
  match raised.side with
  | .left => raised.other
  | .right => marked

/-- Lookup in two halves with an entry between them. -/
def look (raised : Raised h) (marked : Tree h) (x : Nat) : Option Int :=
  if x < raised.entry.irange.left then
    FigTree.look h (raised.lower marked) x
  else if x ≤ raised.entry.irange.right then some raised.entry.value
  else FigTree.look h (raised.upper marked) x

end Raised

/-- The entry fits into a region. -/
structure Fits (low high : Nat) (entry : FtEnt) : Prop where
  flag : entry.irange.nonempty = true
  low : low ≤ entry.irange.left
  ends : entry.irange.left ≤ entry.irange.right
  high : entry.irange.right < high

/-- What was raised, if anything, fits into a region and is good for its side
of the raised entry. -/
def RaisedOk (regime : Regime) (low high : Nat) : Option (Raised h) → Prop
  | none => True
  | some raised =>
      Fits low high raised.entry ∧
        match raised.side with
        | .left =>
            SoundKid regime h (raised.entry.irange.right + 1) high
              (.loaded none raised.other)
        | .right =>
            SoundKid regime h low raised.entry.irange.left
              (.loaded none raised.other)

/-- First byte of the region of the marked half. -/
def markLow (low : Nat) : Option (Raised h) → Nat
  | none => low
  | some raised =>
      match raised.side with
      | .left => low
      | .right => raised.entry.irange.right + 1

/-- The byte after the region of the marked half. -/
def markHigh (high : Nat) : Option (Raised h) → Nat
  | none => high
  | some raised =>
      match raised.side with
      | .left => raised.entry.irange.left
      | .right => high

/-- Lookup in the marked tree and whatever was raised beside it. -/
def markLook (raised : Option (Raised h)) (marked : Tree h) (x : Nat) :
    Option Int :=
  match raised with
  | none => look h marked x
  | some raised => raised.look marked x

section Insert

variable {regime : Regime} {h : Nat} {frame : Frame (Tree h)}
  {raised : Raised h}

/-- Both kinds of insertion put the two halves around the raised entry. -/
theorem insert_fill (frame : Frame (Tree h)) (raised : Raised h)
    (marked : Tree h) :
    (frame.insert raised).fill marked =
      let node := zipUp frame.left (.loaded none (raised.lower marked))
        ((raised.entry, .loaded none (raised.upper marked)) :: frame.right)
      ⟨true, node.1, node.2⟩ := by
  obtain ⟨side, other, entry⟩ := raised
  cases side <;> rfl

theorem insert_size (frame : Frame (Tree h)) (raised : Raised h) :
    (frame.insert raised).size = frame.size + 1 := by
  obtain ⟨side, other, entry⟩ := raised
  cases side <;> simp only [Frame.insert, Frame.size, List.length_cons] <;>
    omega

theorem insert_ok
    (ok : FrameOk low high (SoundKid regime h) frame)
    (region : low ≤ high)
    (raisedOk : RaisedOk regime (frame.low low) (frame.high high)
      (some raised)) :
    FrameOk low high (SoundKid regime h) (frame.insert raised) := by
  obtain ⟨lowLe, _, highLe⟩ := ok.bounds region
  obtain ⟨side, other, entry⟩ := raised
  obtain ⟨⟨flag, fitsLow, ends, fitsHigh⟩, otherGood⟩ := raisedOk
  have beyond : Ordered (entry.irange.right + 1) high frame.right :=
    ok.right.from_gap fitsHigh
  cases side with
  | left =>
      exact ⟨ok.left, ⟨flag, fitsLow, ends, by omega, beyond⟩, ok.leftKids,
        nofun, otherGood, ok.rightKids⟩
  | right =>
      refine ⟨⟨flag, by omega, ends, by omega, ?_⟩, beyond,
        ⟨otherGood, ok.leftKids⟩, nofun, ok.rightKids⟩
      exact (orderedLeft_iff_lowOf_le (by omega) (by omega)).mpr
        ⟨ok.left, fitsLow⟩

theorem insert_low_high
    (frame : Frame (Tree h))
    (raised : Raised h)
    (low high : Nat) :
    (frame.insert raised).low low =
        markLow (frame.low low) (some raised) ∧
      (frame.insert raised).high high =
        markHigh (frame.high high) (some raised) := by
  obtain ⟨side, other, entry⟩ := raised
  cases side <;> exact ⟨rfl, rfl⟩

/-- Insertion changes lookups inside the gap only. -/
theorem look_insert
    (ok : FrameOk low high (SoundKid regime h) frame)
    (region : low ≤ high)
    (raisedOk : RaisedOk regime (frame.low low) (frame.high high)
      (some raised))
    (marked child : Tree h)
    (lowLe : low ≤ x)
    (below : x < high) :
    look (h + 1) ((frame.insert raised).fill marked) x =
      if frame.low low ≤ x ∧ x < frame.high high then raised.look marked x
      else look (h + 1) (frame.fill child) x := by
  have ordered :=
    (insert_ok ok region raisedOk).fill_ordered region marked
  have orderedOld := ok.fill_ordered region child
  rw [insert_fill] at ordered ⊢
  unfold Frame.fill at orderedOld ⊢
  obtain ⟨flag, fitsLow, ends, fitsHigh⟩ := raisedOk.1
  simp only [look]
  by_cases right : lowOf low frame.left ≤ x
  · rw [lookIn_zipUp_right ordered right,
      lookIn_zipUp_right orderedOld right, lookIn]
    simp only [iContainsVal_iff, gt_iff_lt]
    by_cases inGap : x < highOf high frame.right
    · have inside : frame.low low ≤ x ∧ x < frame.high high :=
        ⟨right, inGap⟩
      rw [if_pos inside]
      unfold Raised.look
      by_cases early : x < raised.entry.irange.left
      · have notInside : ¬(raised.entry.irange.left ≤ x ∧
            x ≤ raised.entry.irange.right) := by omega
        simp only [early, notInside, if_true, if_false]
        rfl
      · by_cases within : x ≤ raised.entry.irange.right
        · simp only [early, within, Nat.le_of_not_lt early, and_self,
            if_true, if_false]
        · have notInside : ¬(raised.entry.irange.left ≤ x ∧
              x ≤ raised.entry.irange.right) := by omega
          rw [if_neg notInside, if_neg early, if_neg early, if_neg within]
          exact lookIn_of_lt_highOf ok.right inGap
    · have outside : ¬(frame.low low ≤ x ∧ x < frame.high high) :=
        fun inside => inGap inside.2
      have past : raised.entry.irange.right < x := by
        simp only [Frame.high] at fitsHigh
        omega
      have notInside : ¬(raised.entry.irange.left ≤ x ∧
          x ≤ raised.entry.irange.right) := by omega
      have notEarly : ¬x < raised.entry.irange.left := by omega
      simp only [outside, notInside, notEarly, if_false]
      exact lookIn_kid_irrelevant (Nat.le_of_not_lt inGap) below _ _
  · have outside : ¬(frame.low low ≤ x ∧ x < frame.high high) :=
      fun inside => right inside.1
    rw [if_neg outside]
    exact lookIn_zipUp_left ordered orderedOld (Nat.lt_of_not_le right) lowLe

end Insert

end FigTree
end Gdpfs
