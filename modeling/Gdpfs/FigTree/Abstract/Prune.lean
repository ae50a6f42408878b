import Gdpfs.FigTree.Abstract.Order

/-!
# Pruning an abstract node

Pruning keeps exactly the part of a node that lies in the valid interval: what
is left is ordered inside that interval, and every lookup inside it gives the
same answer as before.
-/

namespace Gdpfs
namespace FigTree

section Phases

variable {valid : Interval} {kid : Kid C} {rest : List (FtEnt × Kid C)}
  {lookKid : C → Option Int}

/-- The entries that the first phase leaves are ordered as before, and the
first of them reaches into the valid interval or beyond. -/
theorem pruneBefore_ordered
    (ordered : Ordered low high rest) :
    Ordered low high (pruneBefore valid kid rest).2 ∧
      ∀ entry next tail,
        (pruneBefore valid kid rest).2 = (entry, next) :: tail →
          valid.left ≤ entry.irange.right := by
  induction rest generalizing kid low with
  | nil => simp [pruneBefore, Ordered]
  | cons head rest inductionHypothesis =>
      obtain ⟨entry, next⟩ := head
      obtain ⟨flag, lowBound, ends, highBound, tail⟩ := ordered
      unfold pruneBefore
      by_cases before : iLeftOfInt entry.irange valid = true
      · rw [if_pos before]
        obtain ⟨tailOrdered, reaches⟩ := inductionHypothesis tail
        exact ⟨tailOrdered.mono (by omega) le_rfl, reaches⟩
      · rw [if_neg before]
        refine ⟨⟨flag, lowBound, ends, highBound, tail⟩, ?_⟩
        rintro _ _ _ equal
        cases equal
        by_contra short
        exact before (iLeftOfInt_iff.mpr ⟨flag, Nat.lt_of_not_le short⟩)

theorem length_pruneBefore_le :
    (pruneBefore valid kid rest).2.length ≤ rest.length := by
  induction rest generalizing kid with
  | nil => simp [pruneBefore]
  | cons head rest inductionHypothesis =>
      unfold pruneBefore
      split
      · exact (inductionHypothesis).trans (Nat.le_succ _)
      · exact le_rfl

theorem lookIn_pruneBefore
    (ordered : Ordered low high rest)
    (inside : valid.left ≤ x) :
    lookIn lookKid x (pruneBefore valid kid rest).1
        (pruneBefore valid kid rest).2 =
      lookIn lookKid x kid rest := by
  induction rest generalizing kid low with
  | nil => rfl
  | cons head rest inductionHypothesis =>
      obtain ⟨entry, next⟩ := head
      obtain ⟨flag, lowBound, ends, highBound, tail⟩ := ordered
      unfold pruneBefore
      by_cases before : iLeftOfInt entry.irange valid = true
      · rw [if_pos before, inductionHypothesis tail]
        have past : entry.irange.right < valid.left :=
          (iLeftOfInt_iff.mp before).2
        have notInside :
            ¬(entry.irange.left ≤ x ∧ x ≤ entry.irange.right) := by omega
        have notLeft : ¬x < entry.irange.left := by omega
        simp only [lookIn, iContainsVal_iff, notInside, gt_iff_lt, notLeft,
          if_false]
      · rw [if_neg before]

/-- Nothing is left of entries that all start beyond the valid interval. -/
theorem pruneAfter_eq_nil
    (ordered : Ordered low high rest)
    (beyond : valid.right < low) :
    pruneAfter valid rest = [] := by
  induction rest generalizing low with
  | nil => rfl
  | cons head rest inductionHypothesis =>
      obtain ⟨entry, next⟩ := head
      obtain ⟨flag, lowBound, ends, highBound, tail⟩ := ordered
      have after : iRightOfInt entry.irange valid = true :=
        iRightOfInt_iff.mpr ⟨flag, by omega⟩
      rw [pruneAfter, if_pos after]
      exact inductionHypothesis tail (by omega)

/-- The three ways in which the third phase treats the next entry. -/
theorem pruneRight_cons
    {entry : FtEnt}
    {next : Kid C}
    (ordered : Ordered low high ((entry, next) :: rest))
    (clear : Kid C → Kid C)
    (validFlag : valid.nonempty = true)
    (inside : valid.left ≤ low) :
    (entry.irange.right ≤ valid.right ∧
        pruneRight clear valid ((entry, next) :: rest) =
          (entry, next) :: pruneRight clear valid rest) ∨
      (entry.irange.left ≤ valid.right ∧
        valid.right < entry.irange.right ∧
        pruneRight clear valid ((entry, next) :: rest) =
          [(entry.trim valid, clear next)]) ∨
      (valid.right < entry.irange.left ∧
        pruneRight clear valid ((entry, next) :: rest) = []) := by
  obtain ⟨flag, lowBound, ends, highBound, tail⟩ := ordered
  by_cases contained : entry.irange.right ≤ valid.right
  · left
    have keeps : iContainsInt valid entry.irange = true :=
      iContainsInt_iff.mpr ⟨by omega, contained⟩
    exact ⟨contained, by rw [pruneRight, if_pos keeps]⟩
  · right
    have sticksOut : ¬iContainsInt valid entry.irange = true := by
      rw [iContainsInt_iff]
      omega
    by_cases starts : entry.irange.left ≤ valid.right
    · left
      have overlaps : iRightOverlaps valid entry.irange = true :=
        iRightOverlaps_iff.mpr ⟨validFlag, starts, by omega⟩
      refine ⟨starts, by omega, ?_⟩
      rw [pruneRight, if_neg sticksOut, if_pos overlaps,
        pruneAfter_eq_nil tail (by omega)]
    · right
      have misses : ¬iRightOverlaps valid entry.irange = true := by
        rw [iRightOverlaps_iff]
        omega
      refine ⟨by omega, ?_⟩
      rw [pruneRight, if_neg sticksOut, if_neg misses]
      exact pruneAfter_eq_nil
        ⟨flag, le_rfl, ends, highBound, tail⟩ (by omega)

theorem pruneRight_ordered
    (ordered : Ordered low high rest)
    (clear : Kid C → Kid C)
    (validFlag : valid.nonempty = true)
    (inside : valid.left ≤ low) :
    Ordered low (min high (valid.right + 1))
      (pruneRight clear valid rest) := by
  induction rest generalizing low with
  | nil => trivial
  | cons head rest inductionHypothesis =>
      obtain ⟨entry, next⟩ := head
      have cases := pruneRight_cons ordered clear validFlag inside
      obtain ⟨flag, lowBound, ends, highBound, tail⟩ := ordered
      rcases cases with ⟨contained, result⟩ | ⟨starts, sticksOut, result⟩ |
        ⟨beyond, result⟩
      · rw [result]
        exact ⟨flag, lowBound, ends, by omega,
          inductionHypothesis tail (by omega)⟩
      · rw [result]
        simp only [Ordered, FtEnt.trim]
        refine ⟨flag, ?_, ?_, ?_, trivial⟩ <;> omega
      · rw [result]
        trivial

theorem length_pruneRight_le
    (ordered : Ordered low high rest)
    (clear : Kid C → Kid C)
    (validFlag : valid.nonempty = true)
    (inside : valid.left ≤ low) :
    (pruneRight clear valid rest).length ≤ rest.length := by
  induction rest generalizing low with
  | nil => simp [pruneRight]
  | cons head rest inductionHypothesis =>
      obtain ⟨entry, next⟩ := head
      have cases := pruneRight_cons ordered clear validFlag inside
      obtain ⟨flag, lowBound, ends, highBound, tail⟩ := ordered
      rcases cases with ⟨contained, result⟩ | ⟨starts, sticksOut, result⟩ |
        ⟨beyond, result⟩
      · rw [result]
        have tailLength := inductionHypothesis tail (by omega)
        simpa using tailLength
      · simp [result]
      · simp [result]

theorem lookIn_pruneRight
    (ordered : Ordered low high rest)
    (clear : Kid C → Kid C)
    (validFlag : valid.nonempty = true)
    (inside : valid.left ≤ low)
    (within : x ≤ valid.right) :
    lookIn lookKid x kid (pruneRight clear valid rest) =
      lookIn lookKid x kid rest := by
  induction rest generalizing low kid with
  | nil => rfl
  | cons head rest inductionHypothesis =>
      obtain ⟨entry, next⟩ := head
      have cases := pruneRight_cons ordered clear validFlag inside
      obtain ⟨flag, lowBound, ends, highBound, tail⟩ := ordered
      rcases cases with ⟨contained, result⟩ | ⟨starts, sticksOut, result⟩ |
        ⟨beyond, result⟩
      · rw [result, lookIn, lookIn, inductionHypothesis tail (by omega)]
      · rw [result]
        simp only [lookIn, FtEnt.trim, iContainsVal_iff, gt_iff_lt]
        by_cases early : x < entry.irange.left
        · have notInside :
              ¬(entry.irange.left ≤ x ∧ x ≤ entry.irange.right) := by omega
          have notTrimmed :
              ¬(max entry.irange.left valid.left ≤ x ∧
                x ≤ min entry.irange.right valid.right) := by omega
          have earlyTrimmed : x < max entry.irange.left valid.left := by omega
          simp only [notInside, notTrimmed, early, earlyTrimmed, if_true,
            if_false]
        · have isInside :
              entry.irange.left ≤ x ∧ x ≤ entry.irange.right := by omega
          have isTrimmed :
              max entry.irange.left valid.left ≤ x ∧
                x ≤ min entry.irange.right valid.right := by omega
          simp only [isInside, isTrimmed, and_self, if_true]
      · rw [result]
        have early : x < entry.irange.left := by omega
        have notInside :
            ¬(entry.irange.left ≤ x ∧ x ≤ entry.irange.right) := by omega
        simp only [lookIn, iContainsVal_iff, notInside, gt_iff_lt, early,
          if_true, if_false]

/-- The second phase either trims the first entry, which holds the left edge of
the valid interval, or finds all entries right of that edge. -/
theorem pruneLeft_cons
    {entry : FtEnt}
    {next : Kid C}
    (clear : Kid C → Kid C)
    (validFlag : valid.nonempty = true)
    (reaches : valid.left ≤ entry.irange.right) :
    (entry.irange.left ≤ valid.left ∧
        pruneLeft clear valid kid ((entry, next) :: rest) =
          (clear kid,
            (entry.trim valid, next) :: pruneRight clear valid rest)) ∨
      (valid.left < entry.irange.left ∧
        pruneLeft clear valid kid ((entry, next) :: rest) =
          (kid, pruneRight clear valid ((entry, next) :: rest))) := by
  by_cases starts : entry.irange.left ≤ valid.left
  · left
    have overlaps : iLeftOverlaps valid entry.irange = true :=
      iLeftOverlaps_iff.mpr ⟨validFlag, starts, reaches⟩
    exact ⟨starts, by rw [pruneLeft, if_pos overlaps]⟩
  · right
    have misses : ¬iLeftOverlaps valid entry.irange = true := by
      rw [iLeftOverlaps_iff]
      omega
    exact ⟨by omega, by rw [pruneLeft, if_neg misses]⟩

/-! ### Children -/

/-- Every child that is left after the last phases is good for the part of its
gap inside the valid interval. -/
theorem kidsIn_pruneRight
    {good : Nat → Nat → Kid C → Prop}
    {clear : Kid C → Kid C}
    (clears : ∀ low high kid edge,
      good low high kid → good edge edge (clear kid))
    (validFlag : valid.nonempty = true)
    (isTop : top = min high (valid.right + 1))
    (ordered : Ordered low high rest)
    (inside : valid.left ≤ low)
    (kids : KidsIn (fun low high => good (max valid.left low) (min top high))
      low high kid rest) :
    KidsIn good low top kid (pruneRight clear valid rest) := by
  induction rest generalizing low kid with
  | nil =>
      have kidGood := kids.1
      simp only [highOf_nil, max_eq_right inside,
        min_eq_left (show top ≤ high by omega)] at kidGood
      exact ⟨kidGood, trivial⟩
  | cons head rest inductionHypothesis =>
      obtain ⟨entry, next⟩ := head
      have cases := pruneRight_cons ordered clear validFlag inside
      obtain ⟨kidGood, nextGood, restGood⟩ := kids
      obtain ⟨flag, lowBound, ends, highBound, tail⟩ := ordered
      simp only [highOf_cons, max_eq_right inside] at kidGood
      rcases cases with ⟨contained, result⟩ | ⟨starts, sticksOut, result⟩ |
        ⟨beyond, result⟩
      · rw [min_eq_right (by omega)] at kidGood
        rw [result]
        exact ⟨kidGood, inductionHypothesis tail (by omega)
          ⟨nextGood, restGood⟩⟩
      · rw [min_eq_right (by omega)] at kidGood
        rw [result]
        simp only [KidsIn, KidsRight, highOf_cons, highOf_nil, FtEnt.trim,
          and_true, max_eq_left (show valid.left ≤ entry.irange.left by omega),
          min_eq_right (show valid.right ≤ entry.irange.right by omega),
          show top = valid.right + 1 by omega]
        exact ⟨kidGood, clears _ _ _ _ nextGood⟩
      · rw [min_eq_left (by omega)] at kidGood
        rw [result]
        exact ⟨kidGood, trivial⟩

theorem kidsIn_pruneBefore
    {good : Nat → Nat → Kid C → Prop}
    (ordered : Ordered low high rest)
    (starts : low ≤ valid.left)
    (kids : KidsIn good low high kid rest) :
    ∃ low', low' ≤ valid.left ∧
      Ordered low' high (pruneBefore valid kid rest).2 ∧
      KidsIn good low' high (pruneBefore valid kid rest).1
        (pruneBefore valid kid rest).2 := by
  induction rest generalizing low kid with
  | nil => exact ⟨low, starts, trivial, kids⟩
  | cons head rest inductionHypothesis =>
      obtain ⟨entry, next⟩ := head
      unfold pruneBefore
      by_cases before : iLeftOfInt entry.irange valid = true
      · rw [if_pos before]
        have past := (iLeftOfInt_iff.mp before).2
        exact inductionHypothesis ordered.2.2.2.2 past kids.2
      · rw [if_neg before]
        exact ⟨low, starts, ordered, kids⟩

/-- Every child that pruning leaves is good for the part of its gap inside the
valid interval. -/
theorem kidsIn_prunePhases
    {good : Nat → Nat → Kid C → Prop}
    {clear : Kid C → Kid C}
    (shrinks : ∀ low high low' high' kid,
      (∀ x, low' ≤ x → x < high' → low ≤ x ∧ x < high) →
        good low high kid → good low' high' kid)
    (clears : ∀ low high kid edge,
      good low high kid → good edge edge (clear kid))
    (validFlag : valid.nonempty = true)
    (isTop : top = min high (valid.right + 1))
    (ordered : Ordered low high rest)
    (starts : low ≤ valid.left)
    (kids : KidsIn (fun low high => good (max valid.left low) (min top high))
      low high kid rest) :
    KidsIn good valid.left top
      (pruneLeft clear valid (pruneBefore valid kid rest).1
        (pruneBefore valid kid rest).2).1
      (pruneLeft clear valid (pruneBefore valid kid rest).1
        (pruneBefore valid kid rest).2).2 := by
  obtain ⟨low', starts', ordered', kids'⟩ :=
    kidsIn_pruneBefore ordered starts kids
  obtain ⟨_, reaches⟩ :=
    pruneBefore_ordered ordered
  generalize pruneBefore valid kid rest = inside at *
  obtain ⟨kid, rest⟩ := inside
  cases rest with
  | nil =>
      have kidGood := kids'.1
      simp only [highOf_nil, max_eq_left starts',
        min_eq_left (show top ≤ high by omega)] at kidGood
      exact ⟨kidGood, trivial⟩
  | cons head rest =>
      obtain ⟨entry, next⟩ := head
      have reach := reaches entry next rest rfl
      obtain ⟨kidGood, nextGood, restGood⟩ := kids'
      obtain ⟨flag, lowBound, ends, highBound, tail⟩ := ordered'
      rcases pruneLeft_cons
          clear validFlag reach with ⟨begins, result⟩ | ⟨beyond, result⟩
      · rw [result]
        obtain ⟨nextKept, restKept⟩ :=
          kidsIn_pruneRight clears validFlag isTop tail (by omega)
            ⟨nextGood, restGood⟩
        refine ⟨?_, ?_, restKept⟩
        · simp only [highOf_cons, FtEnt.trim, max_eq_right begins]
          exact clears _ _ _ _ kidGood
        · refine shrinks _ _ _ _ _ ?_ nextKept
          simp only [FtEnt.trim]
          intro x lower upper
          have topLe :=
            (isTop ▸ pruneRight_ordered tail clear validFlag
              (by omega)).highOf_le_high
          omega
      · rw [result]
        have whole : Ordered valid.left high ((entry, next) :: rest) :=
          ⟨flag, by omega, ends, highBound, tail⟩
        refine kidsIn_pruneRight clears validFlag isTop whole le_rfl
          ⟨?_, nextGood, restGood⟩
        simpa only [max_eq_left starts', max_self] using kidGood

end Phases

/-! ## The whole node -/

section Whole

variable {h : Nat} {node : Node (Tree h)} {valid : Interval}

/-- The entries left by pruning are ordered inside the valid interval, and
there are not more of them than before. -/
theorem prune_ordered
    (ordered : Ordered low high node.rest)
    (regular : valid.Regular) :
    Ordered valid.left (min high (valid.right + 1))
        (node.prune valid).rest ∧
      (node.prune valid).rest.length ≤ node.rest.length := by
  unfold Node.prune
  by_cases validFlag : valid.nonempty = true
  · rw [if_pos validFlag]
    have validEnds := regular.ordered validFlag
    obtain ⟨insideOrdered, reaches⟩ :=
      pruneBefore_ordered ordered
    have insideLength :=
      (@length_pruneBefore_le _ valid node.first node.rest)
    dsimp only
    generalize pruneBefore valid node.first node.rest = inside at *
    obtain ⟨kid, rest⟩ := inside
    cases rest with
    | nil => simp [pruneLeft, Ordered]
    | cons head rest =>
        obtain ⟨entry, next⟩ := head
        have reach := reaches entry next rest rfl
        have lengths : rest.length + 1 ≤ node.rest.length := insideLength
        obtain ⟨flag, lowBound, ends, highBound, tail⟩ := insideOrdered
        rcases pruneLeft_cons
            clearKid validFlag reach
          with ⟨starts, result⟩ | ⟨beyond, result⟩
        · rw [result]
          have restOrdered := pruneRight_ordered tail clearKid validFlag
            (by omega : valid.left ≤ entry.irange.right + 1)
          have restLength := length_pruneRight_le tail clearKid validFlag
            (by omega : valid.left ≤ entry.irange.right + 1)
          refine ⟨?_, ?_⟩
          · simp only [Ordered, FtEnt.trim]
            refine ⟨flag, by omega, by omega, by omega, ?_⟩
            exact restOrdered.mono (by omega) le_rfl
          · simp only [List.length_cons]
            omega
        · rw [result]
          have whole : Ordered entry.irange.left high ((entry, next) :: rest) :=
            ⟨flag, le_rfl, ends, highBound, tail⟩
          have restOrdered := pruneRight_ordered whole clearKid validFlag
            (by omega)
          have restLength := length_pruneRight_le whole clearKid validFlag
            (by omega)
          exact ⟨restOrdered.mono (by omega) le_rfl,
            restLength.trans lengths⟩
  · rw [if_neg validFlag]
    simp [Node.clear, Ordered]

/-- Pruning changes no lookup inside the valid interval. -/
theorem look_prune
    (ordered : Ordered low high node.rest)
    (validFlag : valid.nonempty = true)
    (lower : valid.left ≤ x)
    (upper : x ≤ valid.right) :
    look (h + 1) (node.prune valid) x = look (h + 1) node x := by
  unfold Node.prune
  rw [if_pos validFlag]
  obtain ⟨insideOrdered, reaches⟩ :=
    pruneBefore_ordered ordered
  have insideLook :=
    (@lookIn_pruneBefore _ _ node.first _ (fun child => look h child x))
      ordered lower
  simp only [look]
  rw [← insideLook]
  clear insideLook
  generalize pruneBefore valid node.first node.rest = inside at *
  obtain ⟨kid, rest⟩ := inside
  cases rest with
  | nil => rfl
  | cons head rest =>
      obtain ⟨entry, next⟩ := head
      have reach := reaches entry next rest rfl
      obtain ⟨flag, lowBound, ends, highBound, tail⟩ := insideOrdered
      rcases pruneLeft_cons
          clearKid validFlag reach
        with ⟨starts, result⟩ | ⟨beyond, result⟩
      · rw [result]
        have tailLook := (@lookIn_pruneRight _ _ next _ (fun child => look h child x))
          tail clearKid validFlag
          (by omega : valid.left ≤ entry.irange.right + 1) upper
        simp only [lookIn, FtEnt.trim, iContainsVal_iff, gt_iff_lt]
        rw [tailLook]
        have notEarly : ¬x < entry.irange.left := by omega
        have notEarlyTrimmed :
            ¬x < max entry.irange.left valid.left := by omega
        by_cases within : x ≤ entry.irange.right
        · have isInside :
              entry.irange.left ≤ x ∧ x ≤ entry.irange.right := by omega
          have isTrimmed :
              max entry.irange.left valid.left ≤ x ∧
                x ≤ min entry.irange.right valid.right := by omega
          simp only [isInside, isTrimmed, and_self, if_true]
        · have notInside :
              ¬(entry.irange.left ≤ x ∧ x ≤ entry.irange.right) := by omega
          have notTrimmed :
              ¬(max entry.irange.left valid.left ≤ x ∧
                x ≤ min entry.irange.right valid.right) := by omega
          simp only [notInside, notTrimmed, notEarly, notEarlyTrimmed,
            if_false]
      · rw [result]
        have whole : Ordered entry.irange.left high ((entry, next) :: rest) :=
          ⟨flag, le_rfl, ends, highBound, tail⟩
        exact lookIn_pruneRight whole clearKid validFlag (by omega) upper

/-- An entry that starts with the valid interval has a cleared child on its
left. -/
theorem exists_clearKid_of_prune
    (ordered : Ordered low high node.rest)
    (shape : (node.prune valid).rest = (entry, next) :: rest)
    (edge : entry.irange.left ≤ valid.left) :
    ∃ kid, (node.prune valid).first = clearKid kid := by
  unfold Node.prune at shape ⊢
  by_cases validFlag : valid.nonempty = true
  · rw [if_pos validFlag] at shape ⊢
    obtain ⟨insideOrdered, reaches⟩ :=
      pruneBefore_ordered ordered
    dsimp only at shape ⊢
    generalize pruneBefore valid node.first node.rest = inside at *
    obtain ⟨kid, inside⟩ := inside
    cases inside with
    | nil => cases shape
    | cons head tail =>
        obtain ⟨before, other⟩ := head
        have reach := reaches before other tail rfl
        rcases pruneLeft_cons
            clearKid validFlag reach
          with ⟨starts, result⟩ | ⟨beyond, result⟩
        · rw [result]
          exact ⟨kid, rfl⟩
        · obtain ⟨flag, lowBound, ends, highBound, tailOrdered⟩ :=
            insideOrdered
          have whole :
              Ordered before.irange.left high ((before, other) :: tail) :=
            ⟨flag, le_rfl, ends, highBound, tailOrdered⟩
          have later := pruneRight_ordered whole clearKid validFlag
            (Nat.le_of_lt beyond)
          rw [result] at shape
          dsimp only at shape
          rw [shape] at later
          have entryLow := later.2.1
          omega
  · rw [if_neg validFlag] at shape
    cases shape

end Whole

end FigTree
end Gdpfs
