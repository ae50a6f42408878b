import Gdpfs.FigTree.Abstract.Defs

/-!
# Order of the entries of a node

Regions are half-open here, `[low, high)`, so that the gap between two adjacent
entries is an ordinary empty region.  A list of entries is ordered in a region
when the entries are nonempty, increasing, disjoint and inside it.  The entries
left of a gap are listed from the gap outwards, hence the mirrored definition.
-/

namespace Gdpfs
namespace FigTree

/-- Entries that start in order inside the region. -/
def Ordered (low high : Nat) : List (FtEnt × Kid C) → Prop
  | [] => True
  | (entry, _) :: rest =>
      entry.irange.nonempty = true ∧ low ≤ entry.irange.left ∧
        entry.irange.left ≤ entry.irange.right ∧ entry.irange.right < high ∧
          Ordered (entry.irange.right + 1) high rest

/-- Entries listed from the right end of the region towards its left end. -/
def OrderedLeft (low high : Nat) : List (FtEnt × Kid C) → Prop
  | [] => True
  | (entry, _) :: left =>
      entry.irange.nonempty = true ∧ low ≤ entry.irange.left ∧
        entry.irange.left ≤ entry.irange.right ∧ entry.irange.right < high ∧
          OrderedLeft low entry.irange.left left

/-- First byte of the gap right of the entries on the left. -/
def lowOf (low : Nat) : List (FtEnt × Kid C) → Nat
  | [] => low
  | (entry, _) :: _ => entry.irange.right + 1

/-- The byte after the gap left of the entries on the right. -/
def highOf (high : Nat) : List (FtEnt × Kid C) → Nat
  | [] => high
  | (entry, _) :: _ => entry.irange.left

@[simp] theorem lowOf_nil : lowOf (C := C) low [] = low := rfl

@[simp] theorem lowOf_cons :
    lowOf (C := C) low ((entry, kid) :: left) = entry.irange.right + 1 := rfl

@[simp] theorem highOf_nil : highOf (C := C) high [] = high := rfl

@[simp] theorem highOf_cons :
    highOf (C := C) high ((entry, kid) :: right) = entry.irange.left := rfl

/-- The end of the region only matters beyond the entries. -/
theorem lt_highOf_congr
    (right : List (FtEnt × Kid C))
    (below : x < high)
    (below' : x < high') :
    x < highOf high right ↔ x < highOf high' right := by
  cases right with
  | nil => exact iff_of_true below below'
  | cons head right => exact Iff.rfl

theorem Ordered.mono
    {rest : List (FtEnt × Kid C)}
    (ordered : Ordered low high rest)
    (lowLe : low' ≤ low)
    (highLe : high ≤ high') :
    Ordered low' high' rest := by
  induction rest generalizing low low' with
  | nil => trivial
  | cons head rest inductionHypothesis =>
      obtain ⟨entry, kid⟩ := head
      obtain ⟨flag, lowBound, ends, highBound, tail⟩ := ordered
      exact ⟨flag, lowLe.trans lowBound, ends,
        lt_of_lt_of_le highBound highLe,
        inductionHypothesis tail le_rfl⟩

/-- Two upper bounds of the same entries hold together. -/
theorem Ordered.min
    {rest : List (FtEnt × Kid C)}
    (ordered : Ordered low high rest)
    (ordered' : Ordered low' high' rest) :
    Ordered low (min high high') rest := by
  induction rest generalizing low low' with
  | nil => trivial
  | cons head rest inductionHypothesis =>
      obtain ⟨flag, lowBound, ends, highBound, tail⟩ := ordered
      obtain ⟨_, _, _, highBound', tail'⟩ := ordered'
      exact ⟨flag, lowBound, ends, by omega, inductionHypothesis tail tail'⟩

theorem ordered_append
    {first second : List (FtEnt × Kid C)}
    {entry : FtEnt}
    {kid : Kid C} :
    Ordered low high (first ++ (entry, kid) :: second) ↔
      Ordered low entry.irange.left first ∧
        Ordered low high [(entry, kid)] ∧
          Ordered (entry.irange.right + 1) high second := by
  induction first generalizing low with
  | nil =>
      simp only [List.nil_append, Ordered, true_and, and_true, and_assoc]
  | cons head first inductionHypothesis =>
      obtain ⟨before, other⟩ := head
      simp only [List.cons_append, Ordered, inductionHypothesis, and_true]
      constructor
      · rintro ⟨flag, lowBound, ends, highBound, firstOk,
          ⟨entryFlag, entryLow, entryEnds, entryHigh⟩, secondOk⟩
        exact ⟨⟨flag, lowBound, ends, by omega, firstOk⟩,
          ⟨entryFlag, by omega, entryEnds, entryHigh⟩, secondOk⟩
      · rintro ⟨⟨flag, lowBound, ends, highBound, firstOk⟩,
          ⟨entryFlag, entryLow, entryEnds, entryHigh⟩, secondOk⟩
        exact ⟨flag, lowBound, ends, by omega, firstOk,
          ⟨entryFlag, by omega, entryEnds, entryHigh⟩, secondOk⟩

theorem orderedLeft_append
    {near far : List (FtEnt × Kid C)}
    {entry : FtEnt}
    {kid : Kid C} :
    OrderedLeft low high (near ++ (entry, kid) :: far) ↔
      OrderedLeft (entry.irange.right + 1) high near ∧
        OrderedLeft low high [(entry, kid)] ∧
          OrderedLeft low entry.irange.left far := by
  induction near generalizing high with
  | nil =>
      simp only [List.nil_append, OrderedLeft, true_and, and_true, and_assoc]
  | cons head near inductionHypothesis =>
      obtain ⟨after, other⟩ := head
      simp only [List.cons_append, OrderedLeft, inductionHypothesis, and_true]
      constructor
      · rintro ⟨flag, lowBound, ends, highBound, nearOk,
          ⟨entryFlag, entryLow, entryEnds, entryHigh⟩, farOk⟩
        exact ⟨⟨flag, by omega, ends, highBound, nearOk⟩,
          ⟨entryFlag, entryLow, entryEnds, by omega⟩, farOk⟩
      · rintro ⟨⟨flag, lowBound, ends, highBound, nearOk⟩,
          ⟨entryFlag, entryLow, entryEnds, entryHigh⟩, farOk⟩
        exact ⟨flag, by omega, ends, highBound, nearOk,
          ⟨entryFlag, entryLow, entryEnds, by omega⟩, farOk⟩

theorem lowOf_append_cons
    (low : Nat)
    (near far : List (FtEnt × Kid C))
    (entry : FtEnt)
    (kid : Kid C) :
    lowOf low (near ++ (entry, kid) :: far) =
      lowOf (entry.irange.right + 1) near := by
  cases near <;> rfl

theorem highOf_append_cons
    (high : Nat)
    (near far : List (FtEnt × Kid C))
    (entry : FtEnt)
    (kid : Kid C) :
    highOf high (near ++ (entry, kid) :: far) =
      highOf entry.irange.left near := by
  cases near <;> rfl

/-- Ordering of the entries left of a gap against a lower bound on its end. -/
theorem orderedLeft_iff_lowOf_le
    {left : List (FtEnt × Kid C)}
    (lowLe : low ≤ bound)
    (boundLe : bound ≤ high) :
    OrderedLeft low bound left ↔
      OrderedLeft low high left ∧ lowOf low left ≤ bound := by
  cases left with
  | nil => simpa [OrderedLeft] using lowLe
  | cons head left =>
      obtain ⟨entry, kid⟩ := head
      simp only [OrderedLeft, lowOf_cons]
      constructor
      · rintro ⟨flag, lowBound, ends, highBound, rest⟩
        exact ⟨⟨flag, lowBound, ends, by omega, rest⟩, highBound⟩
      · rintro ⟨⟨flag, lowBound, ends, highBound, rest⟩, below⟩
        exact ⟨flag, lowBound, ends, below, rest⟩

theorem OrderedLeft.low_le_lowOf
    {left : List (FtEnt × Kid C)}
    (ordered : OrderedLeft low high left) :
    low ≤ lowOf low left := by
  cases left with
  | nil => exact le_rfl
  | cons head left =>
      obtain ⟨_, lowBound, ends, _, _⟩ := ordered
      simp only [lowOf]
      omega

theorem OrderedLeft.lowOf_le
    {left : List (FtEnt × Kid C)}
    (ordered : OrderedLeft low high left)
    (region : low ≤ high) :
    low ≤ lowOf low left ∧ lowOf low left ≤ high := by
  refine ⟨ordered.low_le_lowOf, ?_⟩
  cases left with
  | nil => exact region
  | cons head left => exact ordered.2.2.2.1

theorem Ordered.highOf_le_high
    {right : List (FtEnt × Kid C)}
    (ordered : Ordered low high right) :
    highOf high right ≤ high := by
  cases right with
  | nil => exact le_rfl
  | cons head right =>
      obtain ⟨_, lowBound, ends, highBound, _⟩ := ordered
      simp only [highOf]
      omega

theorem Ordered.highOf_le
    {right : List (FtEnt × Kid C)}
    (ordered : Ordered low high right)
    (region : low ≤ high) :
    low ≤ highOf high right ∧ highOf high right ≤ high := by
  refine ⟨?_, ordered.highOf_le_high⟩
  cases right with
  | nil => exact region
  | cons head right => exact ordered.2.1

theorem Ordered.region
    {rest : List (FtEnt × Kid C)}
    (ordered : Ordered low high rest)
    (nonempty : rest ≠ []) :
    low ≤ high := by
  cases rest with
  | nil => exact absurd rfl nonempty
  | cons head rest =>
      obtain ⟨_, lowBound, ends, highBound, _⟩ := ordered
      omega

/-- Entries beyond a gap are ordered from any byte of the gap on. -/
theorem Ordered.from_gap
    {right : List (FtEnt × Kid C)}
    (ordered : Ordered low high right)
    (below : bound ≤ highOf high right) :
    Ordered bound high right := by
  cases right with
  | nil => trivial
  | cons head right => exact ⟨ordered.1, below, ordered.2.2⟩

/-! ## Moving a gap -/

theorem zipUp_concat
    (near far : List (FtEnt × Kid C))
    (kid : Kid C)
    (right : List (FtEnt × Kid C)) :
    zipUp (near ++ far) kid right =
      zipUp far (zipUp near kid right).1 (zipUp near kid right).2 := by
  induction near generalizing kid right with
  | nil => rfl
  | cons head near inductionHypothesis =>
      obtain ⟨entry, before⟩ := head
      exact inductionHypothesis before ((entry, kid) :: right)

theorem zipUp_append
    (left : List (FtEnt × Kid C))
    (kid : Kid C)
    (right beyond : List (FtEnt × Kid C)) :
    zipUp left kid (right ++ beyond) =
      ((zipUp left kid right).1, (zipUp left kid right).2 ++ beyond) := by
  induction left generalizing kid right with
  | nil => rfl
  | cons head left inductionHypothesis =>
      obtain ⟨entry, before⟩ := head
      exact inductionHypothesis before ((entry, kid) :: right)

theorem length_zipUp
    (left : List (FtEnt × Kid C))
    (kid : Kid C)
    (right : List (FtEnt × Kid C)) :
    (zipUp left kid right).2.length = left.length + right.length := by
  induction left generalizing kid right with
  | nil => simp [zipUp]
  | cons head left inductionHypothesis =>
      obtain ⟨entry, before⟩ := head
      rw [zipUp, inductionHypothesis]
      simp only [List.length_cons]
      omega

/-- The entries of a node with a gap are ordered exactly when those on either
side of the gap are. -/
theorem ordered_zipUp_iff
    {left right : List (FtEnt × Kid C)}
    {kid : Kid C}
    (region : low ≤ high) :
    Ordered low high (zipUp left kid right).2 ↔
      OrderedLeft low high left ∧ Ordered (lowOf low left) high right := by
  induction left generalizing kid right with
  | nil => simp [zipUp, OrderedLeft]
  | cons head left inductionHypothesis =>
      obtain ⟨entry, before⟩ := head
      rw [zipUp, inductionHypothesis]
      simp only [Ordered, OrderedLeft, lowOf_cons]
      constructor
      · rintro ⟨leftOk, flag, lowBound, ends, highBound, rightOk⟩
        have lowLe := (leftOk.lowOf_le region).1
        exact ⟨⟨flag, by omega, ends, highBound,
          (orderedLeft_iff_lowOf_le (by omega) (by omega)).mpr
            ⟨leftOk, lowBound⟩⟩, rightOk⟩
      · rintro ⟨⟨flag, lowBound, ends, highBound, leftOk⟩, rightOk⟩
        obtain ⟨leftOk, below⟩ :=
          ((@orderedLeft_iff_lowOf_le _ _ _ high) lowBound
            (by omega)).mp leftOk
        exact ⟨leftOk, flag, below, ends, highBound, rightOk⟩

/-! ## Children and their gaps -/

/-- Each child beyond an entry on the right is good for its gap. -/
def KidsRight (good : Nat → Nat → Kid C → Prop) (high : Nat) :
    List (FtEnt × Kid C) → Prop
  | [] => True
  | (entry, kid) :: rest =>
      good (entry.irange.right + 1) (highOf high rest) kid ∧
        KidsRight good high rest

/-- Each child beyond an entry on the left is good for its gap. -/
def KidsLeft (good : Nat → Nat → Kid C → Prop) (low : Nat) :
    List (FtEnt × Kid C) → Prop
  | [] => True
  | (entry, kid) :: left =>
      good (lowOf low left) entry.irange.left kid ∧ KidsLeft good low left

/-- Each child of a node is good for its gap. -/
def KidsIn
    (good : Nat → Nat → Kid C → Prop)
    (low high : Nat)
    (first : Kid C)
    (rest : List (FtEnt × Kid C)) : Prop :=
  good low (highOf high rest) first ∧ KidsRight good high rest

section Kids

variable {good good' : Nat → Nat → Kid C → Prop}

theorem KidsRight.imp
    {rest : List (FtEnt × Kid C)}
    (kids : KidsRight good high rest)
    (weaken : ∀ low high kid, good low high kid → good' low high kid) :
    KidsRight good' high rest := by
  induction rest with
  | nil => trivial
  | cons head rest inductionHypothesis =>
      exact ⟨weaken _ _ _ kids.1, inductionHypothesis kids.2⟩

theorem KidsIn.imp
    {first : Kid C}
    {rest : List (FtEnt × Kid C)}
    (kids : KidsIn good low high first rest)
    (weaken : ∀ low high kid, good low high kid → good' low high kid) :
    KidsIn good' low high first rest :=
  ⟨weaken _ _ _ kids.1, kids.2.imp weaken⟩

theorem kidsRight_append
    {near far : List (FtEnt × Kid C)}
    {entry : FtEnt}
    {kid : Kid C} :
    KidsRight good high (near ++ (entry, kid) :: far) ↔
      KidsRight good entry.irange.left near ∧
        good (entry.irange.right + 1) (highOf high far) kid ∧
          KidsRight good high far := by
  induction near with
  | nil => simp only [List.nil_append, KidsRight, true_and]
  | cons head near inductionHypothesis =>
      obtain ⟨before, other⟩ := head
      simp only [List.cons_append, KidsRight, inductionHypothesis,
        highOf_append_cons, and_assoc]

theorem kidsLeft_append
    {near far : List (FtEnt × Kid C)}
    {entry : FtEnt}
    {kid : Kid C} :
    KidsLeft good low (near ++ (entry, kid) :: far) ↔
      KidsLeft good (entry.irange.right + 1) near ∧
        good (lowOf low far) entry.irange.left kid ∧
          KidsLeft good low far := by
  induction near with
  | nil => simp only [List.nil_append, KidsLeft, true_and]
  | cons head near inductionHypothesis =>
      obtain ⟨after, other⟩ := head
      simp only [List.cons_append, KidsLeft, inductionHypothesis,
        lowOf_append_cons, and_assoc]

/-- Every child of a node with a gap is beyond an entry or in the gap. -/
theorem kidsIn_zipUp_iff
    {left right : List (FtEnt × Kid C)}
    {kid : Kid C} :
    KidsIn good low high (zipUp left kid right).1 (zipUp left kid right).2 ↔
      KidsLeft good low left ∧
        good (lowOf low left) (highOf high right) kid ∧
          KidsRight good high right := by
  induction left generalizing kid right with
  | nil => simp only [zipUp, KidsIn, KidsLeft, lowOf_nil, true_and]
  | cons head left inductionHypothesis =>
      obtain ⟨entry, before⟩ := head
      rw [zipUp, inductionHypothesis]
      simp only [KidsLeft, KidsRight, highOf_cons, lowOf_cons, and_assoc]
      tauto

end Kids

/-! ## Lookup in a node -/

section Lookup

variable {lookKid : C → Option Int} {kid next : Kid C} {entry : FtEnt}

/-- Left of the first entry, the lookup goes to the first child. -/
theorem lookIn_of_lt_highOf
    {rest : List (FtEnt × Kid C)}
    (ordered : Ordered low high rest)
    (below : x < highOf high rest) :
    lookIn lookKid x kid rest = lookKid kid.get := by
  cases rest with
  | nil => rfl
  | cons head rest =>
      obtain ⟨entry, next⟩ := head
      have beforeEntry : x < entry.irange.left := below
      have notInside : ¬(entry.irange.left ≤ x ∧ x ≤ entry.irange.right) := by
        omega
      simp only [lookIn, iContainsVal_iff, notInside, if_false,
        gt_iff_lt, beforeEntry, if_true]

/-- From the first entry on, the first child does not matter. -/
theorem lookIn_kid_irrelevant
    {rest : List (FtEnt × Kid C)}
    (above : highOf high rest ≤ x)
    (inside : x < high)
    (kid kid' : Kid C) :
    lookIn lookKid x kid rest = lookIn lookKid x kid' rest := by
  cases rest with
  | nil => exact absurd inside (Nat.not_lt.mpr above)
  | cons head rest =>
      obtain ⟨entry, next⟩ := head
      have reached : ¬x < entry.irange.left := Nat.not_lt.mpr above
      simp only [lookIn, gt_iff_lt, reached, if_false]

theorem lookIn_inside
    {rest : List (FtEnt × Kid C)}
    (lower : entry.irange.left ≤ x)
    (upper : x ≤ entry.irange.right) :
    lookIn lookKid x kid ((entry, next) :: rest) = some entry.value := by
  rw [lookIn, if_pos (iContainsVal_iff.mpr ⟨lower, upper⟩)]

theorem lookIn_past
    {rest : List (FtEnt × Kid C)}
    (ends : entry.irange.left ≤ entry.irange.right)
    (past : entry.irange.right < x) :
    lookIn lookKid x kid ((entry, next) :: rest) =
      lookIn lookKid x next rest := by
  have notInside : ¬iContainsVal entry.irange x = true := by
    rw [iContainsVal_iff]
    omega
  rw [lookIn, if_neg notInside, if_neg (by omega)]

/-- A lookup in a node finds its way around any entry. -/
theorem lookIn_append
    {first second : List (FtEnt × Kid C)}
    (ordered : Ordered low high (first ++ (entry, next) :: second)) :
    lookIn lookKid x kid (first ++ (entry, next) :: second) =
      if x < entry.irange.left then lookIn lookKid x kid first
      else if x ≤ entry.irange.right then some entry.value
      else lookIn lookKid x next second := by
  induction first generalizing low kid with
  | nil =>
      simp only [List.nil_append, lookIn, iContainsVal_iff, gt_iff_lt]
      by_cases early : x < entry.irange.left
      · have notInside :
            ¬(entry.irange.left ≤ x ∧ x ≤ entry.irange.right) := by omega
        simp only [notInside, early, if_true, if_false]
      · simp only [early, Nat.le_of_not_lt early, true_and, if_false]
  | cons head first inductionHypothesis =>
      obtain ⟨before, other⟩ := head
      obtain ⟨_, lowBound, ends, highBound, rest⟩ := ordered
      have entryLow := (ordered_append.mp rest).2.1.2.1
      have entryEnds := (ordered_append.mp rest).2.1.2.2.1
      rw [List.cons_append, lookIn, lookIn, inductionHypothesis rest]
      simp only [iContainsVal_iff, gt_iff_lt]
      by_cases early : x < entry.irange.left
      · simp only [early, if_true]
      · have pastBefore :
            ¬(before.irange.left ≤ x ∧ x ≤ before.irange.right) := by omega
        have notLeft : ¬x < before.irange.left := by omega
        simp only [pastBefore, notLeft, early, if_false]

/-- Right of the entries on the left of a gap, those do not matter. -/
theorem lookIn_zipUp_right
    {left right : List (FtEnt × Kid C)}
    (ordered : Ordered low high (zipUp left kid right).2)
    (above : lowOf low left ≤ x) :
    lookIn lookKid x (zipUp left kid right).1 (zipUp left kid right).2 =
      lookIn lookKid x kid right := by
  cases left with
  | nil => rfl
  | cons head left =>
      obtain ⟨entry, before⟩ := head
      have past : entry.irange.right < x := above
      have shape := zipUp_append left before [] ((entry, kid) :: right)
      rw [List.nil_append] at shape
      rw [zipUp, shape] at ordered ⊢
      have ends := (ordered_append.mp ordered).2.1.2.2.1
      rw [lookIn_append ordered]
      simp only [show ¬x < entry.irange.left by omega,
        show ¬x ≤ entry.irange.right by omega, if_false]

/-- Left of a gap, neither the gap nor what is right of it matters. -/
theorem lookIn_zipUp_left
    {left right right' : List (FtEnt × Kid C)}
    {kid' : Kid C}
    (ordered : Ordered low high (zipUp left kid right).2)
    (ordered' : Ordered low high (zipUp left kid' right').2)
    (below : x < lowOf low left)
    (inside : low ≤ x) :
    lookIn lookKid x (zipUp left kid right).1 (zipUp left kid right).2 =
      lookIn lookKid x (zipUp left kid' right').1
        (zipUp left kid' right').2 := by
  cases left with
  | nil => exact absurd below (Nat.not_lt.mpr inside)
  | cons head left =>
      obtain ⟨entry, before⟩ := head
      have within : x ≤ entry.irange.right := Nat.lt_succ_iff.mp below
      have shape := zipUp_append left before [] ((entry, kid) :: right)
      have shape' := zipUp_append left before [] ((entry, kid') :: right')
      rw [List.nil_append] at shape shape'
      rw [zipUp, shape] at ordered
      rw [zipUp, shape'] at ordered'
      rw [zipUp, zipUp, shape, shape', lookIn_append ordered,
        lookIn_append ordered']
      simp only [within, if_true]

/-- A lookup does not tell apart gaps in which it continues alike. -/
theorem lookIn_zipUp_congr
    {kid' : Kid C}
    {right right' : List (FtEnt × Kid C)}
    (agrees : lookIn lookKid x kid right = lookIn lookKid x kid' right')
    (left : List (FtEnt × Kid C)) :
    lookIn lookKid x (zipUp left kid right).1 (zipUp left kid right).2 =
      lookIn lookKid x (zipUp left kid' right').1
        (zipUp left kid' right').2 := by
  induction left generalizing kid kid' right right' with
  | nil => exact agrees
  | cons head left inductionHypothesis =>
      obtain ⟨entry, before⟩ := head
      refine inductionHypothesis ?_
      rw [lookIn, lookIn, agrees]

/-- A lookup only sees the tree of the first child. -/
theorem lookIn_congr_get
    {kid' : Kid C}
    (same : kid.get = kid'.get)
    (right : List (FtEnt × Kid C)) :
    lookIn lookKid x kid right = lookIn lookKid x kid' right := by
  cases right with
  | nil => exact congrArg lookKid same
  | cons head right => rw [lookIn, lookIn, same]

end Lookup

end FigTree
end Gdpfs
