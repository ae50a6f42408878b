import Mathlib.Order.Defs.LinearOrder

/-!
# Byte intervals (`figtree/interval.c`)

Byte indices are 32-bit unsigned; they are natural numbers here and every
successor and predecessor the source computes is taken modulo `2 ^ 32`.  An
interval is closed.  Its `nonempty` flag is part of the data: the empty
interval is stored as `[BYTE_INDEX_MAX, BYTE_INDEX_MIN]` with the flag off.
-/

namespace Gdpfs
namespace FigTree

/-- What stops a run of the FIG tree code: one constructor for each assertion
that the source checks, and the array overruns and bad dereferences that the
source would not notice. -/
inductive Fault
  /-- "Restricting results in empty interval". -/
  | restrictEmpty
  /-- "Bad index in _ftn_entries_add". -/
  | entriesAddIndex
  /-- "Bad index in _ftn_subtrees_add". -/
  | subtreesAddIndex
  /-- "entries-subtree invariant violated in ftn_insert". -/
  | insertCounts
  /-- "bad ftn_insert". -/
  | insertOverlap
  /-- "entry-subtree invariant violated in ftn_replaceEntries". -/
  | replaceCounts
  /-- "bad ftn_replaceEntries". -/
  | replaceIndex
  /-- "replaceEntries called on empty range". -/
  | replaceEmptyRange
  /-- "iterated past end of entries", numbered as in the source. -/
  | prunePastEnd (check : Nat)
  /-- "entries-subtree invariant violated after pruning". -/
  | pruneCounts
  /-- "Heights don't match". -/
  | heightsDiffer
  /-- "Recursive star insert on right continutation". -/
  | starRight
  /-- "Recursive star insert on left continuation". -/
  | starLeft
  /-- "First element of path is not a child of the new root". -/
  | newRootPath
  /-- "Iterator starting at end of interior node". -/
  | iteratorAtEnd
  /-- A null child pointer of a written node is not marked as in memory. -/
  | checkpointPointer
  /-- A record of the log cannot be opened. -/
  | logRead
  /-- "Corrupt log entry in file." -/
  | corruptRecord
  /-- A record that has to be a checkpoint is not one. -/
  | notCheckpoint
  /-- A store past the end of the `path` and `pathIndices` arrays. -/
  | pathOverflow
  /-- A store past the end of the array of iterator states. -/
  | iteratorOverflow
  /-- A dereference of a null, freed or never allocated address. -/
  | badAddress
  /-- A loop or recursion that would leave the height of the tree behind. -/
  | tooDeep
  deriving DecidableEq, Repr

/-- `BYTE_INDEX_MIN`. -/
def byteIndexMin : Nat := 0

/-- `BYTE_INDEX_MAX`, which is `UINT32_MAX`. -/
def byteIndexMax : Nat := 4294967295

/-- `x + 1` on a 32-bit unsigned index. -/
def succ32 (x : Nat) : Nat := (x + 1) % 4294967296

/-- `x - 1` on a 32-bit unsigned index. -/
def pred32 (x : Nat) : Nat := (x + 4294967295) % 4294967296

theorem succ32_of_lt
    (below : x < byteIndexMax) :
    succ32 x = x + 1 := by
  unfold succ32
  unfold byteIndexMax at below
  omega

@[simp] theorem succ32_byteIndexMax : succ32 byteIndexMax = 0 := rfl

theorem pred32_of_pos
    (positive : 0 < x)
    (bounded : x ≤ byteIndexMax) :
    pred32 x = x - 1 := by
  unfold pred32
  unfold byteIndexMax at bounded
  omega

@[simp] theorem pred32_zero : pred32 0 = byteIndexMax := rfl

/-- `struct interval`. -/
structure Interval where
  /-- First byte. -/
  left : Nat
  /-- Last byte. -/
  right : Nat
  /-- Whether the interval holds any byte at all. -/
  nonempty : Bool
  deriving DecidableEq, Repr

/-- `i_init`. -/
def iInit (left right : Nat) : Interval := ⟨left, right, true⟩

/-- `i_contains_val`. -/
def iContainsVal (this : Interval) (x : Nat) : Bool :=
  x ≥ this.left && x ≤ this.right

/-- `i_contains_int`. -/
def iContainsInt (this other : Interval) : Bool :=
  this.left ≤ other.left && this.right ≥ other.right

/-- `i_restrict_range`. -/
def iRestrictRange
    (this : Interval)
    (left right : Nat)
    (allowempty : Bool) : Except Fault Interval :=
  let newleft := max this.left left
  let newright := min this.right right
  if allowempty && newleft > newright then
    .ok ⟨byteIndexMax, byteIndexMin, false⟩
  else if newleft ≤ newright then
    .ok { this with left := newleft, right := newright }
  else
    .error .restrictEmpty

/-- `i_restrict_int`. -/
def iRestrictInt
    (this target : Interval)
    (allowempty : Bool) : Except Fault Interval :=
  iRestrictRange this target.left target.right allowempty

/-- `i_overlaps`. -/
def iOverlaps (this other : Interval) : Bool :=
  this.right ≥ other.left && this.left ≤ other.right

/-- `i_leftOverlaps`. -/
def iLeftOverlaps (this other : Interval) : Bool :=
  this.nonempty && iContainsVal other this.left

/-- `i_rightOverlaps`. -/
def iRightOverlaps (this other : Interval) : Bool :=
  this.nonempty && iContainsVal other this.right

/-- `i_leftOf_val`. -/
def iLeftOfVal (this : Interval) (x : Nat) : Bool :=
  this.nonempty && this.right < x

/-- `i_leftOf_int`. -/
def iLeftOfInt (this other : Interval) : Bool :=
  iLeftOfVal this other.left

/-- `i_rightOf_val`. -/
def iRightOfVal (this : Interval) (x : Nat) : Bool :=
  this.nonempty && this.left > x

/-- `i_rightOf_int`. -/
def iRightOfInt (this other : Interval) : Bool :=
  iRightOfVal this other.right

/-! ## The predicates as propositions -/

@[simp] theorem iContainsVal_iff :
    iContainsVal this x = true ↔ this.left ≤ x ∧ x ≤ this.right := by
  simp [iContainsVal]

@[simp] theorem iContainsInt_iff :
    iContainsInt this other = true ↔
      this.left ≤ other.left ∧ other.right ≤ this.right := by
  simp [iContainsInt]

@[simp] theorem iOverlaps_iff :
    iOverlaps this other = true ↔
      other.left ≤ this.right ∧ this.left ≤ other.right := by
  simp [iOverlaps]

@[simp] theorem iLeftOverlaps_iff :
    iLeftOverlaps this other = true ↔
      this.nonempty = true ∧ other.left ≤ this.left ∧
        this.left ≤ other.right := by
  simp [iLeftOverlaps]

@[simp] theorem iRightOverlaps_iff :
    iRightOverlaps this other = true ↔
      this.nonempty = true ∧ other.left ≤ this.right ∧
        this.right ≤ other.right := by
  simp [iRightOverlaps]

@[simp] theorem iLeftOfInt_iff :
    iLeftOfInt this other = true ↔
      this.nonempty = true ∧ this.right < other.left := by
  simp [iLeftOfInt, iLeftOfVal]

@[simp] theorem iRightOfInt_iff :
    iRightOfInt this other = true ↔
      this.nonempty = true ∧ other.right < this.left := by
  simp [iRightOfInt, iRightOfVal]

/-! ## Restriction -/

/-- The interval that `i_restrict_range` leaves when it may become empty. -/
def restrictTo (this : Interval) (left right : Nat) : Interval :=
  if max this.left left ≤ min this.right right then
    { this with
      left := max this.left left
      right := min this.right right }
  else
    ⟨byteIndexMax, byteIndexMin, false⟩

/-- Restriction that may become empty never fails. -/
@[simp] theorem iRestrictRange_allowempty
    (this : Interval)
    (left right : Nat) :
    iRestrictRange this left right true =
      .ok (restrictTo this left right) := by
  unfold iRestrictRange restrictTo
  by_cases keeps : max this.left left ≤ min this.right right
  · simp only [Bool.true_and, decide_eq_true_eq, gt_iff_lt,
      Nat.not_lt.mpr keeps, if_false, keeps, if_true]
  · simp only [Bool.true_and, decide_eq_true_eq, gt_iff_lt,
      Nat.lt_of_not_le keeps, if_true, keeps, if_false]

/-- Restriction that must not become empty succeeds when it does not. -/
theorem iRestrictRange_of_le
    {this : Interval}
    (keeps : max this.left left ≤ min this.right right) :
    iRestrictRange this left right false =
      .ok { this with
        left := max this.left left
        right := min this.right right } := by
  simp [iRestrictRange, keeps]

/-- An interval in the form the tree code keeps: flagged nonempty with its
ends in order, or the canonical empty interval. -/
structure Interval.Regular (this : Interval) : Prop where
  /-- A nonempty interval has its ends in order. -/
  ordered : this.nonempty = true → this.left ≤ this.right
  /-- The empty interval has its ends crossed. -/
  crossed : this.nonempty = false → this.right < this.left

/-- Restriction keeps intervals regular. -/
theorem Interval.Regular.restrictTo
    {this : Interval}
    (regular : this.Regular)
    (left right : Nat) :
    (restrictTo this left right).Regular := by
  unfold FigTree.restrictTo
  split
  · next keeps =>
      refine ⟨fun _ => keeps, fun empty => ?_⟩
      have crossed := regular.crossed empty
      omega
  · refine ⟨fun flag => ?_, fun _ => ?_⟩
    · cases flag
    · decide

end FigTree
end Gdpfs
