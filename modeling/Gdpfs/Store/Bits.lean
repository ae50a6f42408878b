import Mathlib.Data.Nat.Notation

/-!
# Bits of a byte

A byte as its eight bits, counted from the low end, and what the masks and
shifts a C program applies to it do to each of them.
-/

namespace Bits

/-- Bit number `i` of a byte, counted from the low end. -/
def lowBit (byte : UInt8) (i : ℕ) : Bool := byte.toBitVec.getLsbD i

/-- Two bytes with the same bits are equal. -/
theorem byte_ext
    {first second : UInt8}
    (same : ∀ i < 8, lowBit first i = lowBit second i) :
    first = second := by
  apply UInt8.toBitVec_inj.mp
  apply BitVec.eq_of_getLsbD_eq
  exact same

@[simp]
theorem lowBit_zero (i : ℕ) : lowBit 0 i = false := by
  simp [lowBit]

/-- The byte `0xFF` has every bit. -/
theorem lowBit_full (small : i < 8) : lowBit 0xFF i = true := by
  change (BitVec.allOnes 8).getLsbD i = true
  rw [BitVec.getLsbD_allOnes, decide_eq_true small]

@[simp]
theorem lowBit_or (first second : UInt8) (i : ℕ) :
    lowBit (first ||| second) i = (lowBit first i || lowBit second i) := by
  simp [lowBit]

@[simp]
theorem lowBit_and (first second : UInt8) (i : ℕ) :
    lowBit (first &&& second) i = (lowBit first i && lowBit second i) := by
  simp [lowBit]

theorem lowBit_not (byte : UInt8) (small : i < 8) :
    lowBit (~~~byte) i = !lowBit byte i := by
  simp [lowBit, small]

@[simp]
theorem lowBit_one (i : ℕ) : lowBit 1 i = decide (i = 0) := by
  simp [lowBit]

/-- Shifting to the right drops the low bits. -/
theorem lowBit_shiftRight (byte : UInt8) (small : count < 8) (i : ℕ) :
    lowBit (byte >>> UInt8.ofNat count) i = lowBit byte (count + i) := by
  simp [lowBit, Nat.mod_eq_of_lt small,
    Nat.mod_eq_of_lt (show count < 256 by omega)]

/-- Shifting to the left moves the bits up and fills in zeros. -/
theorem lowBit_shiftLeft (byte : UInt8) (small : count < 8) (inside : i < 8) :
    lowBit (byte <<< UInt8.ofNat count) i =
      (decide (count ≤ i) && lowBit byte (i - count)) := by
  have below : i - count < 8 := by omega
  have turned : decide (count ≤ i) = !decide (i < count) :=
    decide_eq_decide.mpr Nat.not_lt.symm |>.trans decide_not
  rw [turned]
  simp [lowBit, Nat.mod_eq_of_lt small,
    Nat.mod_eq_of_lt (show count < 256 by omega), inside, below]

/-- The test of one bit, as a number. -/
theorem shiftRight_and_one (byte : UInt8) (small : count < 8) :
    (byte >>> UInt8.ofNat count) &&& 1 =
      if lowBit byte count then 1 else 0 := by
  apply byte_ext
  intro i inside
  rw [lowBit_and, lowBit_shiftRight byte small, lowBit_one]
  cases i with
  | zero => cases lowBit byte count <;> simp
  | succ i => cases lowBit byte count <;> simp

theorem shiftRight_and_one_eq_zero (byte : UInt8) (small : count < 8) :
    (byte >>> UInt8.ofNat count) &&& 1 = 0 ↔ lowBit byte count = false := by
  rw [shiftRight_and_one byte small]
  cases lowBit byte count <;> decide

theorem shiftRight_and_one_eq_one (byte : UInt8) (small : count < 8) :
    (byte >>> UInt8.ofNat count) &&& 1 = 1 ↔ lowBit byte count = true := by
  rw [shiftRight_and_one byte small]
  cases lowBit byte count <;> decide

/-- The mask with one bit. -/
theorem lowBit_one_shiftLeft (small : count < 8) (inside : i < 8) :
    lowBit (1 <<< UInt8.ofNat count) i = decide (i = count) := by
  rw [lowBit_shiftLeft 1 small inside, lowBit_one, ← Bool.decide_and]
  congr 1
  apply propext
  omega

/-! ### Counting from the high end -/

/-- Bit number `i` of a byte, counted from the high end. -/
def highBit (byte : UInt8) (i : ℕ) : Bool := lowBit byte (7 - i)

@[simp]
theorem highBit_or (first second : UInt8) (i : ℕ) :
    highBit (first ||| second) i = (highBit first i || highBit second i) :=
  lowBit_or first second (7 - i)

@[simp]
theorem highBit_and (first second : UInt8) (i : ℕ) :
    highBit (first &&& second) i = (highBit first i && highBit second i) :=
  lowBit_and first second (7 - i)

/-- Two bytes with the same bits are equal. -/
theorem byte_ext_high
    {first second : UInt8}
    (same : ∀ i < 8, highBit first i = highBit second i) :
    first = second := by
  apply byte_ext
  intro i small
  have high := same (7 - i) (by omega)
  rwa [highBit, highBit, show 7 - (7 - i) = i by omega] at high

/-- The byte `0xFF` has every bit. -/
theorem highBit_full (i : ℕ) : highBit 0xFF i = true :=
  lowBit_full (by omega)

/-- The mask of the bits from `count` on. -/
theorem highBit_leftMask (small : count < 8) (inside : i < 8) :
    highBit (0xFF >>> UInt8.ofNat count) i = decide (count ≤ i) := by
  rw [highBit, lowBit_shiftRight _ small]
  by_cases from_ : count ≤ i
  · rw [lowBit_full (by omega), decide_eq_true from_]
  · rw [decide_eq_false from_]
    exact BitVec.getLsbD_of_ge _ _ (by omega)

/-- The mask of the bits up to `count`. -/
theorem highBit_rightMask (small : count < 8) (inside : i < 8) :
    highBit (0xFF <<< UInt8.ofNat (7 - count)) i = decide (i ≤ count) := by
  rw [highBit, lowBit_shiftLeft _ (by omega) (by omega),
    lowBit_full (by omega), Bool.and_true]
  congr 1
  apply propext
  omega

/-- A byte has all the bits of a mask. -/
theorem and_eq_mask_iff (byte mask : UInt8) :
    byte &&& mask = mask ↔
      ∀ i < 8, highBit mask i = true → highBit byte i = true := by
  constructor
  · intro same i _ masked
    rw [← same, highBit_and, Bool.and_eq_true] at masked
    exact masked.1
  · intro covered
    apply byte_ext_high
    intro i small
    rw [highBit_and]
    cases masked : highBit mask i with
    | false => rw [Bool.and_false]
    | true => rw [covered i small masked, Bool.and_true]

end Bits
