import Gdpfs.Bitmap.Positions
import Gdpfs.Bitmap.Reserve
import Mathlib.Algebra.Group.Nat.Defs

/-!
# The two readers of the bitmap file

`bitmap_file_get_range` reads a range of the bitmap file into a bitmap.  It
counts the bits of a byte from the low end, where the file has them from the
high end, and it asks `lseek` to go to offset zero with its own first byte as
`whence`.  So it puts another position in the place of each one it is asked
for.
-/

namespace Gdpfs
namespace Bitmap

open Bits

/-- The position after `lseek(fd, 0, whence)`. -/
def landing (sys : Sys) (fd : Fd) (whence : ℕ) : ℕ :=
  match seekTarget sys fd 0 whence with
  | some (.ofNat position) => position
  | _ => fd.position

/-- The position whose bit `bitmap_file_get_range` reads for `p`. -/
def mirror (sys : Sys) (fd : Fd) (left p : ℕ) : ℕ :=
  8 * (landing sys fd (left / 8) + (p / 8 - left / 8)) + (7 - p % 8)

/-- `bitmap_file_get_range` returns a bitmap, and it has the bits that
`bitmap_file_isset` answers for. -/
def ReadersAgree
    (sys : Sys)
    (extended plain : Allocation)
    (fd : Fd)
    (left right : ℕ) : Prop :=
  ∃ bitmap memory next,
    (bitmapFileGetRange sys extended plain left right).run fd =
      (some (bitmap, memory), next) ∧
    ∀ k < right - left,
      (reported bitmap memory (UInt64.ofNat k) = 1 ↔
        ((bitmapFileIsset sys (left + k) (left + k + 1)).run fd).1 = true)

/-- Wherever `lseek` goes, what follows starts there. -/
theorem run_lseek_zero_bind
    (sys : Sys)
    (whence : ℕ)
    (action : FdM α)
    (fd : Fd) :
    (lseek sys seekSet whence >>= fun _ => action).run fd =
      action.run { fd with position := landing sys fd whence } := by
  have zero : ((seekSet : ℕ) : Int) = 0 := rfl
  rw [StateT.run_bind, run_lseek, zero, landing]
  cases seekTarget sys fd 0 whence with
  | none => rfl
  | some target => cases target <;> rfl

/-- The memory of the bitmap the bytes of the file are copied to. -/
def copied (chunk : List UInt8) (zeroed : Memory) : Memory :=
  { zeroed with
    data := fun byte =>
      if byte < chunk.length then chunk.getD byte 0 else zeroed.data byte }

/-- What `bitmap_file_get_range` returns. -/
theorem run_bitmapFileGetRange
    (sys : Sys)
    (fd : Fd)
    (first : bitmapCreate extended
      (UInt64.ofNat (right + 8 - right % 8 - (left - left % 8))) =
        some (extendedBitmap, zeroed))
    (second : bitmapCreate plain (UInt64.ofNat (right - left)) =
      some (bitmap, memory)) :
    ∃ next, (bitmapFileGetRange sys extended plain left right).run fd =
      (some (bitmap,
        (List.range' left (right - left)).foldl
          (copyBit extendedBitmap bitmap
            (copied (chunkAt fd.contents (landing sys fd (left / 8))
              ((right + 8 - right % 8 - (left - left % 8)) / 8)) zeroed)
            (left - left % 8) left)
          memory), next) := by
  have whence : (left - left % 8) / 8 = left / 8 := by omega
  rw [bitmapFileGetRange, whence, run_lseek_zero_bind, run_read_bind]
  simp only [first, second]
  exact ⟨_, rfl⟩

/-- `bitmap_set` sets a bit, if it is not set already. -/
theorem isBit_bitmapSet
    {bmp : BitmapT}
    (memory : Memory)
    (inside : val ≤ bmp.size)
    (i : ℕ) :
    isBit ((bitmapSet (some bmp) val).run memory).2.data i =
      (isBit memory.data i || decide (i = val.toNat)) := by
  rw [run_bitmapSet memory inside]
  split
  · next taken =>
      by_cases same : i = val.toNat
      · rw [same, taken, Bool.true_or]
      · rw [decide_eq_false same, Bool.or_false]
  · have place : val.toNat / 8 * 8 + val.toNat % 8 = val.toNat := by omega
    rw [isBit_or memory.data (Nat.mod_lt _ (by decide)), place]

/-- One turn of the loop copies one bit. -/
theorem isBit_copyBit
    {extendedBitmap bitmap : BitmapT}
    (extendedMemory memory : Memory)
    (inside : byte - extendedLeft ≤ extendedBitmap.size.toNat)
    (room : byte - left ≤ bitmap.size.toNat)
    (i : ℕ) :
    isBit (copyBit extendedBitmap bitmap extendedMemory extendedLeft left
        memory byte).data i =
      (isBit memory.data i ||
        (decide (i = byte - left) &&
          isBit extendedMemory.data (byte - extendedLeft))) := by
  have source : (UInt64.ofNat (byte - extendedLeft)).toNat =
      byte - extendedLeft :=
    Nat.mod_eq_of_lt (Nat.lt_of_le_of_lt inside extendedBitmap.size.toNat_lt)
  have target : (UInt64.ofNat (byte - left)).toNat = byte - left :=
    Nat.mod_eq_of_lt (Nat.lt_of_le_of_lt room bitmap.size.toNat_lt)
  have first : UInt64.ofNat (byte - extendedLeft) ≤ extendedBitmap.size :=
    UInt64.le_iff_toNat_le.mpr (Nat.le_trans (Nat.le_of_eq source) inside)
  have second : UInt64.ofNat (byte - left) ≤ bitmap.size :=
    UInt64.le_iff_toNat_le.mpr (Nat.le_trans (Nat.le_of_eq target) room)
  rw [copyBit, run_bitmapIsSet extendedMemory first, source]
  cases isBit extendedMemory.data (byte - extendedLeft) with
  | false =>
      rw [Bool.and_false, Bool.or_false]
      rfl
  | true =>
      have copied := isBit_bitmapSet memory second i
      rw [target] at copied
      rw [Bool.and_true]
      exact copied

/-- The loop copies the bits of the range. -/
theorem isBit_copyBits
    {extendedBitmap bitmap : BitmapT}
    (extendedMemory memory : Memory)
    (inside : left + count - extendedLeft ≤ extendedBitmap.size.toNat)
    (room : count ≤ bitmap.size.toNat)
    (i : ℕ) :
    isBit ((List.range' left count).foldl
        (copyBit extendedBitmap bitmap extendedMemory extendedLeft left)
        memory).data i =
      (isBit memory.data i ||
        (decide (i < count) &&
          isBit extendedMemory.data (left + i - extendedLeft))) := by
  induction count with
  | zero => simp
  | succ count before =>
      rw [List.range'_concat, List.foldl_append, Nat.one_mul]
      change isBit (copyBit _ _ _ _ _ _ (left + count)).data i = _
      rw [isBit_copyBit extendedMemory _ (by omega) (by omega),
        before (by omega) (by omega), Nat.add_sub_cancel_left]
      by_cases same : i = count
      · subst same
        simp
      · have either : i < count + 1 ↔ i < count := by omega
        simp [same, either]

/-- A bit of the extended bitmap, as long as it lies in the range. -/
theorem isBit_copied
    {zeroed : Memory}
    (zero : ∀ byte < count, zeroed.data byte = 0)
    (inside : j < 8 * count) :
    isBit (copied (chunkAt contents position count) zeroed).data j =
      lowBit (byteAt contents (position + j / 8)) (j % 8) := by
  rw [isBit, copied]
  dsimp only
  split
  · rw [getD_chunkAt contents position (by omega)]
  · next beyond =>
      rw [length_chunkAt] at beyond
      rw [zero (j / 8) (by omega), byteAt_beyond (by omega)]

/-- An allocation that succeeds. -/
def Succeeds (allocation : Allocation) : Prop :=
  allocation.granted = true ∧ allocation.mutexErr = 0

/-- A new bitmap is zero as far as it goes. -/
theorem bitmapCreate_of_succeeds
    (succeeds : Succeeds allocation)
    (size : UInt64) :
    ∃ memory, bitmapCreate allocation size = some (⟨size⟩, memory) ∧
      ∀ byte < byteSize size, memory.data byte = 0 := by
  obtain ⟨granted, mutex⟩ := succeeds
  rw [bitmapCreate, if_pos granted, if_neg (by simp [mutex])]
  refine ⟨_, rfl, ?_⟩
  intro byte inside
  exact if_pos inside

/-- The bit that stands for a position in the bitmap of the range. -/
theorem bitAt_mirror (sys : Sys) (fd : Fd) (left p : ℕ) :
    bitAt fd.contents (mirror sys fd left p) =
      lowBit (byteAt fd.contents
        (landing sys fd (left / 8) + (p / 8 - left / 8))) (p % 8) := by
  have small : p % 8 < 8 := Nat.mod_lt p (by decide)
  rw [bitAt, mirror, highBit]
  congr 1
  · congr 1
    omega
  · omega

/-- `bitmap_file_get_range` returns a bitmap in which each position has the
bit that was read in its place. -/
theorem getRange_bits
    (sys : Sys)
    (first : Succeeds extended)
    (second : Succeeds plain)
    (fd : Fd)
    (ordered : left < right)
    (bound : right < 2 ^ 63) :
    ∃ bitmap memory next,
      (bitmapFileGetRange sys extended plain left right).run fd =
        (some (bitmap, memory), next) ∧
      ∀ k < right - left,
        (reported bitmap memory (UInt64.ofNat k) = 1 ↔
          bitAt fd.contents (mirror sys fd left (left + k)) = true) := by
  have extent : right + 8 - right % 8 - (left - left % 8) =
      8 * (right / 8 + 1 - left / 8) := by omega
  have extentNat : (UInt64.ofNat (right + 8 - right % 8 -
      (left - left % 8))).toNat = 8 * (right / 8 + 1 - left / 8) := by
    rw [extent]
    exact Nat.mod_eq_of_lt (by omega)
  have lengthNat : (UInt64.ofNat (right - left)).toNat = right - left :=
    Nat.mod_eq_of_lt (by omega)
  obtain ⟨zeroed, firstCreated, firstZero⟩ := bitmapCreate_of_succeeds first
    (UInt64.ofNat (right + 8 - right % 8 - (left - left % 8)))
  obtain ⟨memory, secondCreated, secondZero⟩ :=
    bitmapCreate_of_succeeds second (UInt64.ofNat (right - left))
  obtain ⟨next, run⟩ :=
    run_bitmapFileGetRange sys fd firstCreated secondCreated
  refine ⟨_, _, next, run, ?_⟩
  rw [byteSize_eq (UInt64.lt_iff_toNat_lt.mpr (by
    rw [extentNat]
    change 0 < _
    omega)), extentNat] at firstZero
  rw [byteSize_eq (UInt64.lt_iff_toNat_lt.mpr (by
    rw [lengthNat]
    change 0 < _
    omega)), lengthNat] at secondZero
  intro k inside
  have value : (UInt64.ofNat k).toNat = k := Nat.mod_eq_of_lt (by omega)
  have old : isBit memory.data k = false := by
    rw [isBit, secondZero (k / 8) (by omega), lowBit_zero]
  rw [reported, run_bitmapIsSet _ (UInt64.le_iff_toNat_le.mpr (by
      rw [value, lengthNat]
      omega)), value, isBit_copyBits _ _ (by rw [extentNat]; omega)
      (by rw [lengthNat]), old, decide_eq_true inside, Bool.false_or,
    Bool.true_and, isBit_copied (fun byte small => firstZero byte (by omega))
      (by omega), bitAt_mirror,
    show (left + k - (left - left % 8)) / 8 =
      (left + k) / 8 - left / 8 by omega,
    show (left + k - (left - left % 8)) % 8 = (left + k) % 8 by omega]
  split <;> simp_all

/-- The readers agree when each position has the bit of the one that is read
in its place. -/
theorem readersAgree_iff_bits
    (sys : Sys)
    (first : Succeeds extended)
    (second : Succeeds plain)
    (fd : Fd)
    (ordered : left < right)
    (bound : right < 2 ^ 63) :
    ReadersAgree sys extended plain fd left right ↔
      ∀ p, left ≤ p → p < right →
        bitAt fd.contents (mirror sys fd left p) = bitAt fd.contents p := by
  obtain ⟨bitmap, memory, next, run, bits⟩ :=
    getRange_bits sys first second fd ordered bound
  have asked (p : ℕ) :
      ((bitmapFileIsset sys p (p + 1)).run fd).1 = true ↔
        bitAt fd.contents p = true := by
    rw [(run_bitmapFileIsset sys fd (Nat.lt_succ_self p)).2]
    constructor
    · intro all
      exact all p (Nat.le_refl p) (Nat.lt_succ_self p)
    · intro here q lower upper
      rw [show q = p by omega]
      exact here
  constructor
  · rintro ⟨_, _, _, same, agree⟩ p lower upper
    rw [run] at same
    cases same
    have here := agree (p - left) (by omega)
    rw [bits (p - left) (by omega), asked, Nat.add_sub_cancel' lower] at here
    exact Bool.eq_iff_iff.mpr here
  · intro same
    refine ⟨bitmap, memory, next, run, ?_⟩
    intro k inside
    rw [bits k inside, asked, same (left + k) (by omega) (by omega)]

/-- The readers agree after a run of `bitmap_file_set_range`, wherever the
file stands, exactly when the ranges cover each position as they cover the one
that is read in its place. -/
theorem readers_agree_iff
    (sys : Sys)
    (ranges : List (ℕ × ℕ))
    (valid : ∀ range ∈ ranges, range.1 < range.2)
    (run : ((setRanges sys ranges).run ⟨[], start⟩).2 = fd)
    (position : ℕ)
    (first : Succeeds extended)
    (second : Succeeds plain)
    (ordered : left < right)
    (bound : right < 2 ^ 63) :
    ReadersAgree sys extended plain { fd with position := position }
        left right ↔
      ∀ p, left ≤ p → p < right →
        covered ranges
            (mirror sys { fd with position := position } left p) =
          covered ranges p := by
  have bits (p : ℕ) : bitAt fd.contents p = covered ranges p := by
    rw [← run, (run_setRanges sys ⟨[], start⟩ valid).2, bitAt_nil,
      Bool.false_or]
  rw [readersAgree_iff_bits sys first second _ ordered bound]
  simp only [bits]

/-- A system whose `lseek` knows no other `whence`. -/
def plainSys : Sys := ⟨fun _ _ _ => none⟩

/-- Memory is found, and only zeros lie behind it. -/
def plenty : Allocation := ⟨true, 0, fun _ => 0⟩

/-- The first byte of the file, when all of its positions were set. -/
theorem readers_agree_whole_byte :
    ReadersAgree plainSys plenty plenty
      { ((setRanges plainSys [(0, 8)]).run ⟨[], 0⟩).2 with position := 1 }
      0 8 := by
  refine (readers_agree_iff plainSys [(0, 8)] (by simp) rfl 1 ⟨rfl, rfl⟩
    ⟨rfl, rfl⟩ (by decide) (by decide)).mpr ?_
  intro p _ below
  have zero : landing plainSys
      { ((setRanges plainSys [(0, 8)]).run ⟨[], 0⟩).2 with position := 1 }
      (0 / 8) = 0 := rfl
  have mirrored : mirror plainSys
      { ((setRanges plainSys [(0, 8)]).run ⟨[], 0⟩).2 with position := 1 }
      0 p < 8 := by
    rw [mirror, zero]
    omega
  simp [covered, mirrored, below]

/-- The position 0 is read from the wrong end of its byte, and the third byte
of the file is read at the end of the file. -/
theorem readers_disagree :
    ¬ReadersAgree plainSys plenty plenty
        ((setRanges plainSys [(0, 1)]).run ⟨[], 0⟩).2 0 1 ∧
      ¬ReadersAgree plainSys plenty plenty
        ((setRanges plainSys [(16, 24)]).run ⟨[], 0⟩).2 16 24 := by
  constructor
  · rw [readersAgree_iff_bits plainSys ⟨rfl, rfl⟩ ⟨rfl, rfl⟩ _ (by decide)
      (by decide)]
    intro same
    have zero := same 0 (by decide) (by decide)
    rw [(run_setRanges plainSys _ (by simp)).2,
      (run_setRanges plainSys _ (by simp)).2] at zero
    cases zero
  · rw [readersAgree_iff_bits plainSys ⟨rfl, rfl⟩ ⟨rfl, rfl⟩ _ (by decide)
      (by decide)]
    intro same
    have third := same 16 (by decide) (by decide)
    rw [(run_setRanges plainSys _ (by simp)).2,
      (run_setRanges plainSys _ (by simp)).2] at third
    cases third

end Bitmap
end Gdpfs
