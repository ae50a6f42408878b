import Gdpfs.Bitmap.Ops
import Mathlib.Data.Finset.Basic

/-!
# Reserving and releasing handles

A run of `bitmap_reserve` and `bitmap_release` on a new bitmap, and the indices
that its history leaves reserved.
-/

namespace Gdpfs
namespace Bitmap

open Bits

/-- A call on a bitmap. -/
inductive Call where
  | reserve
  | release (val : UInt64)
  deriving DecidableEq, Repr

/-- A call with what it returned. -/
inductive Event where
  | reserved (index : UInt64)
  | released (val : UInt64) (answer : Int)
  deriving DecidableEq, Repr

/-- Run one call. -/
def Call.run (bmp : Option BitmapT) : Call → BitmapM Event
  | .reserve => do return .reserved (← bitmapReserve bmp)
  | .release val => do return .released val (← bitmapRelease bmp val)

/-- Run a sequence of calls. -/
def runCalls (bmp : Option BitmapT) (calls : List Call) :
    BitmapM (List Event) :=
  calls.mapM (Call.run bmp)

/-- The indices that are reserved after one more event. -/
def heldAfter (held : Finset ℕ) : Event → Finset ℕ
  | .reserved index => if index = -1 then held else insert index.toNat held
  | .released val _ => held.erase val.toNat

/-- The indices that were handed out and not released since. -/
def heldBy (history : List Event) : Finset ℕ := history.foldl heldAfter ∅

/-- What `bitmap_is_set` returns. -/
def reported (bmp : BitmapT) (memory : Memory) (i : UInt64) : Int :=
  ((bitmapIsSet (some bmp) i).run memory).1

/-- The functions of `bitmap.c` allocate the indices below the size, of which
those in `held` are reserved. -/
structure Allocates
    (bmp : BitmapT)
    (held : Finset ℕ)
    (memory : Memory) : Prop where
  /-- The bitmap shows which indices are reserved. -/
  shown : ∀ i < bmp.size,
    reported bmp memory i = if i.toNat ∈ held then 1 else 0
  /-- `bitmap_reserve` fails exactly when every index is reserved. -/
  full : ((bitmapReserve (some bmp)).run memory).1 = -1 ↔
    ∀ i < bmp.size, i.toNat ∈ held
  /-- Otherwise it returns the smallest index that is not reserved, which is
  reserved then, and changes no other one. -/
  reserves : ∀ index next,
    (bitmapReserve (some bmp)).run memory = (index, next) →
    index ≠ -1 →
      index < bmp.size ∧ index.toNat ∉ held ∧
      (∀ i < index, i.toNat ∈ held) ∧
      reported bmp next index = 1 ∧
      ∀ i < bmp.size, i ≠ index → reported bmp next i = reported bmp memory i
  /-- `bitmap_release` succeeds exactly for a reserved index, which is not
  reserved then, and changes no other one. -/
  releases : ∀ val < bmp.size, ∀ answer next,
    (bitmapRelease (some bmp) val).run memory = (answer, next) →
      answer = (if val.toNat ∈ held then 0 else -1) ∧
      reported bmp next val = 0 ∧
      ∀ i < bmp.size, i ≠ val → reported bmp next i = reported bmp memory i

/-- The bits of a bitmap are those of the reserved indices. -/
structure Holds (size : ℕ) (held : Finset ℕ) (data : ℕ → UInt8) : Prop where
  /-- A bit below the size is set when its index is reserved. -/
  bits : ∀ i < size, isBit data i = true ↔ i ∈ held
  /-- Only indices below the size are reserved. -/
  below : ∀ i ∈ held, i < size

/-- A bitmap from `bitmap_create` is empty. -/
theorem Holds.created
    (created : bitmapCreate allocation size = some (bmp, memory))
    (positive : 0 < size) :
    bmp.size = size ∧ Holds size.toNat ∅ memory.data := by
  rw [bitmapCreate] at created
  split at created
  · split at created
    · cases created
    · cases created
      refine ⟨rfl, ⟨?_, ?_⟩⟩
      · intro i inside
        have count := byteSize_eq positive
        have inData : i / 8 < byteSize size := by omega
        simp [isBit, inData]
      · simp
  · cases created

/-- `bitmap_reserve` keeps the bits those of the reserved indices. -/
theorem Holds.reserve
    {bmp : BitmapT}
    {held : Finset ℕ}
    {memory next : Memory}
    (holds : Holds bmp.size.toNat held memory.data)
    (positive : 0 < bmp.size)
    (run : (bitmapReserve (some bmp)).run memory = (index, next)) :
    (index = -1 ∧ (∀ i < bmp.size.toNat, i ∈ held) ∧
        next.data = memory.data) ∨
      (index < bmp.size ∧ index ≠ -1 ∧ index.toNat ∉ held ∧
        (∀ i < index.toNat, i ∈ held) ∧
        Holds bmp.size.toNat (insert index.toNat held) next.data) := by
  obtain ⟨-, _, -, -, -, -, -,
    ⟨found, inside, free, early, bits, returned⟩ | ⟨all, data, refused⟩⟩ :=
    run_bitmapReserve memory positive
  · rw [returned] at run
    cases run
    have bound := bmp.size.toNat_lt
    have value : (UInt64.ofNat found).toNat = found :=
      Nat.mod_eq_of_lt (by omega)
    have fresh : found ∉ held := by
      rw [← holds.bits found inside, free]
      decide
    refine Or.inr ⟨?_, ?_, ?_, ?_, ?_, ?_⟩
    · rw [UInt64.lt_iff_toNat_lt, value]
      exact inside
    · intro last
      rw [last] at value
      have top : (-1 : UInt64).toNat = 2 ^ 64 - 1 := rfl
      omega
    · rw [value]
      exact fresh
    · intro i low
      rw [value] at low
      exact (holds.bits i (by omega)).mp (early i low)
    · intro i low
      rw [bits, Bool.or_eq_true, holds.bits i low, decide_eq_true_iff, value,
        Finset.mem_insert, or_comm]
    · intro i member
      rw [value, Finset.mem_insert] at member
      rcases member with same | old
      · rw [same]
        exact inside
      · exact holds.below i old
  · rw [refused] at run
    cases run
    refine Or.inl ⟨rfl, ?_, data⟩
    intro i low
    exact (holds.bits i low).mp (all i low)

/-- `bitmap_release` keeps the bits those of the reserved indices. -/
theorem Holds.release
    {bmp : BitmapT}
    {held : Finset ℕ}
    {memory next : Memory}
    (holds : Holds bmp.size.toNat held memory.data)
    (inside : val < bmp.size)
    (run : (bitmapRelease (some bmp) val).run memory = (answer, next)) :
    answer = (if val.toNat ∈ held then 0 else -1) ∧
      Holds bmp.size.toNat (held.erase val.toNat) next.data := by
  have low : val.toNat < bmp.size.toNat := UInt64.lt_iff_toNat_lt.mp inside
  have below : ∀ i ∈ held.erase val.toNat, i < bmp.size.toNat := by
    intro i member
    exact holds.below i (Finset.mem_of_mem_erase member)
  rw [run_bitmapRelease memory (UInt64.le_of_lt inside)] at run
  by_cases member : val.toNat ∈ held
  · rw [if_pos ((holds.bits val.toNat low).mpr member)] at run
    cases run
    refine ⟨(if_pos member).symm, ?_, below⟩
    intro i small
    have place : val.toNat / 8 * 8 + val.toNat % 8 = val.toNat := by omega
    rw [isBit_and_not memory.data (Nat.mod_lt _ (by decide)), place,
      Bool.and_eq_true, holds.bits i small, Finset.mem_erase, and_comm,
      Bool.not_eq_true', decide_eq_false_iff_not]
  · rw [if_neg (fun set => member ((holds.bits val.toNat low).mp set))] at run
    cases run
    refine ⟨(if_neg member).symm, ?_, below⟩
    rw [Finset.erase_eq_of_notMem member]
    exact holds.bits

/-- Each call keeps the bits those of the indices its history leaves
reserved. -/
theorem Holds.step
    {bmp : BitmapT}
    {held : Finset ℕ}
    {memory next : Memory}
    (holds : Holds bmp.size.toNat held memory.data)
    (positive : 0 < bmp.size)
    (valid : ∀ val, call = Call.release val → val < bmp.size)
    (run : (call.run (some bmp)).run memory = (event, next)) :
    Holds bmp.size.toNat (heldAfter held event) next.data := by
  cases call with
  | reserve =>
      cases run
      rcases holds.reserve positive rfl with
        ⟨failed, -, data⟩ | ⟨-, taken, -, -, reserved⟩
      · change Holds _ (if _ = -1 then held else _) _
        rw [if_pos failed]
        exact ⟨fun i low => data ▸ holds.bits i low, holds.below⟩
      · change Holds _ (if _ = -1 then held else _) _
        rw [if_neg taken]
        exact reserved
  | release val =>
      cases run
      exact (holds.release (valid val rfl) rfl).2

/-- A run keeps the bits those of the indices its history leaves reserved. -/
theorem Holds.runCalls
    {bmp : BitmapT}
    {held : Finset ℕ}
    {memory : Memory}
    (holds : Holds bmp.size.toNat held memory.data)
    (positive : 0 < bmp.size)
    (valid : ∀ val, Call.release val ∈ calls → val < bmp.size) :
    Holds bmp.size.toNat
      (((runCalls (some bmp) calls).run memory).1.foldl heldAfter held)
      ((runCalls (some bmp) calls).run memory).2.data := by
  induction calls generalizing held memory with
  | nil => exact holds
  | cons call calls later =>
      have first : Holds bmp.size.toNat
          (heldAfter held ((call.run (some bmp)).run memory).1)
          ((call.run (some bmp)).run memory).2.data := by
        refine holds.step positive ?_ rfl
        intro val same
        exact valid val (by simp [same])
      rw [Bitmap.runCalls, List.mapM_cons]
      apply later first
      intro val member
      exact valid val (List.mem_cons_of_mem call member)

/-- The bitmap reports the reserved indices. -/
theorem Holds.reported
    {bmp : BitmapT}
    {held : Finset ℕ}
    {memory : Memory}
    (holds : Holds bmp.size.toNat held memory.data)
    (inside : i < bmp.size) :
    reported bmp memory i = if i.toNat ∈ held then 1 else 0 := by
  have low := UInt64.lt_iff_toNat_lt.mp inside
  rw [Bitmap.reported, run_bitmapIsSet memory (UInt64.le_of_lt inside)]
  simp only [holds.bits i.toNat low]

/-- The functions allocate as the bits say. -/
theorem Holds.allocates
    {bmp : BitmapT}
    {held : Finset ℕ}
    {memory : Memory}
    (holds : Holds bmp.size.toNat held memory.data)
    (positive : 0 < bmp.size) :
    Allocates bmp held memory where
  shown i inside := holds.reported inside
  full := by
    rcases holds.reserve positive rfl with
      ⟨failed, all, -⟩ | ⟨inside, taken, fresh, -, -⟩
    · refine iff_of_true failed ?_
      intro i inside
      exact all i.toNat (UInt64.lt_iff_toNat_lt.mp inside)
    · refine iff_of_false taken ?_
      intro all
      exact fresh (all _ inside)
  reserves index next run taken := by
    rcases holds.reserve positive run with
      ⟨failed, -, -⟩ | ⟨inside, -, fresh, early, after⟩
    · exact absurd failed taken
    · refine ⟨inside, fresh, ?_, ?_, ?_⟩
      · intro i before
        exact early i.toNat (UInt64.lt_iff_toNat_lt.mp before)
      · rw [after.reported inside, if_pos (Finset.mem_insert_self _ _)]
      · intro i small other
        have apart : i.toNat ≠ index.toNat :=
          fun same => other (UInt64.toNat_inj.mp same)
        simp only [after.reported small, holds.reported small,
          Finset.mem_insert, apart, false_or]
  releases val inside answer next run := by
    obtain ⟨answered, after⟩ := holds.release inside run
    refine ⟨answered, ?_, ?_⟩
    · rw [after.reported inside, if_neg (Finset.notMem_erase _ _)]
    · intro i small other
      have apart : i.toNat ≠ val.toNat :=
        fun same => other (UInt64.toNat_inj.mp same)
      simp only [after.reported small, holds.reported small,
        Finset.mem_erase, apart, ne_eq, not_false_eq_true, true_and]

/-- After every run of calls on a new bitmap, of whatever size, the functions
allocate its indices: the smallest one that is not reserved, none twice. -/
theorem allocation_exact
    (allocation : Allocation)
    (size : UInt64)
    (positive : 0 < size)
    (created : bitmapCreate allocation size = some (bmp, memory))
    (calls : List Call)
    (valid : ∀ val, Call.release val ∈ calls → val < size)
    (run : (runCalls (some bmp) calls).run memory = (history, next)) :
    bmp.size = size ∧ Allocates bmp (heldBy history) next := by
  obtain ⟨same, empty⟩ := Holds.created created positive
  rw [← same] at empty positive valid
  have holds := empty.runCalls positive valid
  rw [run] at holds
  exact ⟨same, holds.allocates positive⟩

/-- A bitmap of ten bits, two of them in a byte of their own. -/
theorem allocation_exact_ten :
    ∃ bmp memory,
      bitmapCreate ⟨true, 0, fun _ => 0xFF⟩ 10 = some (bmp, memory) ∧
      Allocates bmp
        (heldBy ((runCalls (some bmp)
          [.reserve, .reserve, .release 0]).run memory).1)
        ((runCalls (some bmp)
          [.reserve, .reserve, .release 0]).run memory).2 := by
  refine ⟨_, _, rfl, (allocation_exact ⟨true, 0, fun _ => 0xFF⟩ 10
    (by decide) rfl _ ?_ rfl).2⟩
  intro val member
  simp only [List.mem_cons, reduceCtorEq, Call.release.injEq,
    List.not_mem_nil, or_false, false_or] at member
  rw [member]
  decide

end Bitmap
end Gdpfs
