import Gdpfs.Bitmap.Ops

/-!
# The bytes a bitmap function may look at

A bitmap owns the first `byte_size` bytes of its data.  What the functions of
`bitmap.c` read and write is compared with that.
-/

namespace Gdpfs
namespace Bitmap

open Bits

/-- The indices that an action reads or writes. -/
def touches (action : BitmapM α) (data : ℕ → UInt8) : List ℕ :=
  (action.run ⟨data, []⟩).2.touched

/-- An action stays among the bytes of a bitmap. -/
def StaysIn (bmp : BitmapT) (action : BitmapM α) (data : ℕ → UInt8) : Prop :=
  ∀ i ∈ touches action data, i < byteSize bmp.size

/-- An action refuses its argument: it returns `-1` and touches no data. -/
def Refuses (action : BitmapM Int) (data : ℕ → UInt8) : Prop :=
  action.run ⟨data, []⟩ = (-1, ⟨data, []⟩)

/-- The functions of `bitmap.c` stay within the bitmap, whatever it holds and
whatever value they are given, and `lookup_fh` within `files`. -/
structure Bounded (bmp : BitmapT) (data : ℕ → UInt8) (val : UInt64) : Prop where
  /-- A value that is not below the size is refused. -/
  refused : bmp.size ≤ val →
    Refuses (bitmapRelease (some bmp) val) data ∧
    Refuses (bitmapSet (some bmp) val) data ∧
    Refuses (bitmapIsSet (some bmp) val) data
  /-- `bitmap_reserve` stays within the data. -/
  reserve : StaysIn bmp (bitmapReserve (some bmp)) data
  /-- `bitmap_release` stays within the data. -/
  release : StaysIn bmp (bitmapRelease (some bmp) val) data
  /-- `bitmap_set` stays within the data. -/
  set : StaysIn bmp (bitmapSet (some bmp) val) data
  /-- `bitmap_is_set` stays within the data. -/
  isSet : StaysIn bmp (bitmapIsSet (some bmp) val) data
  /-- With the bitmap of the handles, `lookup_fh` reads an entry of `files`. -/
  lookup : bmp.size.toNat = maxFhs → ∀ index,
    ((lookupFh (some bmp) val).run ⟨data, []⟩).1 = some index →
    index < maxFhs

/-- Whether some byte of a bitmap has a bit that is not set. -/
def HasRoom (bmp : BitmapT) (data : ℕ → UInt8) : Prop :=
  ∃ byte < byteSize bmp.size, data byte ≠ 0xFF

/-- `bitmap_reserve` stays within the data as long as it has room. -/
theorem staysIn_bitmapReserve_iff
    {bmp : BitmapT}
    (positive : 0 < bmp.size)
    (data : ℕ → UInt8) :
    StaysIn bmp (bitmapReserve (some bmp)) data ↔ HasRoom bmp data := by
  obtain ⟨stop, next, upper, filled, opened, reads, touched, outcome⟩ :=
    run_bitmapReserve ⟨data, []⟩ positive
  have same : touches (bitmapReserve (some bmp)) data = next.touched := by
    rw [touches]
    rcases outcome with ⟨_, -, -, -, -, run⟩ | ⟨-, -, run⟩ <;> rw [run]
  rw [StaysIn, same]
  constructor
  · intro stays
    have inside := stays stop reads
    exact ⟨stop, inside, opened inside⟩
  · rintro ⟨byte, inside, room⟩ i member
    have before : stop ≤ byte := by
      by_contra past
      exact room (filled byte (by omega))
    rcases touched i member with old | early
    · cases old
    · omega

/-- A value up to the size is looked at, in the byte its number says. -/
theorem touches_of_le
    {bmp : BitmapT}
    (data : ℕ → UInt8)
    (inside : val ≤ bmp.size) :
    (∀ i ∈ touches (bitmapRelease (some bmp) val) data, i = val.toNat / 8) ∧
      (∀ i ∈ touches (bitmapSet (some bmp) val) data, i = val.toNat / 8) ∧
      touches (bitmapIsSet (some bmp) val) data = [val.toNat / 8] := by
  refine ⟨?_, ?_, ?_⟩
  · intro i member
    rw [touches, run_bitmapRelease _ inside] at member
    split at member <;> simpa using member
  · intro i member
    rw [touches, run_bitmapSet _ inside] at member
    split at member <;> simpa using member
  · rw [touches, run_bitmapIsSet _ inside]
    rfl

/-- A value past the size is refused. -/
theorem refuses_of_lt
    {bmp : BitmapT}
    (data : ℕ → UInt8)
    (past : bmp.size < val) :
    Refuses (bitmapRelease (some bmp) val) data ∧
      Refuses (bitmapSet (some bmp) val) data ∧
      Refuses (bitmapIsSet (some bmp) val) data := by
  refine ⟨?_, ?_, ?_⟩
  · rw [Refuses, bitmapRelease, if_pos past]
    rfl
  · rw [Refuses, bitmapSet, if_pos past]
    rfl
  · rw [Refuses, bitmapIsSet, if_pos past]
    rfl

/-- What refuses its argument stays within the data. -/
theorem Refuses.staysIn
    {bmp : BitmapT}
    (refuses : Refuses action data) :
    StaysIn bmp action data := by
  intro i member
  rw [touches, refuses] at member
  cases member

/-- `lookup_fh` reads `files` at the handle it was given, and only if the
bitmap does not refuse the handle. -/
theorem lookupFh_index
    {bmp : BitmapT}
    (found : ((lookupFh (some bmp) fh).run ⟨data, []⟩).1 = some index) :
    index = fh.toNat ∧ ¬Refuses (bitmapIsSet (some bmp) fh) data := by
  cases run : (bitmapIsSet (some bmp) fh).run ⟨data, []⟩ with
  | mk answer next =>
      rw [lookupFh, StateT.run_bind, run] at found
      change Prod.fst (StateT.run (m := Id)
        (if answer < 0 then pure none else pure (some fh.toNat)) next) =
          some index at found
      split at found
      · cases found
      · next known =>
          cases found
          refine ⟨rfl, ?_⟩
          intro refuses
          rw [Refuses, run] at refuses
          cases refuses
          exact known (by decide)

/-- The accesses stay in bounds exactly when the value is not the size itself
and some byte of the bitmap is not full. -/
theorem bounded_iff
    (bmp : BitmapT)
    (positive : 0 < bmp.size)
    (data : ℕ → UInt8)
    (val : UInt64) :
    Bounded bmp data val ↔ val ≠ bmp.size ∧ HasRoom bmp data := by
  constructor
  · intro bounded
    refine ⟨?_, (staysIn_bitmapReserve_iff positive data).mp bounded.reserve⟩
    intro same
    have refuses := (bounded.refused (UInt64.le_of_eq same.symm)).2.2
    have looked := (touches_of_le data (UInt64.le_of_eq same)).2.2
    rw [touches, refuses] at looked
    cases looked
  · rintro ⟨other, room⟩
    have reserve := (staysIn_bitmapReserve_iff positive data).mpr room
    by_cases past : bmp.size < val
    · obtain ⟨release, set, isSet⟩ := refuses_of_lt data past
      refine ⟨fun _ => ⟨release, set, isSet⟩, reserve, release.staysIn,
        set.staysIn, isSet.staysIn, ?_⟩
      intro _ index found
      exact absurd isSet (lookupFh_index found).2
    · have small : val < bmp.size := by
        rcases UInt64.le_iff_lt_or_eq.mp (UInt64.not_lt.mp past) with
          below | same
        · exact below
        · exact absurd same other
      have low := UInt64.lt_iff_toNat_lt.mp small
      have inData : val.toNat / 8 < byteSize bmp.size := by
        rw [byteSize_eq positive]
        omega
      obtain ⟨release, set, isSet⟩ :=
        touches_of_le data (UInt64.le_of_lt small)
      refine ⟨?_, reserve, ?_, ?_, ?_, ?_⟩
      · intro large
        exact absurd small (UInt64.not_lt.mpr large)
      · intro i member
        rw [release i member]
        exact inData
      · intro i member
        rw [set i member]
        exact inData
      · intro i member
        rw [isSet, List.mem_singleton] at member
        rw [member]
        exact inData
      · intro handles index found
        rw [(lookupFh_index found).1, ← handles]
        exact low

/-- A bitmap with room, and a value past its size. -/
theorem bounded_past :
    Bounded ⟨8⟩ (fun _ => 0) 9 :=
  (bounded_iff ⟨8⟩ (by decide) (fun _ => 0) 9).mpr
    ⟨by decide, 0, by decide, by decide⟩

/-- The handle that is one too large is not refused: the bitmap is read behind
its end, and so is `files`.  A full bitmap is read behind its end, too. -/
theorem not_bounded :
    ¬Bounded ⟨1024⟩ (fun _ => 0) 1024 ∧
      ((lookupFh (some ⟨1024⟩) 1024).run ⟨fun _ => 0, []⟩).1 =
        some maxFhs ∧
      ¬Bounded ⟨8⟩ (fun _ => 0xFF) 0 := by
  refine ⟨?_, rfl, ?_⟩
  · intro bounded
    have refuses := (bounded.refused (by decide)).2.2
    have looked : touches (bitmapIsSet (some ⟨1024⟩) 1024) (fun _ => 0) =
        [128] := rfl
    rw [touches, refuses] at looked
    cases looked
  · intro bounded
    obtain ⟨byte, -, room⟩ :=
      (staysIn_bitmapReserve_iff (by decide) _).mp bounded.reserve
    exact room rfl

end Bitmap
end Gdpfs
