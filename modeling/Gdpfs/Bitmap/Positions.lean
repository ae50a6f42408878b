import Gdpfs.Bitmap.RangeFile
import Mathlib.Data.List.GetD

/-!
# The bitmap file is a set of positions

A position of the cache has its bit in the byte of its number by eight, from
the high end on.  Behind the end of the file no position is in the set.
`bitmap_file_set_range` adds the positions of a range, `bitmap_file_isset`
asks for all of them.
-/

namespace Gdpfs
namespace Bitmap

open Bits

/-- The byte at an index, zero behind the end of the file. -/
def byteAt (contents : List UInt8) (x : ℕ) : UInt8 := contents.getD x 0

/-- Whether a position is in the set. -/
def bitAt (contents : List UInt8) (p : ℕ) : Bool :=
  highBit (byteAt contents (p / 8)) (p % 8)

/-! ### The calls of the operating system -/

theorem run_lseek_bind
    (sys : Sys)
    (position : ℕ)
    (rest : Int → FdM α)
    (fd : Fd) :
    (lseek sys position seekSet >>= rest).run fd =
      (rest position).run { fd with position := position } := rfl

theorem run_lseek
    (sys : Sys)
    (offset : Int)
    (whence : ℕ)
    (fd : Fd) :
    (lseek sys offset whence).run fd =
      (seekTo fd (seekTarget sys fd offset whence)).run fd := rfl

theorem run_write_bind
    (buf : List UInt8)
    (rest : ℕ → FdM α)
    (fd : Fd) :
    (write buf >>= rest).run fd = (rest buf.length).run (fd.written buf) := rfl

theorem run_read_bind
    (count : ℕ)
    (rest : List UInt8 → FdM α)
    (fd : Fd) :
    (read count >>= rest).run fd =
      (rest ((fd.contents.drop fd.position).take count)).run
        { fd with
          position := fd.position +
            ((fd.contents.drop fd.position).take count).length } := rfl

theorem position_written (fd : Fd) (buf : List UInt8) :
    (fd.written buf).position = fd.position + buf.length := rfl

/-- A write replaces the bytes from the position on. -/
theorem byteAt_written (fd : Fd) (buf : List UInt8) (x : ℕ) :
    byteAt (fd.written buf).contents x =
      if fd.position ≤ x ∧ x < fd.position + buf.length then
        buf.getD (x - fd.position) 0
      else byteAt fd.contents x := by
  rw [Fd.written, byteAt]
  by_cases empty : buf = []
  · subst empty
    rw [if_pos rfl, if_neg]
    · rfl
    · rw [List.length_nil]
      omega
  · rw [if_neg empty]
    exact File.getD_overwrite fd.contents fd.position buf x

/-- Writing full bytes. -/
theorem byteAt_written_full (fd : Fd) (count x : ℕ) :
    byteAt (fd.written (List.replicate count 0xFF)).contents x =
      if fd.position ≤ x ∧ x < fd.position + count then 0xFF
      else byteAt fd.contents x := by
  rw [byteAt_written, List.length_replicate]
  split
  · next inside =>
      rw [List.getD_eq_getElem?_getD, List.getElem?_replicate_of_lt (by omega)]
      rfl
  · rfl

/-- Writing one byte. -/
theorem byteAt_written_one (fd : Fd) (byte : UInt8) (x : ℕ) :
    byteAt (fd.written [byte]).contents x =
      if x = fd.position then byte else byteAt fd.contents x := by
  rw [byteAt_written]
  by_cases here : x = fd.position
  · subst here
    rw [if_pos (by simp), if_pos rfl, Nat.sub_self]
    rfl
  · rw [if_neg (by simp; omega), if_neg here]

/-- Reading the byte at the position. -/
theorem run_peekByte_bind
    (sys : Sys)
    (rest : UInt8 → FdM α)
    (fd : Fd) :
    (peekByte sys >>= rest).run fd =
      (rest (byteAt fd.contents fd.position)).run fd := by
  have found : byteAt fd.contents fd.position =
      (fd.contents.drop fd.position).headD 0 := by
    rw [byteAt, List.getD_eq_getElem?_getD, ← List.head?_drop,
      List.headD_eq_head?_getD]
  rw [found, peekByte, bind_assoc, run_read_bind]
  cases ahead : fd.contents.drop fd.position with
  | nil => rfl
  | cons byte behind =>
      have back : seekTarget sys { fd with position := fd.position + 1 }
          (-1) seekCur = some (Int.ofNat fd.position) := by
        change some (((fd.position + 1 : ℕ) : Int) + -1) = _
        rw [Int.natCast_add, Int.natCast_one, Int.add_neg_cancel_right]
        rfl
      change ((lseek sys (-1) seekCur >>= fun _ => pure byte) >>= rest).run
        { fd with position := fd.position + 1 } = _
      rw [StateT.run_bind, StateT.run_bind, run_lseek, back]
      rfl

/-- The loop over the chunks fills the file up to its last chunk. -/
theorem run_writeChunks
    (fd : Fd)
    (chunk : List UInt8)
    (bytesleft : ℕ)
    (full : bmpChunksize < bytesleft →
      chunk.take bmpChunksize = List.replicate bmpChunksize 0xFF) :
    ∃ rest next,
      (writeChunks chunk bytesleft).run fd = (some rest, next) ∧
      rest ≤ bytesleft ∧ rest ≤ bmpChunksize ∧ (0 < bytesleft → 0 < rest) ∧
      next.position = fd.position + (bytesleft - rest) ∧
      ∀ x, byteAt next.contents x =
        if fd.position ≤ x ∧ x < fd.position + (bytesleft - rest) then 0xFF
        else byteAt fd.contents x := by
  have positive : 0 < bmpChunksize := by decide
  induction bytesleft using Nat.strongRecOn generalizing fd with
  | ind bytesleft later =>
    by_cases more : bmpChunksize < bytesleft
    · obtain ⟨rest, next, run, most, small, some_, position, bytes⟩ :=
        later (bytesleft - bmpChunksize) (by omega)
          (fd.written (List.replicate bmpChunksize 0xFF))
          (fun _ => full more)
      have moved :
          (fd.written (List.replicate bmpChunksize 0xFF)).position =
            fd.position + bmpChunksize := by
        rw [position_written, List.length_replicate]
      rw [moved] at position bytes
      refine ⟨rest, next, ?_, by omega, small, by omega, by omega, ?_⟩
      · rw [writeChunks, if_pos more, run_write_bind, full more,
          List.length_replicate, if_neg (by simp)]
        exact run
      · intro x
        rw [bytes, byteAt_written_full]
        by_cases early : fd.position ≤ x ∧ x < fd.position + bmpChunksize
        · rw [if_pos early, ite_self, if_pos (by omega)]
        · rw [if_neg early]
          exact if_congr (by omega) rfl rfl
    · refine ⟨bytesleft, fd, ?_, Nat.le_refl _, by omega, id, by omega, ?_⟩
      · rw [writeChunks, if_neg more]
        rfl
      · intro x
        rw [if_neg (by omega)]

/-! ### Setting a range -/

/-- The mask of the first byte of a range. -/
def leftMask (left : ℕ) : UInt8 := 0xFF >>> UInt8.ofNat (left % 8)

/-- The mask of the last byte of a range. -/
def rightMask (last : ℕ) : UInt8 := 0xFF <<< UInt8.ofNat (7 - last % 8)

theorem highBit_leftMask_mod (left p : ℕ) :
    highBit (leftMask left) (p % 8) = decide (left % 8 ≤ p % 8) :=
  highBit_leftMask (Nat.mod_lt _ (by decide)) (Nat.mod_lt _ (by decide))

theorem highBit_rightMask_mod (last p : ℕ) :
    highBit (rightMask last) (p % 8) = decide (p % 8 ≤ last % 8) :=
  highBit_rightMask (Nat.mod_lt _ (by decide)) (Nat.mod_lt _ (by decide))

/-- The bytes of a file after the positions of a range were added. -/
def RangeSet (old new : List UInt8) (left last : ℕ) : Prop :=
  ∀ x, byteAt new x =
    if x = left / 8 ∧ x = last / 8 then
      byteAt old x ||| (leftMask left &&& rightMask last)
    else if x = left / 8 then byteAt old x ||| leftMask left
    else if x = last / 8 then byteAt old x ||| rightMask last
    else if left / 8 < x ∧ x < last / 8 then 0xFF
    else byteAt old x

/-- With those bytes the positions of the range are in the set. -/
theorem RangeSet.bitAt
    (changed : RangeSet old new left last)
    (ordered : left ≤ last)
    (p : ℕ) :
    bitAt new p = (bitAt old p || decide (left ≤ p ∧ p ≤ last)) := by
  have place := Nat.div_add_mod p 8
  rw [Bitmap.bitAt, Bitmap.bitAt, changed]
  split
  · next both =>
      rw [highBit_or, highBit_and, highBit_leftMask_mod,
        highBit_rightMask_mod, ← Bool.decide_and]
      congr 1
      apply decide_eq_decide.mpr
      omega
  · split
    · rw [highBit_or, highBit_leftMask_mod]
      congr 1
      apply decide_eq_decide.mpr
      omega
    · split
      · rw [highBit_or, highBit_rightMask_mod]
        congr 1
        apply decide_eq_decide.mpr
        omega
      · split
        · rw [highBit_full, decide_eq_true (by omega), Bool.or_true]
        · rw [decide_eq_false (by omega), Bool.or_false]

/-- The bytes behind the first one are filled, but for the last one, which
gets the bits of a mask. -/
theorem run_setRest
    (sys : Sys)
    (fd : Fd)
    (rightmask : UInt8)
    (positive : 0 < bytesleft) :
    ∃ next,
      (setRest sys bytesleft rightmask).run fd = (true, next) ∧
      ∀ x, byteAt next.contents x =
        if x = fd.position + (bytesleft - 1) then
          byteAt fd.contents x ||| rightmask
        else if fd.position ≤ x ∧ x < fd.position + bytesleft then 0xFF
        else byteAt fd.contents x := by
  obtain ⟨rest, filled, run, most, small, known, position, bytes⟩ :=
    run_writeChunks fd (List.replicate (min bytesleft bmpChunksize) 0xFF)
      bytesleft
      (fun more => by
        rw [List.take_replicate, Nat.min_eq_right (Nat.le_of_lt more),
          Nat.min_self])
  have left := known positive
  have cut : (List.replicate (min bytesleft bmpChunksize)
      (0xFF : UInt8)).take (rest - 1) = List.replicate (rest - 1) 0xFF := by
    rw [List.take_replicate, Nat.min_eq_left (by omega)]
  set full := filled.written (List.replicate (rest - 1) 0xFF) with full_eq
  have last : full.position = fd.position + (bytesleft - 1) := by
    rw [full_eq, position_written, List.length_replicate, position]
    omega
  refine ⟨full.written [byteAt full.contents full.position ||| rightmask],
    ?_, ?_⟩
  · rw [setRest, StateT.run_bind, run]
    change StateT.run (write (List.take (rest - 1) _) >>= _) filled = _
    rw [cut, run_write_bind, List.length_replicate, if_neg (by simp),
      run_peekByte_bind]
    rfl
  · intro x
    rw [byteAt_written_one, last]
    by_cases here : x = fd.position + (bytesleft - 1)
    · rw [if_pos here, if_pos here, ← here, full_eq, byteAt_written_full,
        if_neg (by omega), bytes, if_neg (by omega)]
    · rw [if_neg here, if_neg here, full_eq, byteAt_written_full, position,
        bytes]
      by_cases late : fd.position + (bytesleft - rest) ≤ x ∧
          x < fd.position + (bytesleft - rest) + (rest - 1)
      · rw [if_pos late, if_pos (by omega)]
      · rw [if_neg late]
        exact if_congr (by omega) rfl rfl

/-- `bitmap_file_set_range` adds the positions of a range. -/
theorem run_bitmapFileSetRange
    (sys : Sys)
    (fd : Fd)
    (valid : left < right) :
    ∃ next,
      (bitmapFileSetRange sys left right).run fd = (true, next) ∧
      RangeSet fd.contents next.contents left (right - 1) := by
  have seven (n : ℕ) : n &&& 0x7 = n % 8 :=
    Nat.and_two_pow_sub_one_eq_mod n 3
  have eighth (n : ℕ) : n >>> 3 = n / 8 := Nat.shiftRight_eq_div_pow n 3
  have ordered : left / 8 ≤ (right - 1) / 8 :=
    Nat.div_le_div_right (by omega)
  rw [bitmapFileSetRange, if_neg (by omega)]
  simp only [seven, eighth]
  rw [run_lseek_bind, if_neg (by omega), run_peekByte_bind]
  by_cases same : left / 8 = (right - 1) / 8
  · rw [if_pos same, run_write_bind]
    refine ⟨_, rfl, ?_⟩
    intro x
    rw [byteAt_written_one]
    by_cases here : x = left / 8
    · rw [if_pos here, if_pos ⟨here, by omega⟩, here]
      rfl
    · rw [if_neg here, if_neg (by omega), if_neg here, if_neg (by omega),
        if_neg (by omega)]
  · rw [if_neg same, run_write_bind, if_neg (by simp)]
    obtain ⟨next, run, bytes⟩ :=
      run_setRest sys
        (Fd.written { fd with position := left / 8 }
          [byteAt fd.contents (left / 8) ||| leftMask left])
        (rightMask (right - 1))
        (show 0 < (right - 1) / 8 - left / 8 by omega)
    refine ⟨next, run, ?_⟩
    intro x
    rw [bytes, byteAt_written_one, position_written, List.length_singleton]
    dsimp only
    have apart : ¬(x = left / 8 ∧ x = (right - 1) / 8) := by omega
    by_cases first : x = left / 8
    · rw [if_neg (by omega), if_neg (by omega), if_pos first, if_neg apart,
        if_pos first, first]
    · by_cases last : x = (right - 1) / 8
      · rw [if_pos (by omega), if_neg first, if_neg apart, if_neg first,
          if_pos last]
      · rw [if_neg (by omega), if_neg first, if_neg apart, if_neg first,
          if_neg last]
        exact if_congr (by omega) rfl rfl

/-! ### Asking for a range -/

/-- The bytes of a file that `read` finds. -/
def chunkAt (contents : List UInt8) (position count : ℕ) : List UInt8 :=
  (contents.drop position).take count

theorem length_chunkAt (contents : List UInt8) (position count : ℕ) :
    (chunkAt contents position count).length =
      min count (contents.length - position) := by
  rw [chunkAt, List.length_take, List.length_drop]

theorem getD_chunkAt
    (contents : List UInt8)
    (position : ℕ)
    (inside : i < count) :
    (chunkAt contents position count).getD i 0 =
      byteAt contents (position + i) := by
  rw [chunkAt, byteAt, List.getD_eq_getElem?_getD,
    List.getElem?_take_of_lt inside, List.getElem?_drop,
    List.getD_eq_getElem?_getD]

/-- A byte behind the end of the file is not full. -/
theorem byteAt_beyond (beyond : contents.length ≤ x) :
    byteAt contents x = 0 := by
  rw [byteAt, List.getD_eq_getElem?_getD, List.getElem?_eq_none beyond]
  rfl

/-- Whether a chunk was read whole and all its bytes are full. -/
theorem chunkAt_full_iff (contents : List UInt8) (position count : ℕ) :
    ((chunkAt contents position count).length = count ∧
        (chunkAt contents position count).any (· ≠ 0xFF) = false) ↔
      ∀ x, position ≤ x → x < position + count →
        byteAt contents x = 0xFF := by
  have length := length_chunkAt contents position count
  rw [List.any_eq_false]
  constructor
  · rintro ⟨whole, full⟩ x lower upper
    have inside : x - position < count := by omega
    have found := getD_chunkAt contents position inside
    rw [Nat.add_sub_cancel' lower, List.getD_eq_getElem _ _ (by omega)]
      at found
    rw [← found]
    simpa using full _ (List.getElem_mem _)
  · intro full
    have whole : (chunkAt contents position count).length = count := by
      by_contra short
      have last := full (max position contents.length) (Nat.le_max_left _ _)
        (by omega)
      rw [byteAt_beyond (Nat.le_max_right _ _)] at last
      cases last
    refine ⟨whole, ?_⟩
    intro byte member
    obtain ⟨i, inside, rfl⟩ := List.mem_iff_getElem.mp member
    rw [← List.getD_eq_getElem _ 0 inside, getD_chunkAt contents _ (by omega),
      full _ (by omega) (by omega)]
    decide

/-- The loop over the chunks stops early at a byte that is not full. -/
theorem run_readChunks
    (fd : Fd)
    (bytesleft : ℕ) :
    ∃ next,
      next.contents = fd.contents ∧
      ((∃ rest,
          (readChunks bytesleft).run fd = (some rest, next) ∧
          rest ≤ bytesleft ∧ (0 < bytesleft → 0 < rest) ∧
          next.position = fd.position + (bytesleft - rest) ∧
          ∀ x, fd.position ≤ x → x < fd.position + (bytesleft - rest) →
            byteAt fd.contents x = 0xFF) ∨
        ((readChunks bytesleft).run fd = (none, next) ∧
          ∃ x, fd.position ≤ x ∧ x + 1 < fd.position + bytesleft ∧
            byteAt fd.contents x ≠ 0xFF)) := by
  have positive : 0 < bmpChunksize := by decide
  induction bytesleft using Nat.strongRecOn generalizing fd with
  | ind bytesleft later =>
    by_cases more : bmpChunksize < bytesleft
    · have step : (readChunks bytesleft).run fd =
          StateT.run
            (if (chunkAt fd.contents fd.position bmpChunksize).length ≠
                bmpChunksize then return none
              else if (chunkAt fd.contents fd.position bmpChunksize).any
                (· ≠ 0xFF) then return none
              else readChunks (bytesleft - bmpChunksize))
            { fd with
              position := fd.position +
                (chunkAt fd.contents fd.position bmpChunksize).length } := by
        rw [readChunks, if_pos more, run_read_bind]
        rfl
      rw [step]
      by_cases full : ∀ x, fd.position ≤ x → x < fd.position + bmpChunksize →
          byteAt fd.contents x = 0xFF
      · obtain ⟨whole, filled⟩ := (chunkAt_full_iff _ _ _).mpr full
        rw [whole, if_neg (by simp), filled, if_neg (by simp)]
        obtain ⟨next, kept, outcome⟩ :=
          later (bytesleft - bmpChunksize) (by omega)
            { fd with position := fd.position + bmpChunksize }
        refine ⟨next, kept, ?_⟩
        rcases outcome with
          ⟨rest, run, most, some_, position, bytes⟩ |
          ⟨run, x, lower, upper, open_⟩
        · refine Or.inl ⟨rest, run, by omega, by omega, ?_, ?_⟩
          · rw [position]
            dsimp only
            omega
          · intro x lower upper
            by_cases early : x < fd.position + bmpChunksize
            · exact full x lower early
            · apply bytes x <;> dsimp only <;> omega
        · dsimp only at lower upper
          exact Or.inr ⟨run, x, by omega, by omega, open_⟩
      · refine ⟨{ fd with
            position := fd.position +
              (chunkAt fd.contents fd.position bmpChunksize).length },
          rfl, Or.inr ⟨?_, ?_⟩⟩
        · by_cases whole :
              (chunkAt fd.contents fd.position bmpChunksize).length =
                bmpChunksize
          · have unfilled :
                (chunkAt fd.contents fd.position bmpChunksize).any
                  (· ≠ 0xFF) = true := by
              by_contra filled
              exact full ((chunkAt_full_iff _ _ _).mp
                ⟨whole, Bool.eq_false_iff.mpr filled⟩)
            rw [if_neg (not_not.mpr whole), if_pos unfilled]
            rfl
          · rw [if_pos whole]
            rfl
        · by_contra filled
          apply full
          intro x lower upper
          by_contra open_
          exact filled ⟨x, lower, by omega, open_⟩
    · refine ⟨fd, rfl, Or.inl ⟨bytesleft, ?_, Nat.le_refl _, id, by omega, ?_⟩⟩
      · rw [readChunks, if_neg more]
        rfl
      · intro x lower upper
        omega

/-- The final chunk is full, but for its last byte, which has the bits of a
mask. -/
theorem run_issetLast
    (fd : Fd)
    (positive : 0 < rest)
    (some_ : rightmask ≠ 0) :
    ((issetLast rest rightmask).run fd).2.contents = fd.contents ∧
      (((issetLast rest rightmask).run fd).1 = true ↔
        (∀ x, fd.position ≤ x → x < fd.position + (rest - 1) →
            byteAt fd.contents x = 0xFF) ∧
          byteAt fd.contents (fd.position + (rest - 1)) &&& rightmask =
            rightmask) := by
  have cut : (chunkAt fd.contents fd.position rest).take (rest - 1) =
      chunkAt fd.contents fd.position (rest - 1) := by
    rw [chunkAt, List.take_take, Nat.min_eq_left (Nat.sub_le rest 1), chunkAt]
  have length := length_chunkAt fd.contents fd.position rest
  have middle := chunkAt_full_iff fd.contents fd.position (rest - 1)
  rw [length_chunkAt] at middle
  rw [issetLast, run_read_bind, ← chunkAt, cut]
  by_cases whole : (chunkAt fd.contents fd.position rest).length = rest
  · rw [if_neg (not_not.mpr whole), ← middle]
    by_cases full : (chunkAt fd.contents fd.position (rest - 1)).any
        (· ≠ 0xFF) = true
    · rw [if_pos full, full]
      refine ⟨rfl, iff_of_false Bool.false_ne_true ?_⟩
      rintro ⟨⟨-, clean⟩, -⟩
      cases clean
    · rw [if_neg full, getD_chunkAt _ _ (by omega)]
      refine ⟨rfl, ?_⟩
      change decide _ = true ↔ _
      rw [decide_eq_true_iff, iff_and_self]
      intro _
      exact ⟨by omega, Bool.eq_false_iff.mpr full⟩
  · rw [if_pos whole]
    refine ⟨rfl, iff_of_false Bool.false_ne_true ?_⟩
    rintro ⟨-, last⟩
    rw [byteAt_beyond (by omega), UInt8.zero_and] at last
    exact some_ last.symm

/-- Behind the first byte, all bytes are full but for the last one, which has
the bits of a mask. -/
theorem run_issetRest
    (fd : Fd)
    (positive : 0 < bytesleft)
    (some_ : rightmask ≠ 0) :
    ((issetRest bytesleft rightmask).run fd).2.contents = fd.contents ∧
      (((issetRest bytesleft rightmask).run fd).1 = true ↔
        (∀ x, fd.position ≤ x → x < fd.position + (bytesleft - 1) →
            byteAt fd.contents x = 0xFF) ∧
          byteAt fd.contents (fd.position + (bytesleft - 1)) &&& rightmask =
            rightmask) := by
  obtain ⟨next, kept, outcome⟩ := run_readChunks fd bytesleft
  rcases outcome with
    ⟨rest, run, most, known, position, early⟩ |
    ⟨run, x, lower, upper, open_⟩
  · have left := known positive
    have ends : next.position + (rest - 1) =
        fd.position + (bytesleft - 1) := by omega
    have step : (issetRest bytesleft rightmask).run fd =
        (issetLast rest rightmask).run next := by
      rw [issetRest, StateT.run_bind, run]
      rfl
    obtain ⟨after, answer⟩ := run_issetLast next left some_
    rw [step, answer, after, ends, kept]
    refine ⟨rfl, and_congr_left fun _ => ?_⟩
    constructor
    · intro late x lower upper
      by_cases before : x < next.position
      · exact early x lower (by omega)
      · exact late x (by omega) upper
    · intro all x lower upper
      exact all x (by omega) upper
  · rw [issetRest, StateT.run_bind, run]
    refine ⟨kept, iff_of_false Bool.false_ne_true ?_⟩
    intro both
    exact open_ (both.1 x lower (by omega))

/-- The bytes that answer the question for a range. -/
def RangeFull (contents : List UInt8) (left last : ℕ) : Prop :=
  if left / 8 = last / 8 then
    byteAt contents (left / 8) &&& (leftMask left &&& rightMask last) =
      leftMask left &&& rightMask last
  else
    byteAt contents (left / 8) &&& leftMask left = leftMask left ∧
      (∀ x, left / 8 < x → x < last / 8 → byteAt contents x = 0xFF) ∧
      byteAt contents (last / 8) &&& rightMask last = rightMask last

/-- A byte has the bits of a mask. -/
theorem byteAt_mask_iff (contents : List UInt8) (x : ℕ) (mask : UInt8) :
    byteAt contents x &&& mask = mask ↔
      ∀ p, p / 8 = x → highBit mask (p % 8) = true →
        bitAt contents p = true := by
  rw [and_eq_mask_iff]
  constructor
  · rintro covered p rfl masked
    exact covered (p % 8) (Nat.mod_lt _ (by decide)) masked
  · intro covered i small masked
    have found := covered (8 * x + i) (by omega)
    rw [bitAt, show (8 * x + i) / 8 = x by omega,
      show (8 * x + i) % 8 = i by omega] at found
    exact found masked

/-- A byte has every bit. -/
theorem byteAt_full_iff (contents : List UInt8) (x : ℕ) :
    byteAt contents x = 0xFF ↔
      ∀ p, p / 8 = x → bitAt contents p = true := by
  have whole : byteAt contents x &&& 0xFF = byteAt contents x := by
    apply byte_ext_high
    intro i _
    rw [highBit_and, highBit_full, Bool.and_true]
  rw [← whole, byteAt_mask_iff]
  simp only [highBit_full, true_implies]

/-- The bytes of a range are as they should be when all its positions are in
the set. -/
theorem rangeFull_iff (contents : List UInt8) (ordered : left ≤ last) :
    RangeFull contents left last ↔
      ∀ p, left ≤ p → p ≤ last → bitAt contents p = true := by
  have bytes : left / 8 ≤ last / 8 := Nat.div_le_div_right ordered
  rw [RangeFull]
  split
  · next same =>
      simp only [byteAt_mask_iff, highBit_and, highBit_leftMask_mod,
        highBit_rightMask_mod, Bool.and_eq_true, decide_eq_true_iff]
      constructor
      · intro covered p lower upper
        exact covered p (by omega) (by omega)
      · intro all p here inside
        exact all p (by omega) (by omega)
  · next apart =>
      simp only [byteAt_mask_iff, byteAt_full_iff, highBit_leftMask_mod,
        highBit_rightMask_mod, decide_eq_true_iff]
      constructor
      · rintro ⟨first, middle, final⟩ p lower upper
        by_cases early : p / 8 = left / 8
        · exact first p early (by omega)
        · by_cases late : p / 8 = last / 8
          · exact final p late (by omega)
          · exact middle (p / 8) (by omega) (by omega) p rfl
      · intro all
        refine ⟨?_, ?_, ?_⟩
        · intro p here inside
          exact all p (by omega) (by omega)
        · intro x lower upper p here
          exact all p (by omega) (by omega)
        · intro p here inside
          exact all p (by omega) (by omega)

/-- From its first byte on, `bitmap_file_isset` looks at those bytes. -/
theorem run_issetFrom
    (fd : Fd)
    (position : fd.position = left / 8 + 1)
    (ordered : left / 8 ≤ last / 8) :
    ((issetFrom (left / 8) (last / 8) (leftMask left) (rightMask last)
        (byteAt fd.contents (left / 8))).run fd).2.contents = fd.contents ∧
      (((issetFrom (left / 8) (last / 8) (leftMask left) (rightMask last)
          (byteAt fd.contents (left / 8))).run fd).1 = true ↔
        RangeFull fd.contents left last) := by
  rw [issetFrom, RangeFull]
  by_cases same : left / 8 = last / 8
  · rw [if_pos same, if_pos same]
    exact ⟨rfl, decide_eq_true_iff⟩
  · rw [if_neg same, if_neg same]
    by_cases first :
        byteAt fd.contents (left / 8) &&& leftMask left = leftMask left
    · have someMask : rightMask last ≠ 0 := by
        intro none_
        have bit := highBit_rightMask_mod last 0
        rw [none_] at bit
        cases bit
      have ends : left / 8 + 1 + (last / 8 - left / 8 - 1) = last / 8 := by
        omega
      obtain ⟨kept, answer⟩ :=
        run_issetRest fd (show 0 < last / 8 - left / 8 by omega) someMask
      rw [if_neg (not_not.mpr first), answer, position, ends]
      exact ⟨kept, fun rest => ⟨first, rest⟩, fun all => all.2⟩
    · rw [if_pos first]
      refine ⟨rfl, iff_of_false Bool.false_ne_true ?_⟩
      intro all
      exact first all.1

/-- `bitmap_file_isset` asks whether all positions of a range are in the
set. -/
theorem run_bitmapFileIsset
    (sys : Sys)
    (fd : Fd)
    (valid : left < right) :
    ((bitmapFileIsset sys left right).run fd).2.contents = fd.contents ∧
      (((bitmapFileIsset sys left right).run fd).1 = true ↔
        ∀ p, left ≤ p → p < right → bitAt fd.contents p = true) := by
  have seven (n : ℕ) : n &&& 0x7 = n % 8 :=
    Nat.and_two_pow_sub_one_eq_mod n 3
  have eighth (n : ℕ) : n >>> 3 = n / 8 := Nat.shiftRight_eq_div_pow n 3
  have ordered : left ≤ right - 1 := by omega
  have inclusive : (∀ p, left ≤ p → p < right → bitAt fd.contents p = true) ↔
      RangeFull fd.contents left (right - 1) := by
    rw [rangeFull_iff fd.contents ordered]
    refine forall_congr' fun p => imp_congr_right fun _ => ?_
    rw [Nat.lt_iff_le_pred (by omega)]
  rw [inclusive, bitmapFileIsset, if_neg (by omega)]
  simp only [seven, eighth]
  rw [run_lseek_bind, if_neg (by omega), run_read_bind]
  cases ahead : fd.contents.drop (left / 8) with
  | nil =>
      refine ⟨rfl, iff_of_false Bool.false_ne_true ?_⟩
      rw [rangeFull_iff _ ordered]
      intro all
      have first := all left (Nat.le_refl _) ordered
      rw [bitAt, byteAt_beyond (List.drop_eq_nil_iff.mp ahead)] at first
      exact absurd first (by simp [highBit])
  | cons byte behind =>
      have found : byteAt fd.contents (left / 8) = byte := by
        rw [byteAt, List.getD_eq_getElem?_getD, ← List.head?_drop, ahead]
        rfl
      have rest := run_issetFrom { fd with position := left / 8 + 1 } rfl
        (Nat.div_le_div_right ordered)
      rw [found] at rest
      exact rest

/-! ### Runs -/

/-- Add the positions of a sequence of ranges. -/
def setRanges (sys : Sys) (ranges : List (ℕ × ℕ)) : FdM (List Bool) :=
  ranges.mapM fun range => bitmapFileSetRange sys range.1 range.2

/-- Whether a position lies in one of the ranges. -/
def covered (ranges : List (ℕ × ℕ)) (p : ℕ) : Bool :=
  ranges.any fun range => decide (range.1 ≤ p ∧ p < range.2)

/-- A run adds the positions of its ranges to the set. -/
theorem run_setRanges
    (sys : Sys)
    (fd : Fd)
    (valid : ∀ range ∈ ranges, range.1 < range.2) :
    ((setRanges sys ranges).run fd).1 = List.replicate ranges.length true ∧
      ∀ p, bitAt ((setRanges sys ranges).run fd).2.contents p =
        (bitAt fd.contents p || covered ranges p) := by
  induction ranges generalizing fd with
  | nil =>
      refine ⟨rfl, ?_⟩
      intro p
      exact (Bool.or_false _).symm
  | cons range ranges later =>
      have first := valid range List.mem_cons_self
      obtain ⟨next, run, changed⟩ := run_bitmapFileSetRange sys fd first
      obtain ⟨answers, bits⟩ := later next
        (fun other member => valid other (List.mem_cons_of_mem range member))
      have step : (setRanges sys (range :: ranges)).run fd =
          (true :: ((setRanges sys ranges).run next).1,
            ((setRanges sys ranges).run next).2) := by
        rw [setRanges, List.mapM_cons, StateT.run_bind, run]
        rfl
      rw [step]
      refine ⟨?_, ?_⟩
      · rw [answers]
        rfl
      · intro p
        rw [bits, changed.bitAt (by omega), Bool.or_assoc, covered, covered,
          List.any_cons]
        congr 2
        apply decide_eq_decide.mpr
        omega

/-- In the empty file no position is in the set. -/
theorem bitAt_nil (p : ℕ) : bitAt [] p = false := by
  rw [bitAt, byteAt_beyond (Nat.zero_le _)]
  exact lowBit_zero _

/-- The bitmap file is an exact set of positions: after every run of
`bitmap_file_set_range` on an empty file, `bitmap_file_isset` holds of just
the ranges that the ranges of the run cover. -/
theorem bitmap_file_exact
    (sys : Sys)
    (position : ℕ)
    (ranges : List (ℕ × ℕ))
    (valid : ∀ range ∈ ranges, range.1 < range.2)
    (run : (setRanges sys ranges).run ⟨[], position⟩ = (answers, fd)) :
    answers = List.replicate ranges.length true ∧
      ∀ left right, left < right →
        (((bitmapFileIsset sys left right).run fd).1 = true ↔
          ∀ p, left ≤ p → p < right →
            ∃ range ∈ ranges, range.1 ≤ p ∧ p < range.2) := by
  obtain ⟨all, bits⟩ := run_setRanges sys ⟨[], position⟩ valid
  rw [run] at all bits
  refine ⟨all, ?_⟩
  intro left right ordered
  rw [(run_bitmapFileIsset sys fd ordered).2]
  refine forall_congr' fun p =>
    imp_congr_right fun _ => imp_congr_right fun _ => ?_
  rw [bits, bitAt_nil, Bool.false_or, covered, List.any_eq_true]
  simp only [decide_eq_true_iff]

/-- A range within a byte, and one of several chunks that begins and ends in
the middle of a byte. -/
theorem bitmap_file_exact_chunks :
    ((setRanges ⟨fun _ _ _ => none⟩ [(3, 5), (13, 100003)]).run
        ⟨[], 0⟩).1 = [true, true] ∧
      ∀ left right, left < right →
        (((bitmapFileIsset ⟨fun _ _ _ => none⟩ left right).run
            ((setRanges ⟨fun _ _ _ => none⟩ [(3, 5), (13, 100003)]).run
              ⟨[], 0⟩).2).1 = true ↔
          ∀ p, left ≤ p → p < right →
            ∃ range ∈ [(3, 5), (13, 100003)], range.1 ≤ p ∧ p < range.2) :=
  bitmap_file_exact ⟨fun _ _ _ => none⟩ 0 [(3, 5), (13, 100003)]
    (by simp) (Prod.eta _).symm

end Bitmap
end Gdpfs
