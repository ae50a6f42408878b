import Gdpfs.Store.Bits
import Mathlib.Logic.Function.Basic

/-!
# The bitmap of reserved handles

The functions of `bitmap.c`.  A bitmap is a header with the data bytes behind
it, so an index that is too large reads or writes whatever lies behind the
bitmap in memory.  The model keeps all of that memory, and the indices a
function has read or written.
-/

namespace Gdpfs
namespace Bitmap

open Bits

/-- The header `bitmap_t`, without its mutex. -/
structure BitmapT where
  /-- The number of bits. -/
  size : UInt64
  deriving DecidableEq, Repr

/-- The memory from `data[0]` of a bitmap on. -/
structure Memory where
  /-- The bytes, those behind the bitmap included. -/
  data : ℕ → UInt8
  /-- The indices that were read or written so far. -/
  touched : List ℕ

/-- The functions of `bitmap.c` read and write the memory. -/
abbrev BitmapM := StateM Memory

/-- Read `data[byte]`. -/
def load (byte : ℕ) : BitmapM UInt8 := do
  modify fun memory => { memory with touched := memory.touched ++ [byte] }
  return (← get).data byte

/-- Write `data[byte]`. -/
def store (byte : ℕ) (value : UInt8) : BitmapM Unit :=
  modify fun memory =>
    { data := Function.update memory.data byte value
      touched := memory.touched ++ [byte] }

/-- `byte_size`, in the arithmetic of `size_t`. -/
def byteSize (bitSize : UInt64) : ℕ := (1 + (bitSize - 1) / 8).toNat

/-- What the world outside of `bitmap.c` does for `bitmap_create`. -/
structure Allocation where
  /-- Whether `ep_mem_zalloc` finds memory. -/
  granted : Bool
  /-- What `ep_thr_mutex_init` returns. -/
  mutexErr : Int
  /-- The memory behind the allocation. -/
  beyond : ℕ → UInt8

/-- `bitmap_create`; the memory is zeroed as far as the allocation goes. -/
def bitmapCreate (allocation : Allocation) (size : UInt64) :
    Option (BitmapT × Memory) :=
  if allocation.granted then
    if allocation.mutexErr ≠ 0 then none
    else
      some (⟨size⟩,
        { data := fun byte =>
            if byte < byteSize size then 0 else allocation.beyond byte
          touched := [] })
  else none

/-- The first loop of `bitmap_reserve`, which looks at a byte before it
compares the index with the number of bytes. -/
def skipFull (bytes byte : ℕ) : BitmapM ℕ := do
  if (← load byte) = 0xFF ∧ byte < bytes then
    skipFull bytes (byte + 1)
  else
    return byte
termination_by bytes - byte

/-- The number of bits `bitmap_reserve` examines in the byte where its first
loop stopped. -/
def bitLim (size : UInt64) (byte : ℕ) : ℕ :=
  if byte = byteSize size - 1 then ((size - 1) % 8 + 1).toNat
  else if byte = byteSize size then 0
  else 8

/-- The second loop of `bitmap_reserve`. -/
def reserveIn (byte lim bit : ℕ) : BitmapM UInt64 := do
  if bit < lim then
    if ((← load byte) >>> UInt8.ofNat bit) &&& 1 = 0 then
      store byte ((← load byte) ||| 1 <<< UInt8.ofNat bit)
      return UInt64.ofNat (byte * 8 + bit)
    else
      reserveIn byte lim (bit + 1)
  else
    return -1
termination_by lim - bit

/-- `bitmap_reserve`. -/
def bitmapReserve (bmp : Option BitmapT) : BitmapM UInt64 :=
  match bmp with
  | none => return -1
  | some bmp => do
      let byte ← skipFull (byteSize bmp.size) 0
      reserveIn byte (bitLim bmp.size byte) 0

/-- `bitmap_release`. -/
def bitmapRelease (bmp : Option BitmapT) (val : UInt64) : BitmapM Int :=
  match bmp with
  | none => return -1
  | some bmp =>
      if val > bmp.size then return -1
      else do
        let byte := val.toNat / 8
        let bit := UInt8.ofNat (val.toNat % 8)
        let field ← load byte
        if (field >>> bit) &&& 1 ≠ 1 then
          return -1
        else
          store byte ((← load byte) &&& ~~~(1 <<< bit))
          return 0

/-- `bitmap_set`. -/
def bitmapSet (bmp : Option BitmapT) (val : UInt64) : BitmapM Int :=
  match bmp with
  | none => return -1
  | some bmp =>
      if val > bmp.size then return -1
      else do
        let byte := val.toNat / 8
        let bit := UInt8.ofNat (val.toNat % 8)
        let field ← load byte
        if (field >>> bit) &&& 1 ≠ 0 then
          return -1
        else
          store byte ((← load byte) ||| 1 <<< bit)
          return 0

/-- `bitmap_is_set`. -/
def bitmapIsSet (bmp : Option BitmapT) (val : UInt64) : BitmapM Int :=
  match bmp with
  | none => return -1
  | some bmp =>
      if val > bmp.size then return -1
      else do
        let byte := val.toNat / 8
        let bit := UInt8.ofNat (val.toNat % 8)
        return (((← load byte) >>> bit) &&& 1).toNat

/-- The number of handles of `gdpfs_file.c`. -/
def maxFhs : ℕ := 1024

/-- `lookup_fh`: the index at which it reads `files`, if it does. -/
def lookupFh (fhs : Option BitmapT) (fh : UInt64) : BitmapM (Option ℕ) := do
  let set ← bitmapIsSet fhs fh
  if set < 0 then return none
  else return some fh.toNat

/-! ### What the functions do -/

/-- Bit number `i` of a bitmap. -/
def isBit (data : ℕ → UInt8) (i : ℕ) : Bool := lowBit (data (i / 8)) (i % 8)

theorem run_load_bind
    (byte : ℕ)
    (rest : UInt8 → BitmapM α)
    (memory : Memory) :
    (load byte >>= rest).run memory =
      (rest (memory.data byte)).run
        { memory with touched := memory.touched ++ [byte] } := rfl

theorem run_store_bind
    (byte : ℕ)
    (value : UInt8)
    (rest : Unit → BitmapM α)
    (memory : Memory) :
    (store byte value >>= rest).run memory =
      (rest ()).run
        { data := Function.update memory.data byte value
          touched := memory.touched ++ [byte] } := rfl

/-- Putting a mask over one byte sets one bit. -/
theorem isBit_or
    (data : ℕ → UInt8)
    (small : bit < 8)
    (i : ℕ) :
    isBit (Function.update data byte
      (data byte ||| 1 <<< UInt8.ofNat bit)) i =
        (isBit data i || decide (i = byte * 8 + bit)) := by
  have inside : i % 8 < 8 := Nat.mod_lt i (by decide)
  by_cases here : i / 8 = byte
  · have place : i % 8 = bit ↔ i = byte * 8 + bit := by omega
    rw [isBit, isBit, here, Function.update_self, lowBit_or,
      lowBit_one_shiftLeft small inside, decide_eq_decide.mpr place]
  · have apart : ¬ i = byte * 8 + bit := by omega
    rw [isBit, isBit, Function.update_of_ne here, decide_eq_false apart,
      Bool.or_false]

/-- Masking one byte clears one bit. -/
theorem isBit_and_not
    (data : ℕ → UInt8)
    (small : bit < 8)
    (i : ℕ) :
    isBit (Function.update data byte
      (data byte &&& ~~~(1 <<< UInt8.ofNat bit))) i =
        (isBit data i && !decide (i = byte * 8 + bit)) := by
  have inside : i % 8 < 8 := Nat.mod_lt i (by decide)
  by_cases here : i / 8 = byte
  · have place : i % 8 = bit ↔ i = byte * 8 + bit := by omega
    rw [isBit, isBit, here, Function.update_self, lowBit_and,
      lowBit_not _ inside, lowBit_one_shiftLeft small inside,
      decide_eq_decide.mpr place]
  · have apart : ¬ i = byte * 8 + bit := by omega
    rw [isBit, isBit, Function.update_of_ne here, decide_eq_false apart,
      Bool.not_false, Bool.and_true]

/-- The first loop of `bitmap_reserve` stops at the first byte that is not
full, or behind the last one; it has then looked at that byte, too. -/
theorem run_skipFull
    (memory : Memory)
    (below : byte ≤ bytes) :
    ∃ stop,
      byte ≤ stop ∧ stop ≤ bytes ∧
      (∀ i, byte ≤ i → i < stop → memory.data i = 0xFF) ∧
      (stop < bytes → memory.data stop ≠ 0xFF) ∧
      (skipFull bytes byte).run memory =
        (stop,
          { memory with
            touched := memory.touched ++ List.range' byte (stop + 1 - byte) })
    := by
  induction left : bytes - byte generalizing byte memory with
  | zero =>
      have last : byte = bytes := by omega
      subst last
      refine ⟨byte, Nat.le_refl _, Nat.le_refl _, ?_, ?_, ?_⟩
      · intro i lower upper
        omega
      · intro beyond
        omega
      · rw [skipFull, run_load_bind, if_neg (by omega), Nat.add_sub_cancel_left]
        rfl
  | succ left next =>
      by_cases full : memory.data byte = 0xFF
      · obtain ⟨stop, lower, upper, filled, open_, run⟩ :=
          next { memory with touched := memory.touched ++ [byte] }
            (show byte + 1 ≤ bytes by omega) (by omega)
        refine ⟨stop, by omega, upper, ?_, open_, ?_⟩
        · intro i least inside
          rcases Nat.eq_or_lt_of_le least with same | later
          · rw [← same, full]
          · exact filled i later inside
        · have more : stop + 1 - byte = (stop + 1 - (byte + 1)) + 1 := by
            omega
          rw [skipFull, run_load_bind, if_pos ⟨full, by omega⟩, run, more,
            List.range'_succ]
          simp only [List.append_assoc, List.singleton_append]
      · refine ⟨byte, Nat.le_refl _, below, ?_, ?_, ?_⟩
        · intro i lower upper
          omega
        · intro _
          exact full
        · rw [skipFull, run_load_bind, if_neg (fun both => full both.1),
            Nat.add_sub_cancel_left]
          rfl

/-- The second loop of `bitmap_reserve` takes the first bit that is not set,
and looks at no other byte. -/
theorem run_reserveIn
    (memory : Memory)
    (small : lim ≤ 8)
    (byte bit : ℕ) :
    ∃ next,
      memory.touched ⊆ next.touched ∧
      (∀ i ∈ next.touched, i ∈ memory.touched ∨ i = byte ∧ bit < lim) ∧
      ((∃ found,
          bit ≤ found ∧ found < lim ∧
          lowBit (memory.data byte) found = false ∧
          (∀ i, bit ≤ i → i < found → lowBit (memory.data byte) i = true) ∧
          next.data = Function.update memory.data byte
            (memory.data byte ||| 1 <<< UInt8.ofNat found) ∧
          (reserveIn byte lim bit).run memory =
            (UInt64.ofNat (byte * 8 + found), next)) ∨
        ((∀ i, bit ≤ i → i < lim → lowBit (memory.data byte) i = true) ∧
          next.data = memory.data ∧
          (reserveIn byte lim bit).run memory = (-1, next))) := by
  induction left : lim - bit generalizing bit memory with
  | zero =>
      refine ⟨memory, List.Subset.refl _, ?_, Or.inr ⟨?_, rfl, ?_⟩⟩
      · intro i seen
        exact Or.inl seen
      · intro i lower upper
        omega
      · rw [reserveIn, if_neg (by omega)]
        rfl
  | succ left later =>
      have inside : bit < lim := by omega
      have shift : bit < 8 := by omega
      let seen : Memory :=
        { memory with touched := memory.touched ++ [byte] }
      cases taken : lowBit (memory.data byte) bit with
      | false =>
          refine ⟨⟨Function.update memory.data byte
              (memory.data byte ||| 1 <<< UInt8.ofNat bit),
            memory.touched ++ [byte] ++ [byte] ++ [byte]⟩, ?_, ?_,
            Or.inl ⟨bit, Nat.le_refl _, inside, taken, ?_, rfl, ?_⟩⟩
          · intro i old
            simp [old]
          · intro i member
            simp only [List.mem_append, List.mem_singleton] at member
            rcases member with ((old | here) | here) | here
            · exact Or.inl old
            all_goals exact Or.inr ⟨here, inside⟩
          · intro i lower upper
            omega
          · rw [reserveIn, if_pos inside, run_load_bind,
              if_pos ((shiftRight_and_one_eq_zero _ shift).mpr taken),
              run_load_bind, run_store_bind]
            rfl
      | true =>
          obtain ⟨next, keeps, touches, outcome⟩ :=
            later seen (bit + 1) (by omega)
          have step : (reserveIn byte lim bit).run memory =
              (reserveIn byte lim (bit + 1)).run seen := by
            rw [reserveIn, if_pos inside, run_load_bind, if_neg]
            rw [shiftRight_and_one_eq_zero _ shift, taken]
            decide
          have extended (stop : ℕ)
              (rest : ∀ i, bit + 1 ≤ i → i < stop →
                lowBit (memory.data byte) i = true)
              (i : ℕ) (lower : bit ≤ i) (upper : i < stop) :
              lowBit (memory.data byte) i = true := by
            rcases Nat.eq_or_lt_of_le lower with same | after
            · rw [← same, taken]
            · exact rest i after upper
          refine ⟨next, ?_, ?_, ?_⟩
          · intro i old
            exact keeps (List.mem_append_left _ old)
          · intro i member
            rcases touches i member with old | ⟨here, -⟩
            · rcases List.mem_append.mp old with before | now
              · exact Or.inl before
              · exact Or.inr ⟨List.mem_singleton.mp now, inside⟩
            · exact Or.inr ⟨here, inside⟩
          · rw [step]
            rcases outcome with
              ⟨found, lower, upper, free, filled, data, run⟩ |
              ⟨filled, data, run⟩
            · exact Or.inl ⟨found, by omega, upper, free,
                extended found filled, data, run⟩
            · exact Or.inr ⟨extended lim filled, data, run⟩

theorem toNat_sub_one {size : UInt64} (positive : 0 < size) :
    (size - 1).toNat = size.toNat - 1 := by
  rw [UInt64.toNat_sub_of_le _ _ (UInt64.le_iff_toNat_le.mpr ?_)]
  · rfl
  · exact UInt64.lt_iff_toNat_lt.mp positive

/-- The number of bytes of a bitmap that is not empty. -/
theorem byteSize_eq {size : UInt64} (positive : 0 < size) :
    byteSize size = (size.toNat - 1) / 8 + 1 := by
  have bound := size.toNat_lt
  have eight : (8 : UInt64).toNat = 8 := rfl
  rw [byteSize, UInt64.toNat_add, UInt64.toNat_div, toNat_sub_one positive,
    eight, Nat.mod_eq_of_lt] <;> simp <;> omega

theorem bitLim_le (size : UInt64) (byte : ℕ) :
    bitLim size byte ≤ 8 := by
  have eight : (8 : UInt64).toNat = 8 := rfl
  rw [bitLim]
  split
  · rw [UInt64.toNat_add, UInt64.toNat_mod, eight, Nat.mod_eq_of_lt] <;>
      simp <;> omega
  · split <;> decide

/-- `bitmap_reserve` examines the bits below the size. -/
theorem lt_bitLim
    {size : UInt64}
    (positive : 0 < size)
    (below : byte ≤ byteSize size)
    (small : bit < 8) :
    bit < bitLim size byte ↔ byte * 8 + bit < size.toNat := by
  have eight : (8 : UInt64).toNat = 8 := rfl
  have one : (1 : UInt64).toNat = 1 := rfl
  have count := byteSize_eq positive
  have least : 0 < size.toNat := UInt64.lt_iff_toNat_lt.mp positive
  rw [bitLim]
  split
  · next last =>
      rw [UInt64.toNat_add, UInt64.toNat_mod, toNat_sub_one positive,
        eight, one, Nat.mod_eq_of_lt (by omega)]
      omega
  · split <;> omega

/-- `bitmap_release` clears a bit that is set. -/
theorem run_bitmapRelease
    {bmp : BitmapT}
    (memory : Memory)
    (inside : val ≤ bmp.size) :
    (bitmapRelease (some bmp) val).run memory =
      if isBit memory.data val.toNat then
        (0, ⟨Function.update memory.data (val.toNat / 8)
              (memory.data (val.toNat / 8) &&&
                ~~~(1 <<< UInt8.ofNat (val.toNat % 8))),
            memory.touched ++ List.replicate 3 (val.toNat / 8)⟩)
      else (-1, { memory with
        touched := memory.touched ++ [val.toNat / 8] }) := by
  have small : val.toNat % 8 < 8 := Nat.mod_lt _ (by decide)
  rw [bitmapRelease, if_neg (UInt64.not_lt.mpr inside), run_load_bind]
  cases taken : isBit memory.data val.toNat with
  | false =>
      rw [if_pos ?_]
      · rfl
      · rw [Ne, shiftRight_and_one_eq_one _ small]
        exact Bool.eq_false_iff.mp taken
  | true =>
      rw [if_neg ?_, run_load_bind, run_store_bind]
      · rw [List.append_assoc, List.append_assoc]
        rfl
      · rw [Ne, shiftRight_and_one_eq_one _ small, not_not]
        exact taken

/-- `bitmap_set` sets a bit that is clear. -/
theorem run_bitmapSet
    {bmp : BitmapT}
    (memory : Memory)
    (inside : val ≤ bmp.size) :
    (bitmapSet (some bmp) val).run memory =
      if isBit memory.data val.toNat then
        (-1, { memory with touched := memory.touched ++ [val.toNat / 8] })
      else
        (0, ⟨Function.update memory.data (val.toNat / 8)
              (memory.data (val.toNat / 8) |||
                1 <<< UInt8.ofNat (val.toNat % 8)),
            memory.touched ++ List.replicate 3 (val.toNat / 8)⟩) := by
  have small : val.toNat % 8 < 8 := Nat.mod_lt _ (by decide)
  rw [bitmapSet, if_neg (UInt64.not_lt.mpr inside), run_load_bind]
  cases taken : isBit memory.data val.toNat with
  | false =>
      rw [if_neg ?_, run_load_bind, run_store_bind]
      · rw [List.append_assoc, List.append_assoc]
        rfl
      · rw [Ne, shiftRight_and_one_eq_zero _ small, not_not]
        exact taken
  | true =>
      rw [if_pos ?_]
      · rfl
      · rw [Ne, shiftRight_and_one_eq_zero _ small]
        exact fun clear => Bool.noConfusion (clear.symm.trans taken)

/-- `bitmap_is_set` reads a bit. -/
theorem run_bitmapIsSet
    {bmp : BitmapT}
    (memory : Memory)
    (inside : val ≤ bmp.size) :
    (bitmapIsSet (some bmp) val).run memory =
      (if isBit memory.data val.toNat then 1 else 0,
        { memory with touched := memory.touched ++ [val.toNat / 8] }) := by
  have small : val.toNat % 8 < 8 := Nat.mod_lt _ (by decide)
  rw [bitmapIsSet, if_neg (UInt64.not_lt.mpr inside), run_load_bind,
    shiftRight_and_one _ small, isBit]
  split <;> rfl

/-- `bitmap_reserve` takes the first bit below the size that is not set.  It
has then looked at the bytes up to `stop`, the first one that is not full. -/
theorem run_bitmapReserve
    {bmp : BitmapT}
    (memory : Memory)
    (positive : 0 < bmp.size) :
    ∃ stop next,
      stop ≤ byteSize bmp.size ∧
      (∀ i < stop, memory.data i = 0xFF) ∧
      (stop < byteSize bmp.size → memory.data stop ≠ 0xFF) ∧
      stop ∈ next.touched ∧
      (∀ i ∈ next.touched, i ∈ memory.touched ∨ i ≤ stop) ∧
      ((∃ found,
          found < bmp.size.toNat ∧
          isBit memory.data found = false ∧
          (∀ i < found, isBit memory.data i = true) ∧
          (∀ i, isBit next.data i =
            (isBit memory.data i || decide (i = found))) ∧
          (bitmapReserve (some bmp)).run memory =
            (UInt64.ofNat found, next)) ∨
        ((∀ i < bmp.size.toNat, isBit memory.data i = true) ∧
          next.data = memory.data ∧
          (bitmapReserve (some bmp)).run memory = (-1, next))) := by
  obtain ⟨stop, -, upper, filled, opened, scanned⟩ :=
    run_skipFull memory (Nat.zero_le (byteSize bmp.size))
  have limit : bitLim bmp.size stop ≤ 8 := bitLim_le bmp.size stop
  let scan : Memory :=
    { memory with touched := memory.touched ++ List.range' 0 (stop + 1) }
  obtain ⟨next, keeps, touches, outcome⟩ :=
    run_reserveIn scan limit stop 0
  have run : (bitmapReserve (some bmp)).run memory =
      (reserveIn stop (bitLim bmp.size stop) 0).run scan := by
    rw [bitmapReserve, StateT.run_bind, scanned]
    rfl
  have early : ∀ i < stop * 8, isBit memory.data i = true := by
    intro i low
    rw [isBit, filled (i / 8) (Nat.zero_le _) (by omega)]
    exact lowBit_full (Nat.mod_lt i (by decide))
  have here (i : ℕ) (same : i / 8 = stop) :
      isBit memory.data i = lowBit (memory.data stop) (i % 8) := by
    rw [isBit, same]
  refine ⟨stop, next, upper, ?_, opened, ?_, ?_, ?_⟩
  · intro i low
    exact filled i (Nat.zero_le _) low
  · apply keeps
    simp [scan]
  · intro i member
    rcases touches i member with old | ⟨same, -⟩
    · rcases List.mem_append.mp old with before | scanned
      · exact Or.inl before
      · have range := List.mem_range'_1.mp scanned
        exact Or.inr (by omega)
    · exact Or.inr (Nat.le_of_eq same)
  · rw [run]
    rcases outcome with
      ⟨found, -, inside, free, set, data, reserved⟩ | ⟨set, data, refused⟩
    · have small : found < 8 := by omega
      refine Or.inl ⟨stop * 8 + found, ?_, ?_, ?_, ?_, reserved⟩
      · exact (lt_bitLim positive upper small).mp inside
      · rw [here _ (by omega), show (stop * 8 + found) % 8 = found by omega]
        exact free
      · intro i low
        by_cases before : i < stop * 8
        · exact early i before
        · rw [here i (by omega)]
          exact set (i % 8) (Nat.zero_le _) (by omega)
      · intro i
        rw [data]
        exact isBit_or memory.data small i
    · refine Or.inr ⟨?_, data, refused⟩
      intro i inside
      rcases Nat.lt_trichotomy (i / 8) stop with before | same | behind
      · exact early i (by omega)
      · have examined : i % 8 < bitLim bmp.size stop :=
          (lt_bitLim positive upper (Nat.mod_lt i (by decide))).mpr
            (by omega)
        rw [here i same]
        exact set (i % 8) (Nat.zero_le _) examined
      · -- Every bit of this byte was examined, but the byte is not full.
        have count := byteSize_eq positive
        refine absurd ?_ (opened (by omega))
        apply byte_ext
        intro bit small
        rw [lowBit_full small]
        exact set bit (Nat.zero_le _)
          ((lt_bitLim positive upper small).mpr (by omega))

end Bitmap
end Gdpfs
