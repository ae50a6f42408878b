import Gdpfs.Log.Precreate
import Gdpfs.Store.Bytes
import Mathlib.Data.List.GetD
import Mathlib.Data.List.TakeWhile

/-!
# Directory files (`gdpfs_dir.c`)

A directory is a file of entries of one size.  An entry holds the name of a log,
a flag, and the name of a file as a C string in an array.
-/

namespace Gdpfs
namespace Dir

open Log File

/-- `NAME_MAX_GDPFS`. -/
def nameMaxGdpfs : Nat := 255

/-! ## C strings -/

/-- The string in an array: its bytes before the first NUL. -/
def cstr (bytes : List UInt8) : List UInt8 :=
  bytes.takeWhile (· ≠ 0)

/-- The `n` bytes that `strncpy` writes. -/
def strncpy (src : List UInt8) (n : Nat) : List UInt8 :=
  (cstr src).take n ++ List.replicate (n - (cstr src).length) 0

@[simp] theorem length_strncpy (src : List UInt8) (n : Nat) :
    (strncpy src n).length = n := by
  rw [strncpy, List.length_append, List.length_take, List.length_replicate]
  omega

theorem cstr_eq_self
    (clean : 0 ∉ name) :
    cstr name = name := by
  refine List.takeWhile_eq_self_iff.mpr fun byte member => ?_
  exact decide_eq_true fun isNul => clean (isNul ▸ member)

theorem zero_notMem_cstr (bytes : List UInt8) : 0 ∉ cstr bytes := by
  intro member
  rw [cstr] at member
  have nonzero := List.mem_takeWhile_imp member
  exact of_decide_eq_true nonzero rfl

/-- A string ends before a NUL that follows it. -/
theorem cstr_append_zero
    (clean : 0 ∉ name)
    (rest : List UInt8) :
    cstr (name ++ 0 :: rest) = name := by
  have whole : ∀ byte ∈ name, decide (byte ≠ 0) = true := fun byte member =>
    decide_eq_true fun isNul => clean (isNul ▸ member)
  rw [cstr, List.takeWhile_append_of_pos whole,
    List.takeWhile_cons_of_neg (by decide), List.append_nil]

/-- The string that `strncpy` leaves if a NUL is written behind it. -/
theorem cstr_strncpy (src : List UInt8) (n : Nat) :
    cstr (strncpy src n ++ [0]) = (cstr src).take n := by
  have clean : 0 ∉ (cstr src).take n := fun member =>
    zero_notMem_cstr src (List.mem_of_mem_take member)
  rw [strncpy, List.append_assoc]
  cases n - (cstr src).length with
  | zero => exact cstr_append_zero clean []
  | succ more => exact cstr_append_zero clean _

/-! ## Entries -/

/-- `gdpfs_dir_entry_phys_t`. -/
@[ext] structure PhysEnt where
  gname : GdpName
  inUse : Bool
  name : Vector UInt8 256
  deriving DecidableEq, Repr

/-- `sizeof(gdpfs_dir_entry_phys_t)`. -/
def physSize : Nat := 289

namespace PhysEnt

/-- The bytes of an entry in memory. -/
def bytes (ent : PhysEnt) : List UInt8 :=
  ent.gname.toList ++ (if ent.inUse then 1 else 0) :: ent.name.toList

/-- The entry that some bytes of memory hold. -/
def ofBytes (block : List UInt8) : PhysEnt where
  gname := Vector.ofFn fun i => block.getD i 0
  inUse := block.getD 32 0 != 0
  name := Vector.ofFn fun i => block.getD (33 + i) 0

/-- The name in an entry. -/
def text (ent : PhysEnt) : List UInt8 := cstr ent.name.toList

/-- The entry that `_add_at_offset` makes. -/
def named (name : List UInt8) (gname : GdpName) : PhysEnt where
  gname := gname
  inUse := true
  name := ⟨(strncpy name nameMaxGdpfs ++ [0]).toArray, by
    rw [List.size_toArray, List.length_append, length_strncpy]
    rfl⟩

/-- Whether an entry is in use and `strcmp` finds the name in it.  A name
without a NUL ends with its array. -/
def isNamed (name : List UInt8) (ent : PhysEnt) : Bool :=
  ent.inUse && ent.text == cstr name

@[simp] theorem length_bytes (ent : PhysEnt) :
    ent.bytes.length = physSize := by
  rw [bytes, List.length_append, List.length_cons, Vector.length_toList,
    Vector.length_toList]
  rfl

theorem getD_bytes_gname
    (ent : PhysEnt)
    (below : i < 32) :
    ent.bytes.getD i 0 = ent.gname[i] := by
  have held : i < ent.gname.toList.length := by
    rw [Vector.length_toList]
    exact below
  rw [bytes, List.getD_append _ _ _ _ held, List.getD_eq_getElem _ _ held,
    Vector.getElem_toList]

theorem getD_bytes_inUse (ent : PhysEnt) :
    ent.bytes.getD 32 0 = if ent.inUse then 1 else 0 := by
  have length : ent.gname.toList.length = 32 := Vector.length_toList
  rw [bytes, List.getD_append_right _ _ _ _ (Nat.le_of_eq length), length]
  rfl

theorem getD_bytes_name
    (ent : PhysEnt)
    (below : i < 256) :
    ent.bytes.getD (33 + i) 0 = ent.name[i] := by
  have length : ent.gname.toList.length = 32 := Vector.length_toList
  have held : i < ent.name.toList.length := by
    rw [Vector.length_toList]
    exact below
  have index : 33 + i - 32 = i + 1 := by omega
  rw [bytes, List.getD_append_right _ _ _ _ (by omega), length, index,
    List.getD_cons_succ, List.getD_eq_getElem _ _ held, Vector.getElem_toList]

/-- Reading back an entry that was written. -/
theorem ofBytes_bytes (ent : PhysEnt) : ofBytes ent.bytes = ent := by
  have sameName : (ofBytes ent.bytes).gname = ent.gname := by
    ext i below
    rw [ofBytes, Vector.getElem_ofFn, getD_bytes_gname ent below]
  have sameUse : (ofBytes ent.bytes).inUse = ent.inUse := by
    rw [ofBytes, getD_bytes_inUse]
    cases ent.inUse with
    | false => rfl
    | true => rfl
  have sameText : (ofBytes ent.bytes).name = ent.name := by
    ext i below
    rw [ofBytes, Vector.getElem_ofFn, getD_bytes_name ent below]
  exact PhysEnt.ext sameName sameUse sameText

/-- The name in an entry that was made for a name. -/
theorem text_named (name : List UInt8) (gname : GdpName) :
    (named name gname).text = (cstr name).take nameMaxGdpfs := by
  rw [text]
  exact cstr_strncpy name nameMaxGdpfs

/-- An entry is found under the name that it was made for unless the name was
cut off. -/
theorem isNamed_named (name other : List UInt8) (gname : GdpName) :
    (named name gname).isNamed other = true ↔
      (cstr name).take nameMaxGdpfs = cstr other := by
  rw [isNamed, text_named]
  exact beq_iff_eq

end PhysEnt

/-! ## Slots -/

/-- The entry at an offset of a directory file. -/
def slotAt (contents : List UInt8) (offset : Nat) : PhysEnt :=
  PhysEnt.ofBytes ((contents.drop offset).take physSize)

/-- The whole entries of a directory file. -/
def slots (contents : List UInt8) : List PhysEnt :=
  (List.range (contents.length / physSize)).map fun index =>
    slotAt contents (physSize * index)

@[simp] theorem length_slots (contents : List UInt8) :
    (slots contents).length = contents.length / physSize := by
  rw [slots, List.length_map, List.length_range]

theorem getElem?_slots
    (contents : List UInt8)
    (index : Nat) :
    (slots contents)[index]? =
      if index < contents.length / physSize then
        some (slotAt contents (physSize * index))
      else none := by
  rw [slots, List.getElem?_map]
  split
  · next below => rw [List.getElem?_range below, Option.map_some]
  · next beyond =>
      rw [List.getElem?_eq_none (by rw [List.length_range]; omega),
        Option.map_none]

theorem slotAt_congr
    {first second : List UInt8}
    {offset other : Nat}
    (same : ∀ i < physSize,
      first.getD (offset + i) 0 = second.getD (other + i) 0) :
    slotAt first offset = slotAt second other := by
  have blocks : ∀ i < physSize,
      ((first.drop offset).take physSize).getD i 0 =
        ((second.drop other).take physSize).getD i 0 := by
    intro i below
    simp only [List.getD_eq_getElem?_getD, List.getElem?_take_of_lt below,
      List.getElem?_drop]
    exact same i below
  refine PhysEnt.ext ?_ ?_ ?_
  · apply Vector.ext
    intro i below
    rw [slotAt, slotAt, PhysEnt.ofBytes, PhysEnt.ofBytes, Vector.getElem_ofFn,
      Vector.getElem_ofFn]
    exact blocks i (Nat.lt_trans below (by decide))
  · rw [slotAt, slotAt, PhysEnt.ofBytes, PhysEnt.ofBytes]
    dsimp only
    rw [blocks 32 (by decide)]
  · apply Vector.ext
    intro i below
    rw [slotAt, slotAt, PhysEnt.ofBytes, PhysEnt.ofBytes, Vector.getElem_ofFn,
      Vector.getElem_ofFn]
    exact blocks (33 + i) (by rw [physSize]; omega)

/-- Writing an entry over a slot. -/
theorem slotAt_overwrite_self
    (contents : List UInt8)
    (offset : Nat)
    (ent : PhysEnt) :
    slotAt (overwrite contents offset ent.bytes) offset = ent := by
  have same : slotAt (overwrite contents offset ent.bytes) offset =
      slotAt ent.bytes 0 := by
    refine slotAt_congr fun i below => ?_
    rw [getD_overwrite, PhysEnt.length_bytes, if_pos (by omega), Nat.zero_add,
      Nat.add_sub_cancel_left]
  rw [same, slotAt, List.drop_zero,
    List.take_of_length_le (Nat.le_of_eq (PhysEnt.length_bytes ent)),
    PhysEnt.ofBytes_bytes]

/-- Writing an entry elsewhere. -/
theorem slotAt_overwrite_of_ne
    (contents : List UInt8)
    (ent : PhysEnt)
    (differ : index ≠ other) :
    slotAt (overwrite contents (physSize * index) ent.bytes)
        (physSize * other) =
      slotAt contents (physSize * other) := by
  refine slotAt_congr fun i below => ?_
  rw [getD_overwrite, PhysEnt.length_bytes, if_neg ?_]
  rw [physSize] at below ⊢
  omega

/-- The size of a directory file after an entry was written. -/
theorem length_overwrite_slot
    (contents : List UInt8)
    (index : Nat)
    (ent : PhysEnt) :
    (overwrite contents (physSize * index) ent.bytes).length =
      max contents.length (physSize * (index + 1)) := by
  rw [length_overwrite, PhysEnt.length_bytes, physSize]
  omega

/-- The slots after an entry was written over one of them, or behind the last
one. -/
theorem getElem?_slots_overwrite
    (contents : List UInt8)
    (ent : PhysEnt)
    (within : index < contents.length / physSize ∨
      contents.length = physSize * index)
    (other : Nat) :
    (slots (overwrite contents (physSize * index) ent.bytes))[other]? =
      if other = index then some ent else (slots contents)[other]? := by
  have count : (overwrite contents (physSize * index) ent.bytes).length /
      physSize = max (contents.length / physSize) (index + 1) := by
    rw [length_overwrite_slot]
    rw [physSize] at within ⊢
    omega
  have enough : index ≤ contents.length / physSize := by
    rw [physSize] at within ⊢
    omega
  rw [getElem?_slots, count]
  by_cases same : other = index
  · rw [if_pos same, same, slotAt_overwrite_self, if_pos (by omega)]
  · rw [if_neg same, slotAt_overwrite_of_ne contents ent (Ne.symm same),
      getElem?_slots]
    by_cases held : other < contents.length / physSize
    · rw [if_pos held, if_pos (by omega)]
    · rw [if_neg held, if_neg (by omega)]

/-- Writing an entry over a slot, or behind the last one, replaces or adds a
slot. -/
theorem slots_overwrite
    (contents : List UInt8)
    (ent : PhysEnt)
    (within : index < contents.length / physSize ∨
      contents.length = physSize * index) :
    slots (overwrite contents (physSize * index) ent.bytes) =
      (slots contents).take index ++
        ent :: (slots contents).drop (index + 1) := by
  have enough : index ≤ (slots contents).length := by
    rw [length_slots]
    rw [physSize] at within ⊢
    omega
  have first : ((slots contents).take index).length = index :=
    List.length_take_of_le enough
  apply List.ext_getElem?
  intro other
  rw [getElem?_slots_overwrite contents ent within]
  rcases Nat.lt_trichotomy other index with before | same | after
  · rw [List.getElem?_append_left (by omega), List.getElem?_take_of_lt before,
      if_neg (Nat.ne_of_lt before)]
  · rw [if_pos same, same, List.getElem?_append_right (by omega), first,
      Nat.sub_self]
    rfl
  · obtain ⟨more, rfl⟩ : ∃ more, other = index + 1 + more :=
      ⟨other - (index + 1), by omega⟩
    have position : index + 1 + more - index = more + 1 := by omega
    rw [List.getElem?_append_right (by omega), first, position,
      List.getElem?_cons_succ, List.getElem?_drop, if_neg (by omega)]

end Dir
end Gdpfs
