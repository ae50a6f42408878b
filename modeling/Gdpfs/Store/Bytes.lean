import Mathlib.Data.List.Basic

/-!
# Bytes of a file

A file is a list of bytes.  A write replaces some of them; if it begins behind
the end of the file, zeros fill the gap.
-/

namespace Gdpfs
namespace File

/-- Replace bytes of a file from an offset on; a gap before it fills with
zeros. -/
def overwrite (bytes : List UInt8) (offset : Nat) (buf : List UInt8) :
    List UInt8 :=
  bytes.take offset ++ List.replicate (offset - bytes.length) 0 ++
    (buf ++ bytes.drop (offset + buf.length))

theorem length_overwrite
    (bytes : List UInt8)
    (offset : Nat)
    (buf : List UInt8) :
    (overwrite bytes offset buf).length =
      max (max bytes.length offset) (offset + buf.length) := by
  simp only [overwrite, List.length_append, List.length_take,
    List.length_replicate, List.length_drop]
  omega

/-- Overwriting replaces bytes and fills gaps with zeros. -/
theorem getElem?_overwrite
    (bytes : List UInt8)
    (offset : Nat)
    (buf : List UInt8)
    (x : Nat) :
    (overwrite bytes offset buf)[x]? =
      if offset ≤ x ∧ x < offset + buf.length then buf[x - offset]?
      else if x < bytes.length then bytes[x]?
      else if x < offset then some 0
      else none := by
  have before : (bytes.take offset ++
      List.replicate (offset - bytes.length) 0).length = offset := by
    rw [List.length_append, List.length_take, List.length_replicate]
    omega
  rw [overwrite]
  by_cases early : x < offset
  · rw [List.getElem?_append_left (by omega), if_neg (by omega)]
    by_cases held : x < bytes.length
    · rw [List.getElem?_append_left (by rw [List.length_take]; omega),
        List.getElem?_take_of_lt early, if_pos held]
    · rw [List.getElem?_append_right (by rw [List.length_take]; omega),
        List.length_take, List.getElem?_replicate_of_lt (by omega),
        if_neg held, if_pos early]
  · rw [List.getElem?_append_right (by omega), before]
    by_cases inside : x < offset + buf.length
    · rw [List.getElem?_append_left (by omega), if_pos (by omega)]
    · rw [List.getElem?_append_right (by omega), if_neg (by omega),
        List.getElem?_drop, Nat.sub_sub, Nat.add_sub_cancel' (by omega)]
      by_cases held : x < bytes.length
      · rw [if_pos held]
      · rw [if_neg held, if_neg early, List.getElem?_eq_none (by omega)]

theorem getD_overwrite
    (bytes : List UInt8)
    (offset : Nat)
    (buf : List UInt8)
    (x : Nat) :
    (overwrite bytes offset buf).getD x 0 =
      if offset ≤ x ∧ x < offset + buf.length then buf.getD (x - offset) 0
      else bytes.getD x 0 := by
  simp only [List.getD_eq_getElem?_getD, getElem?_overwrite]
  by_cases covered : offset ≤ x ∧ x < offset + buf.length
  · rw [if_pos covered, if_pos covered]
  · rw [if_neg covered, if_neg covered]
    by_cases held : x < bytes.length
    · rw [if_pos held]
    · rw [if_neg held, List.getElem?_eq_none (l := bytes) (by omega)]
      split <;> rfl

end File
end Gdpfs
