import Mathlib.Data.List.Range
import Mathlib.Logic.Function.Basic

/-!
# Windows of a ring

The cells from an index on in a ring of cells, taken around its end.  A window
grows at its back and shrinks at its front.
-/

namespace Gdpfs
namespace Ring

variable {α : Type} {size front count : Nat}

/-- The cells of a ring from `front` on. -/
def window (cells : Nat → α) (size front count : Nat) : List α :=
  (List.range count).map fun i => cells ((front + i) % size)

/-- The cells of a short window are different ones. -/
theorem index_ne
    (inside : i < count)
    (short : count < size) :
    (front + i) % size ≠ (front + count) % size := by
  intro same
  have apart := Nat.sub_mod_eq_zero_of_mod_eq same.symm
  rw [Nat.add_sub_add_left] at apart
  rw [Nat.mod_eq_of_lt (by omega)] at apart
  omega

/-- A value put behind a short window joins it. -/
theorem window_push
    (cells : Nat → α)
    (short : count < size)
    (value : α) :
    window (Function.update cells ((front + count) % size) value) size front
        (count + 1) =
      window cells size front count ++ [value] := by
  rw [window, window, List.range_succ, List.map_append]
  congr 1
  · apply List.map_congr_left
    intro i member
    rw [Function.update_of_ne (index_ne (List.mem_range.mp member) short)]
  · rw [List.map_singleton, Function.update_self]

/-- The first value of a window leaves it. -/
theorem window_pop
    (cells : Nat → α) :
    window cells size front (count + 1) =
      cells (front % size) ::
        window cells size ((front + 1) % size) count := by
  rw [window, window, List.range_succ_eq_map, List.map_cons, List.map_map,
    Nat.add_zero]
  congr 1
  apply List.map_congr_left
  intro i _
  rw [Function.comp_apply, Nat.mod_add_mod]
  congr 2
  omega

end Ring
end Gdpfs
