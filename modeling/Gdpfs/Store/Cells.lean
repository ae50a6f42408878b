import Mathlib.Algebra.Order.Group.Multiset
import Mathlib.Data.Multiset.UnionInter

/-!
# A store of cells and the parts of it a proof owns

A store keeps one value per live address.  Addresses are handed out in order
and are never reused, so a dangling address reads as nothing.  `Owns store
cells` says that the listed cells are pairwise distinct and that the store
holds exactly the listed contents there.  Splitting a multiset of cells into a
sum is how a proof names disjoint parts of the store: what an operation does
to its own part leaves every other summand owned.
-/

namespace Cells

/-- Addresses are positions of the list; `none` is a cell that was freed. -/
structure Store (α : Type) where
  /-- The cells in the order of their allocation. -/
  cells : List (Option α)
  deriving DecidableEq, Repr

namespace Store

/-- The store before anything is allocated. -/
def empty : Store α := ⟨[]⟩

/-- The contents of a live cell. -/
def read (store : Store α) (address : Nat) : Option α :=
  (store.cells[address]?).join

/-- Overwrite a cell. -/
def write (store : Store α) (address : Nat) (value : α) : Store α :=
  ⟨store.cells.set address (some value)⟩

/-- Give a cell back. -/
def free (store : Store α) (address : Nat) : Store α :=
  ⟨store.cells.set address none⟩

/-- The address the next allocation returns. -/
def fresh (store : Store α) : Nat := store.cells.length

/-- Put a value into the cell at the fresh address. -/
def alloc (store : Store α) (value : α) : Store α :=
  ⟨store.cells ++ [some value]⟩

theorem lt_of_read
    {store : Store α}
    (live : store.read address = some value) :
    address < store.cells.length := by
  by_contra beyond
  have missing : store.cells[address]? = none :=
    List.getElem?_eq_none (Nat.le_of_not_lt beyond)
  simp [read, missing] at live

theorem read_write_self
    {store : Store α}
    (live : store.read address = some old)
    (value : α) :
    (store.write address value).read address = some value := by
  have bound := lt_of_read live
  simp [read, write, bound]

theorem read_write_of_ne
    (store : Store α)
    (value : α)
    (different : other ≠ address) :
    (store.write address value).read other = store.read other := by
  simp [read, write, Ne.symm different]

theorem read_free_of_ne
    (store : Store α)
    (different : other ≠ address) :
    (store.free address).read other = store.read other := by
  simp [read, free, Ne.symm different]

theorem read_free_self
    {store : Store α}
    (live : store.read address = some value) :
    (store.free address).read address = none := by
  have bound := lt_of_read live
  simp [read, free, bound]

theorem read_alloc_fresh (store : Store α) (value : α) :
    (store.alloc value).read store.fresh = some value := by
  simp [read, alloc, fresh]

theorem read_alloc_of_live
    {store : Store α}
    (live : store.read address = some value)
    (added : α) :
    (store.alloc added).read address = some value := by
  have bound := lt_of_read live
  simpa [read, alloc, List.getElem?_append_left bound] using live

end Store

/-- A single cell, as a part of a store. -/
def cell (address : Nat) (value : α) : Multiset (Nat × α) :=
  {(address, value)}

/-- The listed cells are distinct and hold what the list says. -/
def Owns (store : Store α) (owned : Multiset (Nat × α)) : Prop :=
  (owned.map Prod.fst).Nodup ∧
    ∀ entry ∈ owned, store.read entry.1 = some entry.2

namespace Owns

variable {store : Store α} {owned rest : Multiset (Nat × α)}

/-- Nothing is owned of any store. -/
theorem nothing (store : Store α) : Owns store 0 := by
  simp [Owns]

/-- The order in which the parts are listed is immaterial. -/
theorem of_eq
    (owns : Owns store owned)
    (same : owned = rest) :
    Owns store rest :=
  same ▸ owns

/-- Any part of what is owned may be forgotten. -/
theorem drop
    (owns : Owns store (owned + rest)) :
    Owns store rest := by
  obtain ⟨distinct, contents⟩ := owns
  constructor
  · rw [Multiset.map_add] at distinct
    exact (Multiset.nodup_add.mp distinct).2.1
  · intro entry member
    exact contents entry (Multiset.mem_add.mpr (Or.inr member))

theorem read
    (owns : Owns store (cell address value + rest)) :
    store.read address = some value :=
  owns.2 (address, value)
    (Multiset.mem_add.mpr (Or.inl (Multiset.mem_singleton_self _)))

/-- A live cell may be owned by itself. -/
theorem of_read
    (live : store.read address = some value) :
    Owns store (cell address value + 0) := by
  rw [add_zero]
  refine ⟨Multiset.nodup_singleton _, fun entry member => ?_⟩
  rw [Multiset.mem_singleton.mp member]
  exact live

/-- Two cells of different parts have different addresses. -/
theorem ne
    (owns : Owns store (cell address value + (cell address' value' + rest))) :
    address ≠ address' := by
  intro equal
  have distinct := owns.1
  rw [cell, cell, Multiset.singleton_add, Multiset.singleton_add,
    Multiset.map_cons, Multiset.map_cons, Multiset.nodup_cons] at distinct
  exact distinct.1 (equal ▸ Multiset.mem_cons_self _ _)

private theorem ne_of_mem_rest
    (owns : Owns store (cell address value + rest))
    (member : entry ∈ rest) :
    entry.1 ≠ address := by
  intro equal
  have distinct := owns.1
  rw [cell, Multiset.singleton_add, Multiset.map_cons,
    Multiset.nodup_cons] at distinct
  exact distinct.1 (Multiset.mem_map.mpr ⟨entry, member, equal⟩)

theorem write
    (owns : Owns store (cell address old + rest))
    (value : α) :
    Owns (store.write address value) (cell address value + rest) := by
  constructor
  · simpa only [cell, Multiset.map_add, Multiset.map_singleton] using owns.1
  · intro entry member
    rcases Multiset.mem_add.mp member with inCell | inRest
    · rw [cell, Multiset.mem_singleton] at inCell
      rw [inCell]
      exact Store.read_write_self owns.read value
    · rw [Store.read_write_of_ne store value (owns.ne_of_mem_rest inRest)]
      exact owns.2 entry (Multiset.mem_add.mpr (Or.inr inRest))

theorem free
    (owns : Owns store (cell address value + rest)) :
    Owns (store.free address) rest := by
  refine ⟨owns.drop.1, fun entry member => ?_⟩
  rw [Store.read_free_of_ne store (owns.ne_of_mem_rest member)]
  exact owns.2 entry (Multiset.mem_add.mpr (Or.inr member))

theorem alloc
    (owns : Owns store owned)
    (value : α) :
    Owns (store.alloc value) (cell store.fresh value + owned) := by
  constructor
  · rw [cell, Multiset.singleton_add, Multiset.map_cons,
      Multiset.nodup_cons]
    refine ⟨?_, owns.1⟩
    intro member
    obtain ⟨entry, inOwned, isFresh⟩ := Multiset.mem_map.mp member
    have bound := Store.lt_of_read (owns.2 entry inOwned)
    rw [isFresh] at bound
    exact lt_irrefl _ bound
  · intro entry member
    rcases Multiset.mem_add.mp member with inCell | inOwned
    · rw [cell, Multiset.mem_singleton] at inCell
      rw [inCell]
      exact Store.read_alloc_fresh store value
    · exact Store.read_alloc_of_live (owns.2 entry inOwned) value

end Owns

/-- A store from which the listed cells were freed, and no others. -/
structure Freed
    (store : Store α)
    (cells : Multiset (Nat × α))
    (next : Store α) : Prop where
  gone : ∀ address, address ∈ cells.map Prod.fst → next.read address = none
  kept : ∀ address, address ∉ cells.map Prod.fst →
    next.read address = store.read address

namespace Freed

variable {store middle next : Store α} {here there : Multiset (Nat × α)}

theorem nothing (store : Store α) : Freed store 0 store :=
  ⟨fun _ member => absurd member (Multiset.notMem_zero _), fun _ _ => rfl⟩

/-- Cells that are freed one after the other are freed together. -/
theorem trans
    (first : Freed store here middle)
    (second : Freed middle there next) :
    Freed store (here + there) next := by
  constructor
  · intro address member
    by_cases late : address ∈ there.map Prod.fst
    · exact second.gone address late
    · rw [Multiset.map_add, Multiset.mem_add] at member
      rw [second.kept address late]
      exact first.gone address (member.resolve_right late)
  · intro address outside
    rw [Multiset.map_add, Multiset.mem_add, not_or] at outside
    rw [second.kept address outside.2, first.kept address outside.1]

theorem one
    (live : store.read address = some value) :
    Freed store (cell address value) (store.free address) := by
  constructor
  · intro other member
    obtain rfl := Multiset.mem_singleton.mp member
    exact Store.read_free_self live
  · intro other outside
    apply Store.read_free_of_ne
    exact fun same => outside (Multiset.mem_singleton.mpr same)

end Freed

/-- Some part of the store satisfies the assertion, and the frame is a part
disjoint from it. -/
def Holds
    (assertion : Multiset (Nat × α) → Prop)
    (frame : Multiset (Nat × α))
    (store : Store α) : Prop :=
  ∃ owned, assertion owned ∧ Owns store (owned + frame)

end Cells
