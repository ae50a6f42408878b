import Mathlib.Order.Lattice
import Mathlib.Data.List.Basic

/-!
# Resumed scans

Items that are ordered by a key are handed out in portions.  Each portion begins
behind the key of the last item that was handed out, in the list as it is by
then: the list may change between two portions.
-/

namespace Resume

section Scan

variable [LinearOrder κ] (key : α → κ)

/-- The items behind a key. -/
def behind (items : List α) (bound : κ) : List α :=
  items.filter fun item => bound < key item

/-- Where the next portion begins. -/
def resume (portion : List α) (bound : κ) : κ :=
  (portion.getLast?.map key).getD bound

/-- The keys of the items increase. -/
def Increasing (items : List α) : Prop :=
  items.Pairwise fun before after => key before < key after

/-- An item with a key is in every one of several lists. -/
def Stays (seen : List (List α)) (k : κ) : Prop :=
  ∀ items ∈ seen, ∃ item ∈ items, key item = k

/-- What was handed out up to a key, while the list was each of those seen. -/
structure Scanned
    (seen : List (List α))
    (handed : List α)
    (bound : κ) : Prop where
  increasing : Increasing key handed
  upTo : ∀ item ∈ handed, key item ≤ bound
  known : ∀ item ∈ handed, ∃ items ∈ seen, item ∈ items
  reaches : ∀ k ≤ bound, Stays key seen k → ∃ item ∈ handed, key item = k

variable {key} {seen : List (List α)} {handed items : List α} {bound : κ}

theorem mem_behind
    {item : α} :
    item ∈ behind key items bound ↔ item ∈ items ∧ bound < key item := by
  simp [behind]

theorem Increasing.behind
    (increasing : Increasing key items)
    (bound : κ) :
    Increasing key (behind key items bound) :=
  increasing.filter _

omit [LinearOrder κ] in
theorem resume_concat (portion : List α) (last : α) (bound : κ) :
    resume key (portion ++ [last]) bound = key last := by
  simp [resume]

/-- Nothing was handed out. -/
theorem scanned_nil
    (below : ∀ items ∈ seen, ∀ item ∈ items, bound < key item)
    (nonempty : seen ≠ []) :
    Scanned key seen [] bound := by
  refine ⟨List.Pairwise.nil, by simp, by simp, ?_⟩
  intro k upTo stays
  obtain ⟨items, member⟩ := List.exists_mem_of_ne_nil seen nonempty
  obtain ⟨item, inside, rfl⟩ := stays items member
  exact absurd (below items member item inside) (not_lt.mpr upTo)

/-- The list changes. -/
theorem Scanned.change
    (scanned : Scanned key seen handed bound)
    (items : List α) :
    Scanned key (items :: seen) handed bound := by
  refine ⟨scanned.increasing, scanned.upTo, ?_, ?_⟩
  · intro item member
    obtain ⟨old, isOld, inside⟩ := scanned.known item member
    exact ⟨old, List.mem_cons_of_mem _ isOld, inside⟩
  · intro k upTo stays
    refine scanned.reaches k upTo fun old isOld => ?_
    exact stays old (List.mem_cons_of_mem _ isOld)

/-- What is behind the bound can be put behind what was handed out. -/
theorem Scanned.increasing_append
    {portion : List α}
    (scanned : Scanned key seen handed bound)
    (increasing : Increasing key portion)
    (later : ∀ item ∈ portion, bound < key item) :
    Increasing key (handed ++ portion) := by
  refine List.pairwise_append.mpr ⟨scanned.increasing, increasing, ?_⟩
  intro before inHanded after inPortion
  exact lt_of_le_of_lt (scanned.upTo before inHanded) (later after inPortion)

/-- A portion of the list is handed out. -/
theorem Scanned.portion
    (scanned : Scanned key seen handed bound)
    (current : items ∈ seen)
    (increasing : Increasing key items)
    (count : ℕ) :
    Scanned key seen (handed ++ (behind key items bound).take count)
      (resume key ((behind key items bound).take count) bound) := by
  have sorted := increasing.behind bound
  have all : ∀ item ∈ behind key items bound,
      item ∈ items ∧ bound < key item := fun item => mem_behind.mp
  have found : ∀ item ∈ items, bound < key item →
      item ∈ behind key items bound := fun item inside later =>
    mem_behind.mpr ⟨inside, later⟩
  generalize behind key items bound = rest at *
  rw [← List.take_append_drop count rest] at sorted all found
  generalize rest.take count = portion at *
  generalize rest.drop count = left at *
  obtain ⟨portionSorted, _, apart⟩ := List.pairwise_append.mp sorted
  have later : ∀ item ∈ portion, bound < key item := fun item member =>
    (all item (List.mem_append_left _ member)).2
  have known : ∀ item ∈ handed ++ portion,
      ∃ items ∈ seen, item ∈ items := by
    intro item member
    rcases List.mem_append.mp member with old | new
    · exact scanned.known item old
    · exact ⟨items, current, (all item (List.mem_append_left _ new)).1⟩
  rcases List.eq_nil_or_concat' portion with rfl | ⟨front, last, rfl⟩
  · rw [List.append_nil]
    exact scanned
  · have final : bound < key last := later last (by simp)
    have upTo : ∀ item ∈ front ++ [last], key item ≤ key last := by
      intro item member
      rcases List.mem_append.mp member with before | same
      · have ordered := (List.pairwise_append.mp portionSorted).2.2
        exact le_of_lt (ordered item before last (List.mem_singleton_self _))
      · exact le_of_eq (congrArg key (List.mem_singleton.mp same))
    rw [resume_concat]
    refine ⟨scanned.increasing_append portionSorted later, ?_, known, ?_⟩
    · intro item member
      rcases List.mem_append.mp member with old | new
      · exact le_trans (scanned.upTo item old) (le_of_lt final)
      · exact upTo item new
    · intro k within stays
      rcases le_or_gt k bound with early | late
      · obtain ⟨item, member, same⟩ := scanned.reaches k early stays
        exact ⟨item, List.mem_append_left _ member, same⟩
      · obtain ⟨item, inside, rfl⟩ := stays items current
        refine ⟨item, List.mem_append_right _ ?_, rfl⟩
        rcases List.mem_append.mp (found item inside late) with here | beyond
        · exact here
        · have := apart last (by simp) item beyond
          exact absurd this (not_lt.mpr within)

/-- The last portion: the list was handed out to its end. -/
theorem Scanned.complete
    (scanned : Scanned key seen handed bound)
    (current : items ∈ seen)
    (stays : Stays key seen k) :
    ∃ item ∈ handed ++ behind key items bound, key item = k := by
  rcases le_or_gt k bound with early | late
  · obtain ⟨item, member, same⟩ := scanned.reaches k early stays
    exact ⟨item, List.mem_append_left _ member, same⟩
  · obtain ⟨item, inside, rfl⟩ := stays items current
    exact ⟨item, List.mem_append_right _ (mem_behind.mpr ⟨inside, late⟩), rfl⟩

end Scan

end Resume
