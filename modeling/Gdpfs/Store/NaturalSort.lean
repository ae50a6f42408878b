import Mathlib.Data.List.Chain
import Mathlib.Order.Lattice

/-!
# Natural merge sort

A list falls into runs, which end where an element is less than the one before
it.  A pass merges the runs in pairs.  It keeps the elements, it never exchanges
two elements that are in order, and it leaves at most half of the descents.
-/

namespace NaturalSort

variable {α : Type}

/-- `less` compares keys, some of which may be equal. -/
structure WeakOrder (less : α → α → Bool) : Prop where
  asymm : ∀ a b, less a b = true → less b a = false
  negTrans : ∀ a b c, less a b = false → less b c = false →
    less a c = false

/-- Elements compared by keys that are in a linear order. -/
theorem weakOrder_key [LinearOrder κ] (key : α → κ) :
    WeakOrder fun a b => decide (key a < key b) where
  asymm := by
    intro a b isLess
    rw [decide_eq_true_eq] at isLess
    exact decide_eq_false (lt_asymm isLess)
  negTrans := by
    intro a b c first second
    rw [decide_eq_false_iff_not, not_lt] at *
    exact second.trans first

/-- The reverse of a comparison of keys. -/
theorem WeakOrder.flip
    {less : α → α → Bool}
    (order : WeakOrder less) :
    WeakOrder fun a b => less b a where
  asymm := fun a b => order.asymm b a
  negTrans := fun a b c first second => order.negTrans c b a second first

/-- Two elements are in order if the second is not less. -/
def inOrder (less : α → α → Bool) (a b : α) : Bool := !less b a

/-- Neighbours are in order. -/
abbrev Ascending (less : α → α → Bool) (elems : List α) : Prop :=
  List.IsChain (fun a b => less b a = false) elems

/-- The rest of the run that starts with an element, and what comes after the
run. -/
def run (less : α → α → Bool) : α → List α → List α × List α
  | _, [] => ([], [])
  | a, b :: rest =>
      if less b a then ([], b :: rest)
      else
        let further := run less b rest
        (b :: further.1, further.2)

/-- The number of elements less than the one before. -/
def descents (less : α → α → Bool) : List α → Nat
  | [] => 0
  | [_] => 0
  | a :: b :: rest =>
      (if less b a then 1 else 0) + descents less (b :: rest)

/-- The elements are kept, and no two elements that are in order change
places. -/
structure Arranged (less : α → α → Bool) (before after : List α) : Prop where
  perm : after.Perm before
  stable : ∀ a b, [a, b].Sublist before → less b a = false →
    [a, b].Sublist after

/-- What a pass makes of a list, and how many runs it puts out. -/
inductive Passed (less : α → α → Bool) : List α → List α → Nat → Prop
  | nil : Passed less [] [] 0
  | one
      {first : List α}
      (some : first ≠ [])
      (ascending : Ascending less first) :
      Passed less first first 1
  | pair
      {first second rest out : List α}
      {count : Nat}
      (someFirst : first ≠ [])
      (someSecond : second ≠ [])
      (ascendingFirst : Ascending less first)
      (ascendingSecond : Ascending less second)
      (descends : ∀ a ∈ first.getLast?, ∀ b ∈ second.head?, less b a = true)
      (descendsAgain : ∀ a ∈ second.getLast?, ∀ b ∈ rest.head?,
        less b a = true)
      (further : Passed less rest out count) :
      Passed less (first ++ second ++ rest)
        (first.merge second (inOrder less) ++ out) (count + 1)

variable {less : α → α → Bool}

theorem ascending_cons_cons {a b : α} {elems : List α} :
    Ascending less (a :: b :: elems) ↔
      less b a = false ∧ Ascending less (b :: elems) :=
  List.isChain_cons_cons

/-! ## Runs -/

theorem run_append (a : α) (elems : List α) :
    (run less a elems).1 ++ (run less a elems).2 = elems := by
  induction elems generalizing a with
  | nil => rfl
  | cons b rest inductionHypothesis =>
      rw [run]
      split
      · rfl
      · simp [inductionHypothesis]

theorem ascending_run (a : α) (elems : List α) :
    Ascending less (a :: (run less a elems).1) := by
  induction elems generalizing a with
  | nil => exact .singleton a
  | cons b rest inductionHypothesis =>
      rw [run]
      split
      · exact .singleton a
      · next notLess =>
          refine ascending_cons_cons.mpr ⟨?_, inductionHypothesis b⟩
          simpa using notLess

theorem descends_run (a : α) (elems : List α) :
    ∀ x ∈ (a :: (run less a elems).1).getLast?,
      ∀ y ∈ (run less a elems).2.head?, less y x = true := by
  induction elems generalizing a with
  | nil =>
      intro x _ y isFirst
      cases isFirst
  | cons b rest inductionHypothesis =>
      rw [run]
      split
      · next isLess =>
          intro x isLast y isFirst
          have sameLast : a = x := by simpa using isLast
          have sameFirst : b = y := by simpa using isFirst
          rw [← sameLast, ← sameFirst]
          exact isLess
      · intro x isLast y isFirst
        refine inductionHypothesis b x ?_ y isFirst
        simpa [List.getLast?_cons] using isLast

/-! ## Descents -/

theorem descents_eq_zero {elems : List α} :
    descents less elems = 0 ↔ Ascending less elems := by
  induction elems with
  | nil => simp [descents]
  | cons a elems inductionHypothesis =>
      cases elems with
      | nil => simp [descents]
      | cons b elems =>
          rw [descents, ascending_cons_cons, Nat.add_eq_zero_iff,
            inductionHypothesis]
          simp

theorem descents_le_length (elems : List α) :
    descents less elems ≤ elems.length - 1 := by
  induction elems with
  | nil => simp [descents]
  | cons a elems inductionHypothesis =>
      cases elems with
      | nil => simp [descents]
      | cons b elems =>
          rw [descents]
          simp only [List.length_cons] at *
          split <;> omega

/-- Descents inside two lists, and the one between them. -/
theorem descents_append_le (first second : List α) :
    descents less (first ++ second) ≤
      descents less first + 1 + descents less second := by
  induction first with
  | nil => simp [descents]
  | cons a first inductionHypothesis =>
      cases first with
      | nil =>
          cases second with
          | nil => simp [descents]
          | cons b second =>
              simp only [List.singleton_append, descents]
              split <;> omega
      | cons b first =>
          simp only [List.cons_append, descents] at *
          omega

theorem descents_append_of_descends
    {first second : List α}
    (someFirst : first ≠ [])
    (someSecond : second ≠ [])
    (descends : ∀ a ∈ first.getLast?, ∀ b ∈ second.head?, less b a = true) :
    descents less (first ++ second) =
      descents less first + 1 + descents less second := by
  induction first with
  | nil => exact absurd rfl someFirst
  | cons a first inductionHypothesis =>
      cases first with
      | nil =>
          cases second with
          | nil => exact absurd rfl someSecond
          | cons b second =>
              have isLess : less b a = true := descends a rfl b rfl
              simp [descents, isLess]
      | cons b first =>
          have rest := inductionHypothesis (List.cons_ne_nil _ _) (by
            intro x isLast
            exact descends x (by simpa [List.getLast?_cons] using isLast))
          simp only [List.cons_append, descents] at *
          omega

/-! ## Merging -/

section Merge

variable {first second : List α}

theorem WeakOrder.pairwise
    (order : WeakOrder less)
    {elems : List α}
    (ascending : Ascending less elems) :
    elems.Pairwise (fun a b => inOrder less a b = true) := by
  have trans : IsTrans α (fun a b => inOrder less a b = true) := ⟨by
    intro a b c first second
    simp only [inOrder, Bool.not_eq_true'] at *
    exact order.negTrans c b a second first⟩
  refine List.isChain_iff_pairwise.mp (ascending.imp ?_)
  intro a b notLess
  simp [inOrder, notLess]

theorem ascending_of_pairwise
    {elems : List α}
    (pairwise : elems.Pairwise (fun a b => inOrder less a b = true)) :
    Ascending less elems := by
  refine pairwise.isChain.imp ?_
  intro a b ordered
  simpa [inOrder] using ordered

theorem WeakOrder.ascending_merge
    (order : WeakOrder less)
    (ascendingFirst : Ascending less first)
    (ascendingSecond : Ascending less second) :
    Ascending less (first.merge second (inOrder less)) := by
  refine ascending_of_pairwise (List.pairwise_merge ?_ ?_ first second
    (order.pairwise ascendingFirst) (order.pairwise ascendingSecond))
  · intro a b c first second
    simp only [inOrder, Bool.not_eq_true'] at *
    exact order.negTrans c b a second first
  · intro a b
    cases compared : less b a with
    | false => simp [inOrder, compared]
    | true => simp [inOrder, order.asymm b a compared]

theorem sublist_merge_left (le : α → α → Bool) (first second : List α) :
    first.Sublist (first.merge second le) := by
  induction first generalizing second with
  | nil => exact List.nil_sublist _
  | cons a first inductionFirst =>
      induction second with
      | nil => simp
      | cons b second inductionSecond =>
          rw [List.merge]
          split
          · exact (inductionFirst (b :: second)).cons_cons a
          · exact inductionSecond.cons b

theorem sublist_merge_right (le : α → α → Bool) (first second : List α) :
    second.Sublist (first.merge second le) := by
  induction first generalizing second with
  | nil => simp
  | cons a first inductionFirst =>
      induction second with
      | nil => exact List.nil_sublist _
      | cons b second inductionSecond =>
          rw [List.merge]
          split
          · exact (inductionFirst (b :: second)).cons a
          · exact inductionSecond.cons_cons b

/-- An element of the first run stays in front of an element of the second one
that is not less. -/
theorem WeakOrder.sublist_merge
    (order : WeakOrder less)
    (ascending : first.Pairwise (fun a b => inOrder less a b = true))
    {a b : α}
    (inFirst : a ∈ first)
    (inSecond : b ∈ second)
    (ordered : less b a = false) :
    [a, b].Sublist (first.merge second (inOrder less)) := by
  induction first generalizing second with
  | nil => cases inFirst
  | cons x first inductionFirst =>
      induction second with
      | nil => cases inSecond
      | cons y second inductionSecond =>
          rw [List.merge]
          split
          · rcases List.mem_cons.mp inFirst with rfl | later
            · refine List.Sublist.cons_cons a (List.singleton_sublist.mpr ?_)
              exact List.mem_merge.mpr (Or.inr inSecond)
            · exact (inductionFirst (List.Pairwise.of_cons ascending) later
                inSecond).cons x
          · next notOrdered =>
              rcases List.mem_cons.mp inSecond with rfl | later
              · -- The new element is less than the first of the first run.
                refine absurd ?_ notOrdered
                rcases List.mem_cons.mp inFirst with rfl | further
                · simpa [inOrder] using ordered
                · have least : less a x = false := by
                    simpa [inOrder] using
                      (List.pairwise_cons.mp ascending).1 a further
                  simp [inOrder, order.negTrans b a x ordered least]
              · exact (inductionSecond later).cons y

end Merge

/-! ## Passes -/

theorem Arranged.refl (elems : List α) : Arranged less elems elems :=
  ⟨List.Perm.refl _, fun _ _ sublist _ => sublist⟩

theorem Arranged.trans
    {before middle after : List α}
    (first : Arranged less before middle)
    (second : Arranged less middle after) :
    Arranged less before after where
  perm := second.perm.trans first.perm
  stable := fun a b sublist ordered =>
    second.stable a b (first.stable a b sublist ordered) ordered

/-- A pair of elements of two lists in a row. -/
theorem pair_sublist_append
    {a b : α}
    {left right : List α} :
    [a, b].Sublist (left ++ right) ↔
      [a, b].Sublist left ∨ (a ∈ left ∧ b ∈ right) ∨
        [a, b].Sublist right := by
  constructor
  · intro sublist
    obtain ⟨first, second, shape, inLeft, inRight⟩ :=
      List.sublist_append_iff.mp sublist
    cases first with
    | nil =>
        cases shape
        exact Or.inr (Or.inr inRight)
    | cons x first =>
        cases first with
        | nil =>
            cases shape
            refine Or.inr (Or.inl ⟨?_, ?_⟩)
            · exact List.singleton_sublist.mp inLeft
            · exact List.singleton_sublist.mp inRight
        | cons y first =>
            have empty : first = [] ∧ second = [] := by
              simpa using congrArg List.length shape
            obtain ⟨rfl, rfl⟩ := empty
            rw [List.append_nil] at shape
            rw [shape]
            exact Or.inl inLeft
  · rintro (inLeft | ⟨inLeft, inRight⟩ | inRight)
    · exact inLeft.trans (List.sublist_append_left _ _)
    · exact List.Sublist.append (List.singleton_sublist.mpr inLeft)
        (List.singleton_sublist.mpr inRight)
    · exact inRight.trans (List.sublist_append_right _ _)

theorem Arranged.append
    {before after before' after' : List α}
    (first : Arranged less before after)
    (second : Arranged less before' after') :
    Arranged less (before ++ before') (after ++ after') where
  perm := first.perm.append second.perm
  stable := by
    intro a b sublist ordered
    rw [pair_sublist_append] at sublist ⊢
    rcases sublist with inLeft | ⟨inLeft, inRight⟩ | inRight
    · exact Or.inl (first.stable a b inLeft ordered)
    · refine Or.inr (Or.inl ⟨?_, ?_⟩)
      · exact first.perm.mem_iff.mpr inLeft
      · exact second.perm.mem_iff.mpr inRight
    · exact Or.inr (Or.inr (second.stable a b inRight ordered))

/-- Merging two runs keeps elements that are in order. -/
theorem WeakOrder.arranged_merge
    (order : WeakOrder less)
    {first second : List α}
    (ascending : Ascending less first) :
    Arranged less (first ++ second)
      (first.merge second (inOrder less)) where
  perm := List.merge_perm_append (inOrder less)
  stable := by
    intro a b sublist ordered
    rcases pair_sublist_append.mp sublist with
      inFirst | ⟨inFirst, inSecond⟩ | inSecond
    · exact inFirst.trans (sublist_merge_left _ _ _)
    · exact order.sublist_merge (order.pairwise ascending) inFirst inSecond
        ordered
    · exact inSecond.trans (sublist_merge_right _ _ _)

theorem Passed.arranged
    {before after : List α}
    {count : Nat}
    (order : WeakOrder less)
    (passed : Passed less before after count) :
    Arranged less before after := by
  induction passed with
  | nil => exact Arranged.refl []
  | one some ascending => exact Arranged.refl _
  | pair _ _ ascendingFirst _ _ _ _ inductionHypothesis =>
      exact (order.arranged_merge ascendingFirst).append inductionHypothesis

theorem Passed.eq_nil
    {before after : List α}
    {count : Nat}
    (passed : Passed less before after count)
    (none : count = 0) :
    after = [] := by
  cases passed with
  | nil => rfl
  | one some ascending => cases none
  | pair _ _ _ _ _ _ further => cases none

theorem Passed.count_eq_zero
    {before after : List α}
    {count : Nat}
    (passed : Passed less before after count)
    (empty : before = []) :
    count = 0 := by
  cases passed with
  | nil => rfl
  | one some ascending => exact absurd empty some
  | pair someFirst _ _ _ _ _ further => simp [someFirst] at empty

/-- A pass leaves fewer descents than it puts out runs. -/
theorem Passed.descents_lt
    {before after : List α}
    {count : Nat}
    (order : WeakOrder less)
    (passed : Passed less before after count) :
    descents less after ≤ count - 1 := by
  induction passed with
  | nil => exact le_rfl
  | one some ascending => exact (descents_eq_zero.mpr ascending).le
  | @pair first second rest out count _ _ ascendingFirst ascendingSecond _ _
      further inductionHypothesis =>
      have merged := descents_eq_zero.mpr
        (order.ascending_merge ascendingFirst ascendingSecond)
      have joined := @descents_append_le _ less
        (first.merge second (inOrder less)) out
      by_cases none : count = 0
      · simp [further.eq_nil none, merged]
      · omega

/-- A pass puts out a run for every two runs. -/
theorem Passed.count_le
    {before after : List α}
    {count : Nat}
    (passed : Passed less before after count) :
    2 * count ≤ descents less before + 2 := by
  induction passed with
  | nil => exact Nat.zero_le _
  | one some ascending => exact Nat.le_add_left _ _
  | @pair first second rest out count someFirst someSecond ascendingFirst
      ascendingSecond descends descendsAgain further inductionHypothesis =>
      have firstFlat := descents_eq_zero.mpr ascendingFirst
      have secondFlat := descents_eq_zero.mpr ascendingSecond
      have middle := descents_append_of_descends someFirst someSecond descends
      by_cases someRest : rest = []
      · subst someRest
        have none := further.count_eq_zero rfl
        omega
      · have someBoth : first ++ second ≠ [] := by simp [someFirst]
        have between : ∀ a ∈ (first ++ second).getLast?, ∀ b ∈ rest.head?,
            less b a = true := by
          intro a isLast
          rw [List.getLast?_append_of_ne_nil _ someSecond] at isLast
          exact descendsAgain a isLast
        have whole := descents_append_of_descends someBoth someRest between
        omega

end NaturalSort
