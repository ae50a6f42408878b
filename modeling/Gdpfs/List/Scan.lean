import Gdpfs.List.Edit
import Gdpfs.Store.NaturalSort

/-!
# Going through a list (`list.c`)

`list_size`, `list_max`, `list_min` and `list_insert_ordered` walk over a list
from its front.
-/

namespace Gdpfs
namespace Lists

open Effect Links NaturalSort

section Walks

variable {links : Elems} {list : ListHead} {outer xs : List Nat}
  {e rounds : Nat}

theorem Represents.ne_tail
    (rep : Represents links list xs)
    (member : e ∈ xs) :
    e ≠ list.tail :=
  fun same => rep.tail_notMem (same ▸ member)

/-- The next element of a list. -/
theorem Represents.next
    {before after : List Nat}
    (rep : Represents links list (before ++ e :: after)) :
    ∃ next, (after ++ [list.tail]).head? = some next ∧
      (links e).next = some next := by
  cases after with
  | nil =>
      have shape : list.head :: (before ++ [e]) ++ [list.tail] =
          (list.head :: before) ++ e :: list.tail :: [] := by simp
      have closed : Closed links
          ((list.head :: before) ++ e :: list.tail :: []) := shape ▸ rep
      exact ⟨list.tail, rfl, closed.joined.1⟩
  | cons x after =>
      have shape : list.head :: (before ++ e :: x :: after) ++ [list.tail] =
          (list.head :: before) ++ e :: x :: (after ++ [list.tail]) := by simp
      have closed : Closed links
          ((list.head :: before) ++ e :: x :: (after ++ [list.tail])) :=
        shape ▸ rep
      exact ⟨x, rfl, closed.joined.1⟩

theorem ensures_sizeLoop
    {cnt : Nat}
    (rep : Represents links list (outer ++ xs))
    (isFirst : (xs ++ [list.tail]).head? = some e)
    (enough : xs.length < rounds)
    {post : Nat → Elems → Prop}
    (holds : post (cnt + xs.length) links) :
    Ensures (sizeLoop list rounds e cnt) post links := by
  induction rounds generalizing outer xs e cnt with
  | zero => exact absurd enough (Nat.not_lt_zero _)
  | succ rounds inductionHypothesis =>
      rw [sizeLoop, listEnd]
      cases xs with
      | nil =>
          obtain rfl : list.tail = e := by simpa using isFirst
          rw [if_pos rfl, ensures_pure]
          exact holds
      | cons x xs =>
          obtain rfl : x = e := by simpa using isFirst
          obtain ⟨next, isNext, points⟩ := rep.next
          rw [if_neg (rep.ne_tail (by simp)), ensures_bind,
            ensures_listNext points]
          have onwards : Represents links list ((outer ++ [x]) ++ xs) := by
            simpa using rep
          refine inductionHypothesis onwards isNext
            (Nat.lt_of_succ_lt_succ enough) ?_
          rwa [List.length_cons, Nat.add_comm xs.length, ← Nat.add_assoc]
            at holds

/-- `list_size`. -/
theorem ensures_listSize
    (rep : Represents links list xs)
    (enough : xs.length < rounds)
    {post : Nat → Elems → Prop}
    (holds : post xs.length links) :
    Ensures (listSize rounds list) post links := by
  obtain ⟨first, isFirst, begins⟩ := rep.first
  rw [listSize, ensures_bind, ensures_listBegin begins]
  refine (@ensures_sizeLoop links list [] xs first rounds 0) rep isFirst
    enough ?_
  rwa [Nat.zero_add]

/-! ## The largest and the smallest element -/

/-- An element that beats those in front of it, and that none behind it
beats. -/
structure Best (better : Nat → Nat → Bool) (before : List Nat) (held : Nat)
    (after : List Nat) : Prop where
  before : ∀ x ∈ before, better held x = true
  after : ∀ x ∈ after, better x held = false

theorem Best.keep
    {better : Nat → Nat → Bool}
    {before after : List Nat}
    {held : Nat}
    (best : Best better before held after)
    (notBetter : better e held = false) :
    Best better before held (after ++ [e]) where
  before := best.before
  after := by
    intro x member
    rcases List.mem_append.mp member with old | new
    · exact best.after x old
    · rwa [List.mem_singleton.mp new]

/-- A better element beats everything that was seen. -/
theorem Best.replace
    {better : Nat → Nat → Bool}
    {before after : List Nat}
    {held : Nat}
    (order : WeakOrder better)
    (best : Best better before held after)
    (isBetter : better e held = true) :
    Best better (before ++ held :: after) e [] where
  before := by
    intro x member
    by_contra notBetter
    have worse : better x held = false := by
      rcases List.mem_append.mp member with inFront | behind
      · exact order.asymm held x (best.before x inFront)
      · rcases List.mem_cons.mp behind with rfl | later
        · exact absurd isBetter notBetter
        · exact best.after x later
    have notE := order.negTrans e x held (by simpa using notBetter) worse
    simp [isBetter] at notE
  after := by simp

theorem ensures_bestLoop
    {better : Nat → Nat → Bool}
    {before after : List Nat}
    {held : Nat}
    (order : WeakOrder better)
    (rep : Represents links list ((before ++ held :: after) ++ xs))
    (best : Best better before held after)
    (isFirst : (xs ++ [list.tail]).head? = some e)
    (enough : xs.length < rounds) :
    Ensures (bestLoop better list rounds held e)
      (fun result next => next = links ∧ ∃ front back,
        before ++ held :: after ++ xs = front ++ result :: back ∧
        Best better front result back) links := by
  induction rounds generalizing before after held xs e with
  | zero => exact absurd enough (Nat.not_lt_zero _)
  | succ rounds inductionHypothesis =>
      rw [bestLoop, listEnd]
      cases xs with
      | nil =>
          obtain rfl : list.tail = e := by simpa using isFirst
          rw [if_pos rfl, ensures_pure]
          exact ⟨rfl, before, after, by simp, best⟩
      | cons x xs =>
          obtain rfl : x = e := by simpa using isFirst
          obtain ⟨next, isNext, points⟩ := rep.next
          rw [if_neg (rep.ne_tail (by simp)), ensures_bind,
            ensures_listNext points]
          have short := Nat.lt_of_succ_lt_succ enough
          cases compared : better x held with
          | true =>
              have onwards : Represents links list
                  ((before ++ held :: after) ++ x :: [] ++ xs) := by
                simpa using rep
              refine (inductionHypothesis onwards
                (best.replace order compared) isNext short).mono ?_
              rintro result _ ⟨rfl, front, back, shape, isBest⟩
              exact ⟨rfl, front, back, by rw [← shape]; simp, isBest⟩
          | false =>
              have onwards : Represents links list
                  ((before ++ held :: (after ++ [x])) ++ xs) := by
                simpa using rep
              refine (inductionHypothesis onwards (best.keep compared) isNext
                short).mono ?_
              rintro result _ ⟨rfl, front, back, shape, isBest⟩
              exact ⟨rfl, front, back, by rw [← shape]; simp, isBest⟩

/-- The loops of `list_max` and `list_min` find the first of the best
elements. -/
theorem ensures_listBest
    {better : Nat → Nat → Bool}
    (order : WeakOrder better)
    (rep : Represents links list xs)
    (nonempty : xs ≠ [])
    (enough : xs.length ≤ rounds) :
    Ensures (listBest better rounds list)
      (fun result next => next = links ∧ ∃ front back,
        xs = front ++ result :: back ∧ Best better front result back)
      links := by
  cases xs with
  | nil => exact absurd rfl nonempty
  | cons x xs =>
      have begins : (links list.head).next = some x := rep.head_next
      obtain ⟨next, isNext, points⟩ :=
        (@Represents.next links list x [] xs) rep
      rw [listBest, ensures_bind, ensures_listBegin begins, listEnd,
        if_neg (rep.ne_tail (by simp)), ensures_bind, ensures_listNext points]
      refine (@ensures_bestLoop links list xs next rounds better [] [] x) order
        rep ⟨by simp, by simp⟩ isNext ?_
      rw [List.length_cons] at enough
      omega

/-- Even keys before odd ones. -/
theorem even_before_odd : WeakOrder fun a b : Nat => decide (a % 2 < b % 2) :=
  weakOrder_key (· % 2)

/-- `list_max` returns the earliest of the largest elements of a list and
`list_min` the earliest of the smallest, and both leave every list as it is. -/
theorem list_max_and_min_earliest
    {less : Nat → Nat → Bool}
    (order : WeakOrder less)
    (rep : Represents links list xs)
    (nonempty : xs ≠ []) :
    Ensures (listMax less xs.length list)
        (fun result next => next = links ∧ ∃ front back,
          xs = front ++ result :: back ∧
          (∀ x ∈ front, less x result = true) ∧
          ∀ x ∈ back, less result x = false) links ∧
      Ensures (listMin less xs.length list)
        (fun result next => next = links ∧ ∃ front back,
          xs = front ++ result :: back ∧
          (∀ x ∈ front, less result x = true) ∧
          ∀ x ∈ back, less x result = false) links := by
  constructor
  · refine (ensures_listBest order.flip rep nonempty le_rfl).mono ?_
    rintro result next ⟨same, front, back, shape, best⟩
    exact ⟨same, front, back, shape, best.before, best.after⟩
  · refine (ensures_listBest order rep nonempty le_rfl).mono ?_
    rintro result next ⟨same, front, back, shape, best⟩
    exact ⟨same, front, back, shape, best.before, best.after⟩

/-- 5 is the only odd address; of the even ones 4 comes first. -/
theorem list_max_and_min_earliest_three :
    Represents twoLists ⟨0, 1⟩ [4, 5, 6] ∧
      Ensures (listMax (fun a b => a % 2 < b % 2) 3 ⟨0, 1⟩)
        (fun result _ => result = 5) twoLists ∧
      Ensures (listMin (fun a b => a % 2 < b % 2) 3 ⟨0, 1⟩)
        (fun result _ => result = 4) twoLists := by
  have rep := represents_twoLists
  have both := list_max_and_min_earliest even_before_odd rep (by decide)
  refine ⟨rep, both.1.mono ?_, both.2.mono ?_⟩
  · rintro result _ ⟨-, front, back, shape, inFront, behind⟩
    have member : result ∈ [4, 5, 6] := by simp [shape]
    by_contra other
    have five : 5 ∈ front ++ result :: back := shape ▸ by decide
    simp only [List.mem_append, List.mem_cons] at five member
    rcases five with five | five | five
    · have := inFront 5 five
      simp only [decide_eq_true_eq] at this
      omega
    · omega
    · have := behind 5 five
      simp only [decide_eq_false_iff_not] at this
      simp only [List.not_mem_nil, or_false] at member
      omega
  · rintro result _ ⟨-, front, back, shape, inFront, behind⟩
    have member : result ∈ [4, 5, 6] := by simp [shape]
    cases front with
    | nil => exact (List.cons.inj shape).1.symm
    | cons x front =>
        have four : x = 4 := (List.cons.inj shape).1.symm
        have := inFront x (List.mem_cons_self)
        simp only [decide_eq_true_eq] at this
        omega

/-! ## Ordered insertion -/

theorem ensures_placeLoop
    {less : Nat → Nat → Bool}
    {elem : Nat}
    (rep : Represents links list (outer ++ xs))
    (passed : ∀ x ∈ outer, less elem x = false)
    (isFirst : (xs ++ [list.tail]).head? = some e)
    (enough : xs.length < rounds) :
    Ensures (placeLoop less list elem rounds e)
      (fun place next => next = links ∧ ∃ front back,
        outer ++ xs = front ++ back ∧
        (back ++ [list.tail]).head? = some place ∧
        (∀ x ∈ front, less elem x = false) ∧
        ∀ x ∈ back.head?, less elem x = true) links := by
  induction rounds generalizing outer xs e with
  | zero => exact absurd enough (Nat.not_lt_zero _)
  | succ rounds inductionHypothesis =>
      rw [placeLoop, listEnd]
      cases xs with
      | nil =>
          obtain rfl : list.tail = e := by simpa using isFirst
          rw [if_pos rfl, ensures_pure]
          exact ⟨rfl, outer, [], rfl, rfl, passed, by simp⟩
      | cons x xs =>
          obtain rfl : x = e := by simpa using isFirst
          rw [if_neg (rep.ne_tail (by simp))]
          split
          · next isLess =>
              refine ensures_pure.mpr
                ⟨rfl, outer, x :: xs, rfl, rfl, passed, ?_⟩
              simpa using isLess
          · next notLess =>
              obtain ⟨next, isNext, points⟩ := rep.next
              rw [ensures_bind, ensures_listNext points]
              have onwards : Represents links list ((outer ++ [x]) ++ xs) := by
                simpa using rep
              refine (inductionHypothesis onwards ?_ isNext
                (Nat.lt_of_succ_lt_succ enough)).mono ?_
              · intro y member
                rcases List.mem_append.mp member with old | new
                · exact passed y old
                · rw [List.mem_singleton.mp new]
                  simpa using notLess
              · rintro place _ ⟨rfl, front, back, shape, rest⟩
                exact ⟨rfl, front, back, by rw [← shape]; simp, rest⟩

/-- `list_insert_ordered` puts an element into a sorted list behind all elements
that are not greater; the list stays sorted and no other list is touched. -/
theorem list_insert_ordered_sorted
    {less : Nat → Nat → Bool}
    {elem : Nat}
    (order : WeakOrder less)
    (rep : Represents links list xs)
    (sorted : xs.Pairwise fun a b => less b a = false)
    (new : elem ∉ list.whole xs) :
    Ensures (listInsertOrdered less (xs.length + 1) list elem)
      (fun _ next => ∃ front back, xs = front ++ back ∧
        Represents next list (front ++ elem :: back) ∧
        (front ++ elem :: back).Pairwise (fun a b => less b a = false) ∧
        (∀ x ∈ back, less elem x = true) ∧
        SameOutside (list.whole (front ++ elem :: back)) links next) links := by
  obtain ⟨first, isFirst, begins⟩ := rep.first
  rw [listInsertOrdered, ensures_bind, ensures_listBegin begins, ensures_bind]
  refine ((@ensures_placeLoop links list [] xs first _ less elem) rep (by simp)
    isFirst (Nat.lt_succ_self _)).mono ?_
  rintro place _ ⟨rfl, front, back, shape, isPlace, notLess, isLess⟩
  rw [List.nil_append] at shape
  subst shape
  refine (ensures_insert rep isPlace new).mono ?_
  rintro _ next ⟨inserted, same⟩
  have parts := List.pairwise_append.mp sorted
  have allLess : ∀ x ∈ back, less elem x = true := by
    intro x member
    cases back with
    | nil => cases member
    | cons y back =>
        have lessFirst : less elem y = true := isLess y rfl
        rcases List.mem_cons.mp member with rfl | later
        · exact lessFirst
        · by_contra notLess
          have above := (List.pairwise_cons.mp parts.2.1).1 x later
          have notFirst := order.negTrans elem x y (by simpa using notLess)
            above
          simp [lessFirst] at notFirst
  refine ⟨front, back, rfl, inserted, ?_, allLess, same⟩
  refine List.pairwise_append.mpr ⟨parts.1, ?_, ?_⟩
  · refine List.pairwise_cons.mpr ⟨fun x member => ?_, parts.2.1⟩
    exact order.asymm elem x (allLess x member)
  · intro x inFront y member
    rcases List.mem_cons.mp member with rfl | later
    · exact notLess x inFront
    · exact parts.2.2 x inFront y later

end Walks

/-- 9 is greater than all elements. -/
theorem list_insert_ordered_sorted_last :
    Represents twoLists ⟨0, 1⟩ [4, 5, 6] ∧
      Ensures (listInsertOrdered (fun a b => a < b) 4 ⟨0, 1⟩ 9)
        (fun _ next => Represents next ⟨0, 1⟩ [4, 5, 6, 9]) twoLists := by
  have rep := represents_twoLists
  have order : WeakOrder fun a b : Nat => decide (a < b) :=
    weakOrder_key id
  refine ⟨rep, (list_insert_ordered_sorted order rep (by decide)
    (by decide)).mono ?_⟩
  rintro _ next ⟨front, back, shape, inserted, -, greater, -⟩
  cases back with
  | nil =>
      rw [List.append_nil] at shape
      rwa [← shape] at inserted
  | cons x back =>
      have member : x ∈ [4, 5, 6] := by simp [shape]
      have above := greater x List.mem_cons_self
      simp only [decide_eq_true_eq] at above
      simp only [List.mem_cons, List.not_mem_nil, or_false] at member
      omega

end Lists
end Gdpfs
