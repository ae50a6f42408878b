import Gdpfs.List.Edit
import Gdpfs.Store.NaturalSort
import Mathlib.Algebra.Group.Nat.Defs

/-!
# Sorting a list in place (`list.c`)

`list_sort` is a natural merge sort.  The two runs that are merged stay in the
list, one behind the other, while elements of the second are spliced in front
of elements of the first.
-/

namespace Gdpfs
namespace Lists

open Effect Links NaturalSort

/-- The first element of a list, or the one behind it. -/
theorem exists_next (xs : List Nat) (y : Nat) (ys : List Nat) :
    ∃ c rest, xs ++ y :: ys = c :: rest ∧ (xs ++ [y]).head? = some c := by
  cases xs with
  | nil => exact ⟨y, ys, rfl, rfl⟩
  | cons x xs => exact ⟨x, xs ++ y :: ys, rfl, rfl⟩

section Merge

variable {links : Elems} {outer after as rest : List Nat} {a b c : Nat}

/-- An element moves to the front over some others of its list. -/
theorem ensures_splice_forward
    (closed : Closed links (outer ++ (a :: as ++ b :: c :: rest)))
    (inside : outer ≠ []) :
    Ensures (listSplice a b c)
      (fun _ next => Closed next (outer ++ b :: (a :: as ++ c :: rest)) ∧
        SameOutside (outer ++ (a :: as ++ b :: c :: rest)) links next)
      links := by
  obtain ⟨before, q, rfl⟩ : ∃ before q, outer = before ++ [q] := by
    rcases List.eq_nil_or_concat outer with empty | ⟨before, q, shape⟩
    · exact absurd empty inside
    · exact ⟨before, q, by simpa using shape⟩
  obtain ⟨front, p, shape⟩ := exists_concat a as
  have sourceShape : before ++ [q] ++ (a :: as ++ b :: c :: rest) =
      (before ++ [q] ++ front) ++ p :: ([b] ++ c :: rest) := by
    rw [shape]
    simp
  have source : Closed links
      ((before ++ [q] ++ front) ++ p :: ([b] ++ c :: rest)) :=
    sourceShape ▸ closed
  have targetShape : (before ++ [q] ++ front) ++ p :: c :: rest =
      before ++ q :: a :: (as ++ c :: rest) := by
    have regroup : (before ++ [q] ++ front) ++ p :: c :: rest =
        before ++ q :: ((front ++ [p]) ++ c :: rest) := by simp
    rw [regroup, ← shape]
    simp
  have target : Closed (join links p c)
      (before ++ q :: a :: (as ++ c :: rest)) :=
    targetShape ▸ source.take_out.1
  have moved : (before ++ q :: ([b] ++ a :: (as ++ c :: rest))).Perm
      (before ++ [q] ++ (a :: as ++ b :: c :: rest)) := by
    have shift := @List.perm_middle _ b (a :: as) (c :: rest)
    have front := shift.symm.append_left (before ++ [q])
    simpa using front
  have ends : [b].getLast? = some b := rfl
  refine (ensures_splice_closed source ends target
    (moved.nodup_iff.mpr closed.nodup)).mono ?_
  rintro _ next ⟨rfl, spliced⟩
  refine ⟨by simpa using spliced, ?_⟩
  intro x outside
  rw [sourceShape] at outside
  have notB : x ≠ b := by
    rintro rfl
    exact outside (by simp)
  have notA : x ≠ a := by
    rintro rfl
    rw [← sourceShape] at outside
    exact outside (by simp)
  have notQ : x ≠ q := by
    rintro rfl
    exact outside (by simp)
  have notP : x ≠ p := by
    rintro rfl
    exact outside (by simp)
  have notC : x ≠ c := by
    rintro rfl
    exact outside (by simp)
  rw [join_of_ne notB notA, join_of_ne notQ notB, join_of_ne notP notC]

/-- The loop of `inplace_merge`: `outer` ends with what is merged so far. -/
theorem ensures_mergeLoop
    {less : Nat → Nat → Bool}
    {first second : List Nat}
    {a0 a1b0 b1 rounds : Nat}
    (closed : Closed links (outer ++ (first ++ (second ++ b1 :: after))))
    (inside : outer ≠ [])
    (isA0 : (first ++ (second ++ [b1])).head? = some a0)
    (isA1b0 : (second ++ [b1]).head? = some a1b0)
    (enough : first.length + second.length < rounds) :
    Ensures (mergeLoop less b1 rounds a0 a1b0)
      (fun _ next =>
        Closed next
          (outer ++ (first.merge second (inOrder less) ++ b1 :: after)) ∧
        SameOutside (outer ++ (first ++ (second ++ b1 :: after))) links
          next) links := by
  induction rounds generalizing links outer first second a0 a1b0 with
  | zero => exact absurd enough (Nat.not_lt_zero _)
  | succ rounds inductionHypothesis =>
      rw [mergeLoop]
      cases first with
      | nil =>
          have same : a0 = a1b0 := Option.some.inj (isA0.symm.trans isA1b0)
          rw [if_pos (Or.inl same), ensures_pure, List.nil_merge]
          exact ⟨closed, fun _ _ => rfl⟩
      | cons a as =>
          obtain rfl : a = a0 := by simpa using isA0
          cases second with
          | nil =>
              obtain rfl : b1 = a1b0 := by simpa using isA1b0
              rw [if_pos (Or.inr rfl), ensures_pure, List.merge_right]
              exact ⟨closed, fun _ _ => rfl⟩
          | cons b bs =>
              obtain rfl : b = a1b0 := by simpa using isA1b0
              have nodup := (List.nodup_append.mp closed.nodup).2.1
              have goes : ¬(a = b ∨ b = b1) := by
                simp only [List.cons_append, List.nodup_cons, List.mem_append,
                  List.mem_cons, List.nodup_append] at nodup
                grind
              rw [if_neg goes, List.merge]
              cases compared : less b a with
              | true =>
                  obtain ⟨c, rest, beyond, isC⟩ := exists_next bs b1 after
                  have shape : outer ++ (a :: as ++ (b :: bs ++ b1 :: after)) =
                      (outer ++ a :: as) ++ b :: c :: rest := by
                    simp [beyond]
                  have next : Joined links b c := (shape ▸ closed).joined
                  have here : Closed links
                      (outer ++ (a :: as ++ b :: c :: rest)) := by
                    simpa [beyond] using closed
                  rw [if_pos rfl, ensures_bind, ensures_listNext next.1,
                    ensures_bind, ensures_listPrev next.2, ensures_bind]
                  refine (ensures_splice_forward here inside).mono ?_
                  rintro _ spliced ⟨moved, sameFirst⟩
                  have moved' : Closed spliced ((outer ++ [b]) ++
                      (a :: as ++ (bs ++ b1 :: after))) := by
                    simpa [beyond] using moved
                  refine (inductionHypothesis moved' (by simp) rfl isC
                    (by simp only [List.length_cons] at *; omega)).mono ?_
                  rintro _ final ⟨merged, sameRest⟩
                  refine ⟨by simpa [inOrder, compared] using merged, ?_⟩
                  intro x outside
                  rw [sameRest x fun member => outside (by grind),
                    sameFirst x fun member => outside (by grind)]
              | false =>
                  obtain ⟨c, rest, beyond, isC⟩ :=
                    exists_next (as ++ b :: bs) b1 after
                  have shape : outer ++ (a :: as ++ (b :: bs ++ b1 :: after)) =
                      outer ++ a :: c :: rest := by
                    simp [← beyond]
                  have next : Joined links a c := (shape ▸ closed).joined
                  rw [if_neg (by simp), ensures_bind, ensures_listNext next.1]
                  have onwards : Closed links ((outer ++ [a]) ++
                      (as ++ (b :: bs ++ b1 :: after))) := by
                    simpa using closed
                  refine (inductionHypothesis onwards (by simp)
                    (by simpa using isC) rfl
                    (by simp only [List.length_cons] at *; omega)).mono ?_
                  rintro _ final ⟨merged, sameRest⟩
                  refine ⟨by simpa [inOrder, compared] using merged, ?_⟩
                  intro x outside
                  exact sameRest x fun member => outside (by grind)

end Merge

section Runs

variable {less : Nat → Nat → Bool} {links : Elems} {outer xs after : List Nat}
  {a b stop rounds : Nat}

/-- `find_end_of_run` returns the element behind the run that starts with
`a`. -/
theorem ensures_runLoop
    (closed : Closed links (outer ++ a :: (xs ++ b :: after)))
    (enough : xs.length < rounds)
    {post : Nat → Elems → Prop}
    (isStop : ((run less a xs).2 ++ [b]).head? = some stop)
    (holds : post stop links) :
    Ensures (runLoop less b rounds a) post links := by
  induction rounds generalizing outer a xs with
  | zero => exact absurd enough (Nat.not_lt_zero _)
  | succ rounds inductionHypothesis =>
      rw [runLoop, ensures_bind]
      cases xs with
      | nil =>
          obtain rfl : b = stop := by simpa [run] using isStop
          have next : Joined links a b := closed.joined
          rw [ensures_listNext next.1, if_pos rfl, ensures_pure]
          exact holds
      | cons x xs =>
          have next : Joined links a x := closed.joined
          have nodup := (List.nodup_append.mp closed.nodup).2.1
          have goes : x ≠ b := by
            rintro rfl
            simp at nodup
          rw [ensures_listNext next.1, if_neg goes, ensures_bind,
            ensures_listPrev next.2]
          rw [run] at isStop
          split
          · next isLess =>
              rw [if_pos isLess] at isStop
              obtain rfl : x = stop := by simpa using isStop
              exact ensures_pure.mpr holds
          · next notLess =>
              rw [if_neg notLess] at isStop
              have onwards : Closed links
                  ((outer ++ [a]) ++ x :: (xs ++ b :: after)) := by
                simpa using closed
              exact inductionHypothesis onwards
                (Nat.lt_of_succ_lt_succ enough) isStop

theorem ensures_findEndOfRun
    (closed : Closed links (outer ++ a :: (xs ++ b :: after)))
    (enough : xs.length < rounds)
    {post : Nat → Elems → Prop}
    (isStop : ((run less a xs).2 ++ [b]).head? = some stop)
    (holds : post stop links) :
    Ensures (findEndOfRun less rounds a b) post links := by
  have differ : a ≠ b := by
    have nodup := (List.nodup_append.mp closed.nodup).2.1
    rintro rfl
    simp at nodup
  rw [findEndOfRun, ensures_bind, ensures_ensure]
  refine ⟨bne_iff_ne.mpr differ, ?_⟩
  exact ensures_runLoop closed enough isStop holds

theorem ensures_sortedLoop
    (closed : Closed links (outer ++ a :: (xs ++ b :: after)))
    (enough : xs.length < rounds)
    (ascending : Ascending less (a :: xs))
    {post : Bool → Elems → Prop}
    (holds : post true links) :
    Ensures (sortedLoop less b rounds a) post links := by
  induction rounds generalizing outer a xs with
  | zero => exact absurd enough (Nat.not_lt_zero _)
  | succ rounds inductionHypothesis =>
      rw [sortedLoop, ensures_bind]
      cases xs with
      | nil =>
          have next : Joined links a b := closed.joined
          rw [ensures_listNext next.1, if_pos rfl, ensures_pure]
          exact holds
      | cons x xs =>
          have next : Joined links a x := closed.joined
          have nodup := (List.nodup_append.mp closed.nodup).2.1
          obtain ⟨notLess, rest⟩ := ascending_cons_cons.mp ascending
          have goes : x ≠ b := by
            rintro rfl
            simp at nodup
          have onwards : Closed links
              ((outer ++ [a]) ++ x :: (xs ++ b :: after)) := by
            simpa using closed
          rw [ensures_listNext next.1, if_neg goes, ensures_bind,
            ensures_listPrev next.2, notLess, if_neg (by simp)]
          exact inductionHypothesis onwards (Nat.lt_of_succ_lt_succ enough)
            rest

/-- `is_sorted` finds an ascending range sorted. -/
theorem ensures_isSorted
    (closed : Closed links (outer ++ (xs ++ b :: after)))
    (isFirst : (xs ++ [b]).head? = some a)
    (enough : xs.length ≤ rounds)
    (ascending : Ascending less xs)
    {post : Bool → Elems → Prop}
    (holds : post true links) :
    Ensures (isSorted less rounds a b) post links := by
  rw [isSorted]
  cases xs with
  | nil =>
      obtain rfl : b = a := by simpa using isFirst
      rw [if_pos rfl, ensures_pure]
      exact holds
  | cons x xs =>
      obtain rfl : x = a := by simpa using isFirst
      have nodup := (List.nodup_append.mp closed.nodup).2.1
      have goes : x ≠ b := by
        rintro rfl
        simp at nodup
      rw [if_neg goes]
      exact ensures_sortedLoop closed enough ascending holds

/-- `inplace_merge` merges two runs where they are. -/
theorem ensures_inplaceMerge
    {first second : List Nat}
    {a0 a1b0 b1 : Nat}
    (closed : Closed links (outer ++ (first ++ (second ++ b1 :: after))))
    (inside : outer ≠ [])
    (someFirst : first.head? = some a0)
    (someSecond : second.head? = some a1b0)
    (ascendingFirst : Ascending less first)
    (ascendingSecond : Ascending less second)
    (enough : first.length + second.length < rounds) :
    Ensures (inplaceMerge less rounds a0 a1b0 b1)
      (fun _ next =>
        Closed next
          (outer ++ (first.merge second (inOrder less) ++ b1 :: after)) ∧
        SameOutside (outer ++ (first ++ (second ++ b1 :: after))) links
          next) links := by
  obtain ⟨bs, rfl⟩ := List.head?_eq_some_iff.mp someSecond
  obtain ⟨as, rfl⟩ := List.head?_eq_some_iff.mp someFirst
  have closedSecond : Closed links
      ((outer ++ (a0 :: as)) ++ ((a1b0 :: bs) ++ b1 :: after)) := by
    simpa using closed
  rw [inplaceMerge, ensures_bind]
  refine (@ensures_isSorted less links outer (a0 :: as) (bs ++ b1 :: after) a0
    a1b0 rounds) closed rfl (by omega) ascendingFirst ?_
  rw [ensures_bind, ensures_ensure, ensures_bind]
  refine ⟨rfl, ?_⟩
  refine (@ensures_isSorted less links (outer ++ a0 :: as) (a1b0 :: bs) after
    a1b0 b1 rounds) closedSecond rfl (by omega) ascendingSecond ?_
  rw [ensures_bind, ensures_ensure]
  exact ⟨rfl, ensures_mergeLoop closed inside rfl rfl enough⟩

end Runs

section Passes

variable {less : Nat → Nat → Bool} {links : Elems} {list : ListHead}
  {outer xs : List Nat} {a0 rounds : Nat}

/-- The inner loop of `list_sort` is a pass over the rest of the list; `outer`
ends with the runs that are done. -/
theorem ensures_passLoop
    {passRounds count : Nat}
    (closed : Closed links (outer ++ (xs ++ [list.tail])))
    (inside : outer ≠ [])
    (isA0 : (xs ++ [list.tail]).head? = some a0)
    (enough : xs.length < passRounds)
    (enoughInner : xs.length < rounds) :
    Ensures (passLoop less rounds list passRounds a0 count)
      (fun total next => ∃ ys done, Passed less xs ys done ∧
        total = count + done ∧ Closed next (outer ++ (ys ++ [list.tail])) ∧
        SameOutside (outer ++ (xs ++ [list.tail])) links next) links := by
  induction passRounds generalizing links outer xs a0 count with
  | zero => exact absurd enough (Nat.not_lt_zero _)
  | succ passRounds inductionHypothesis =>
      rw [passLoop, listEnd]
      cases xs with
      | nil =>
          obtain rfl : list.tail = a0 := by simpa using isA0
          rw [if_pos rfl, ensures_pure]
          exact ⟨[], 0, .nil, rfl, closed, fun _ _ => rfl⟩
      | cons a rest =>
          obtain rfl : a = a0 := by simpa using isA0
          have nodup := (List.nodup_append.mp closed.nodup).2.1
          have goes : a ≠ list.tail := by
            rintro rfl
            simp at nodup
          have firstParts := @run_append _ less a rest
          have firstAscending := @ascending_run _ less a rest
          have firstDescends := @descends_run _ less a rest
          rw [if_neg goes, ensures_bind]
          cases remaining : (run less a rest).2 with
          | nil =>
              rw [remaining, List.append_nil] at firstParts
              refine (@ensures_findEndOfRun less links outer rest [] a
                list.tail list.tail rounds) closed
                (Nat.lt_of_succ_lt enoughInner) (by simp [remaining]) ?_
              rw [if_pos rfl, ensures_pure]
              refine ⟨a :: rest, 1, .one (List.cons_ne_nil _ _) ?_, rfl,
                closed, fun _ _ => rfl⟩
              rwa [firstParts] at firstAscending
          | cons b others =>
              rw [remaining] at firstParts firstDescends
              have secondParts := @run_append _ less b others
              have secondAscending := @ascending_run _ less b others
              have secondDescends := @descends_run _ less b others
              have lengths : (run less a rest).1.length + 1 +
                  (run less b others).1.length +
                  (run less b others).2.length = rest.length := by
                have outerLength := congrArg List.length firstParts
                have innerLength := congrArg List.length secondParts
                simp only [List.length_append, List.length_cons] at *
                omega
              simp only [List.length_cons] at enough enoughInner
              have whole : outer ++ (a :: rest ++ [list.tail]) =
                  (outer ++ a :: (run less a rest).1) ++
                    b :: (others ++ [list.tail]) := by
                have parts := congrArg
                  (fun tail => outer ++ (a :: tail ++ [list.tail])) firstParts
                simpa using parts.symm
              have goesOn : b ≠ list.tail := by
                have inner := (List.nodup_append.mp
                  (whole ▸ closed.nodup)).2.1
                rintro rfl
                simp at inner
              refine (@ensures_findEndOfRun less links outer rest [] a
                list.tail b rounds) closed (by omega)
                (by simp [remaining]) ?_
              rw [if_neg goesOn, ensures_bind]
              obtain ⟨b1, after, behind, isB1⟩ :=
                exists_next (run less b others).2 list.tail []
              refine (@ensures_findEndOfRun less links
                (outer ++ a :: (run less a rest).1) others [] b list.tail b1
                rounds) (whole ▸ closed) ?_ isB1 ?_
              · have innerLength := congrArg List.length secondParts
                simp only [List.length_append] at innerLength
                omega
              rw [ensures_bind]
              have twoRuns : outer ++ (a :: rest ++ [list.tail]) =
                  outer ++ (a :: (run less a rest).1 ++
                    (b :: (run less b others).1 ++ b1 :: after)) := by
                have parts := congrArg (fun tail => (outer ++
                  a :: (run less a rest).1) ++ b :: (tail ++ [list.tail]))
                  secondParts
                rw [whole, ← behind]
                simpa using parts.symm
              refine (ensures_inplaceMerge (twoRuns ▸ closed) inside rfl rfl
                firstAscending secondAscending
                (by simp only [List.length_cons]; omega)).mono ?_
              rintro _ merged ⟨closedMerged, sameMerged⟩
              rw [← behind, ← List.append_assoc outer] at closedMerged
              refine (inductionHypothesis closedMerged (by simp [inside]) isB1
                (by omega) (by omega)).mono ?_
              rintro total next ⟨ys, done, passed, rfl, closedNext, sameNext⟩
              refine ⟨(a :: (run less a rest).1).merge
                (b :: (run less b others).1) (inOrder less) ++ ys, done + 1,
                ?_, by omega, ?_, ?_⟩
              · have paired := Passed.pair (List.cons_ne_nil _ _)
                  (List.cons_ne_nil _ _) firstAscending secondAscending
                  (by simpa using firstDescends) secondDescends passed
                have shape : a :: (run less a rest).1 ++
                    b :: (run less b others).1 ++ (run less b others).2 =
                    a :: rest := by
                  have parts := congrArg (fun tail =>
                    a :: ((run less a rest).1 ++ b :: tail)) secondParts
                  rw [firstParts] at parts
                  simpa using parts
                rwa [shape] at paired
              · simpa using closedNext
              · intro x outside
                rw [sameNext x ?_, sameMerged x ?_]
                · rwa [← twoRuns]
                · intro member
                  refine outside ?_
                  rw [twoRuns, ← behind]
                  simp only [List.mem_append, List.mem_merge] at member ⊢
                  tauto

/-- The outer loop of `list_sort`: every pass halves the number of descents. -/
theorem ensures_sortLoop
    {passes : Nat}
    (order : WeakOrder less)
    (rep : Represents links list xs)
    (some : 0 < passes)
    (enough : descents less xs < 2 ^ passes)
    (enoughRounds : xs.length < rounds) :
    Ensures (sortLoop less rounds list passes)
      (fun _ next => ∃ ys, Arranged less xs ys ∧ Ascending less ys ∧
        Represents next list ys ∧
        SameOutside (list.whole xs) links next) links := by
  induction passes generalizing links xs with
  | zero => exact absurd some (Nat.lt_irrefl 0)
  | succ passes inductionHypothesis =>
      obtain ⟨first, isFirst, begins⟩ := rep.first
      have closed : Closed links ([list.head] ++ (xs ++ [list.tail])) := rep
      rw [sortLoop, ensures_bind, ensures_listBegin begins, ensures_bind]
      refine (ensures_passLoop closed (by simp) isFirst enoughRounds
        enoughRounds).mono ?_
      rintro total next ⟨ys, done, passed, rfl, closedNext, same⟩
      have arranged := passed.arranged order
      have fewer := passed.descents_lt order
      have half := passed.count_le
      have repNext : Represents next list ys := closedNext
      rw [Nat.zero_add]
      split
      · next more =>
          have somePasses : 0 < passes := by
            by_contra none
            have zero : passes = 0 := by omega
            rw [zero] at enough
            omega
          refine (inductionHypothesis repNext somePasses ?_ ?_).mono ?_
          · rw [Nat.pow_succ] at enough
            omega
          · rwa [arranged.perm.length_eq]
          · rintro _ final ⟨zs, further, ascending, repFinal, sameFurther⟩
            refine ⟨zs, arranged.trans further, ascending, repFinal, ?_⟩
            intro x outside
            rw [sameFurther x ?_, same x outside]
            intro member
            refine outside ?_
            simp only [ListHead.whole, List.mem_append, List.mem_cons,
              arranged.perm.mem_iff] at member ⊢
            exact member
      · next few =>
          refine ensures_pure.mpr ⟨ys, arranged, ?_, repNext, same⟩
          exact descents_eq_zero.mp (by omega)

/-- `list_sort` sorts a list in place, by a stable sort: whatever the elements
are, the passes end without a failed assertion, with the same elements in
ascending order, and elements that were in order keep their places relative to
each other; no other list is touched.  At most `passes` passes are made over a
list of at most `2 ^ passes` elements, each of them linear. -/
theorem list_sort_sorts
    {passes : Nat}
    (order : WeakOrder less)
    (rep : Represents links list xs)
    (some : 0 < passes)
    (enough : xs.length ≤ 2 ^ passes) :
    Ensures (listSort less passes (xs.length + 1) list)
      (fun _ next => ∃ ys, Represents next list ys ∧ ys.Perm xs ∧
        ys.Pairwise (fun a b => less b a = false) ∧
        (∀ a b, [a, b].Sublist xs → less b a = false →
          [a, b].Sublist ys) ∧
        SameOutside (list.whole xs) links next) links := by
  have fewer := @descents_le_length _ less xs
  have positive : 0 < 2 ^ passes := Nat.pow_pos (by decide)
  rw [listSort, ensures_bind]
  refine (ensures_sortLoop order rep some (by omega)
    (Nat.lt_succ_self _)).mono ?_
  rintro _ next ⟨ys, arranged, ascending, repNext, same⟩
  obtain ⟨first, isFirst, begins⟩ := repNext.first
  have closed : Closed next ([list.head] ++ (ys ++ list.tail :: [])) := repNext
  rw [ensures_bind, ensures_listBegin begins, ensures_bind]
  refine ensures_isSorted closed isFirst ?_ ascending ?_
  · rw [arranged.perm.length_eq]
    exact Nat.le_succ _
  · rw [ensures_ensure]
    refine ⟨rfl, ys, repNext, arranged.perm, ?_, arranged.stable, same⟩
    refine (order.pairwise ascending).imp ?_
    intro a b ordered
    simpa [inOrder] using ordered

end Passes

/-- Odd addresses first; 6 stays behind 4. -/
theorem list_sort_sorts_three :
    Represents twoLists ⟨0, 1⟩ [4, 5, 6] ∧
      Ensures (listSort (fun a b => b % 2 < a % 2) 2 4 ⟨0, 1⟩)
        (fun _ next => ∃ ys, Represents next ⟨0, 1⟩ ys ∧
          ys.Perm [4, 5, 6] ∧
          ys.Pairwise (fun a b => decide (a % 2 < b % 2) = false) ∧
          [4, 6].Sublist ys) twoLists := by
  have rep := represents_twoLists
  have order : WeakOrder fun a b : Nat => decide (b % 2 < a % 2) :=
    (weakOrder_key (· % 2)).flip
  refine ⟨rep, (list_sort_sorts order rep (by decide) (by decide)).mono ?_⟩
  rintro _ next ⟨ys, repNext, perm, sorted, stable, -⟩
  exact ⟨ys, repNext, perm, sorted, stable 4 6 (by decide) (by decide)⟩

end Lists
end Gdpfs
