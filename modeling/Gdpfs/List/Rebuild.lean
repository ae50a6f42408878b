import Gdpfs.List.Scan
import Mathlib.Data.List.Destutter

/-!
# Reversal and the removal of repeats (`list.c`)

`list_reverse` exchanges the two links of every element and then mends the ends.
`list_unique` takes the elements out that are equal to the one held before them
and may put them into a second list.
-/

namespace Gdpfs
namespace Lists

open Effect Links

/-! ## Reversal -/

section Reverse

variable {links : Elems} {list : ListHead} {outer xs : List Nat}
  {e elem rounds : Nat}

theorem Represents.inner_nodup
    (rep : Represents links list xs) :
    xs.Nodup :=
  (List.nodup_cons.mp (List.nodup_append.mp rep.nodup).1).2

theorem Represents.head_notMem
    (rep : Represents links list xs) :
    list.head ∉ xs :=
  (List.nodup_cons.mp (List.nodup_append.mp rep.nodup).1).1

theorem Represents.head_ne_tail
    (rep : Represents links list xs) :
    list.head ≠ list.tail :=
  (List.nodup_append.mp rep.nodup).2.2 list.head List.mem_cons_self list.tail
    (List.mem_singleton_self _)

/-- The links after some elements had their two links exchanged. -/
def swapped (links : Elems) (elems : List Nat) : Elems :=
  fun x => if x ∈ elems then turned links x else links x

theorem swapped_of_mem
    (member : e ∈ xs) :
    swapped links xs e = turned links e :=
  if_pos member

theorem swapped_of_notMem
    (outside : e ∉ xs) :
    swapped links xs e = links e :=
  if_neg outside

theorem ensures_swapLinks
    (outside : elem ∉ outer)
    {post : Unit → Elems → Prop} :
    Ensures (swapLinks elem) post (swapped links outer) ↔
      post () (swapped links (outer ++ [elem])) := by
  have exchanged : setNext (setPrev (swapped links outer) elem
      (swapped links outer elem).next) elem (swapped links outer elem).prev =
      swapped links (outer ++ [elem]) := by
    funext x
    rw [swapped_of_notMem outside]
    by_cases same : x = elem
    · subst same
      apply Link.ext <;> simp [swapped, turned]
    · apply Link.ext <;> simp [swapped, same]
  simp only [swapLinks, ensures_bind, ensures_getPrev, ensures_getNext,
    ensures_putPrev, ensures_putNext, exchanged]

theorem ensures_reverseLoop
    (rep : Represents links list (outer ++ xs))
    (isFirst : (xs ++ [list.tail]).head? = some e)
    (enough : xs.length < rounds) :
    Ensures (reverseLoop list rounds e)
      (fun _ next => next = swapped links (outer ++ xs))
      (swapped links outer) := by
  induction rounds generalizing outer xs e with
  | zero => exact absurd enough (Nat.not_lt_zero _)
  | succ rounds inductionHypothesis =>
      rw [reverseLoop, listEnd]
      cases xs with
      | nil =>
          obtain rfl : list.tail = e := by simpa using isFirst
          rw [if_pos rfl, ensures_pure, List.append_nil]
      | cons x xs =>
          obtain rfl : x = e := by simpa using isFirst
          obtain ⟨next, isNext, points⟩ := rep.next
          have outside : x ∉ outer := by
            have nodup := (List.nodup_append.mp rep.inner_nodup).2.2
            exact fun member => nodup x member x List.mem_cons_self rfl
          rw [if_neg (rep.ne_tail (by simp)), ensures_bind,
            ensures_swapLinks outside, ensures_bind, ensures_getPrev,
            swapped_of_mem (by simp), turned, points, ensures_bind,
            ensures_follow_some]
          have onwards : Represents links list ((outer ++ [x]) ++ xs) := by
            simpa using rep
          simpa using inductionHypothesis onwards isNext
            (Nat.lt_of_succ_lt_succ enough)

/-- What `list_reverse` does after its loop, to the links of the headers and to
the outer links of the first and the last element. -/
def mended (links : Elems) (list : ListHead) (first last : Nat) : Elems :=
  setNext
    (setPrev
      (setPrev (setNext links list.head (some last)) list.tail (some first))
      last (some list.head))
    first (some list.tail)

theorem Represents.mended
    {first last : Nat}
    (rep : Represents links list xs)
    (isFirst : xs.head? = some first)
    (isLast : xs.getLast? = some last) :
    Represents (mended (swapped links xs) list first last) list xs.reverse := by
  have headOut := rep.head_notMem
  have tailOut := rep.tail_notMem
  have notHead : ∀ x ∈ xs, x ≠ list.head :=
    fun x member same => headOut (same ▸ member)
  have notTail : ∀ x ∈ xs, x ≠ list.tail :=
    fun x member same => tailOut (same ▸ member)
  have firstIn := List.mem_of_head? isFirst
  have lastIn := List.mem_of_getLast? isLast
  have headFirst := Ne.symm (notHead first firstIn)
  have tailLast := Ne.symm (notTail last lastIn)
  have tailFirst := Ne.symm (notTail first firstIn)
  refine rep.reverse isFirst isLast ?_ ?_ ⟨?_, ?_⟩ ⟨?_, ?_⟩ ?_ ?_
  · intro a member other
    simp [Lists.mended, other, notHead a member, swapped_of_mem member, turned]
  · intro a member other
    simp [Lists.mended, other, notTail a member, swapped_of_mem member, turned]
  · simp [Lists.mended, headFirst]
  · simp [Lists.mended]
  · simp [Lists.mended]
  · simp [Lists.mended, tailLast]
  · have outer : (links list.head).prev = none := rep.front list.head rfl
    have notLast := Ne.symm (notHead last lastIn)
    simp [Lists.mended, rep.head_ne_tail, notLast, swapped_of_notMem headOut,
      outer]
  · have outer : (links list.tail).next = none := by
      refine rep.back list.tail ?_
      rw [List.getLast?_concat]
      rfl
    simp [Lists.mended, tailFirst, rep.head_ne_tail.symm,
      swapped_of_notMem tailOut, outer]

theorem mended_outside
    {first last : Nat}
    (isFirst : xs.head? = some first)
    (isLast : xs.getLast? = some last) :
    SameOutside (list.whole xs) links
      (Lists.mended (swapped links xs) list first last) := by
  have firstIn := List.mem_of_head? isFirst
  have lastIn := List.mem_of_getLast? isLast
  intro x outside
  have notHead : x ≠ list.head := by
    rintro rfl
    exact outside List.mem_cons_self
  have inner : x ∉ xs := fun member =>
    outside (List.mem_append_left _ (List.mem_cons_of_mem _ member))
  have notTail : x ≠ list.tail := by
    rintro rfl
    exact outside (List.mem_append_right _ (List.mem_singleton_self _))
  have notFirst : x ≠ first := fun same => inner (same ▸ firstIn)
  have notLast : x ≠ last := fun same => inner (same ▸ lastIn)
  apply Link.ext <;> simp [Lists.mended, notHead, notTail, notFirst, notLast,
    swapped_of_notMem inner]

/-- `list_reverse` turns the order of any list around and touches no other
element. -/
theorem list_reverse_reverses
    (rep : Represents links list xs) :
    Ensures (listReverse (xs.length + 1) list)
      (fun _ next => Represents next list xs.reverse ∧
        SameOutside (list.whole xs) links next) links := by
  rw [listReverse, ensures_bind, ensures_listEmpty rep]
  cases xs with
  | nil =>
      rw [List.isEmpty_nil, if_pos rfl, ensures_pure]
      exact ⟨rep, fun _ _ => rfl⟩
  | cons first rest =>
      obtain ⟨front, last, shape⟩ := exists_concat first rest
      have isLast : (first :: rest).getLast? = some last := by
        rw [shape, List.getLast?_concat]
      have begins : (links list.head).next = some first := rep.head_next
      have ends : (links list.tail).prev = some last := by
        rw [rep.tail_prev, shape, ← List.cons_append, List.getLast?_concat]
      have loop : Ensures (reverseLoop list ((first :: rest).length + 1) first)
          (fun _ next => next = swapped links (first :: rest)) links := by
        have unchanged : swapped links [] = links :=
          funext fun x => swapped_of_notMem List.not_mem_nil
        have whole := (@ensures_reverseLoop links list [] (first :: rest) first
          ((first :: rest).length + 1)) rep rfl (Nat.lt_succ_self _)
        rwa [unchanged, List.nil_append] at whole
      rw [List.isEmpty_cons, if_neg (by decide), ensures_bind,
        ensures_listBegin begins, ensures_bind]
      refine loop.mono ?_
      rintro _ _ rfl
      have lastIn : last ∈ first :: rest := List.mem_of_getLast? isLast
      have notHead : first ≠ list.head := fun same =>
        rep.head_notMem (same ▸ List.mem_cons_self)
      have notTail : last ≠ list.tail := fun same =>
        rep.tail_notMem (same ▸ lastIn)
      -- The outer links of the two ends still lead to the headers.
      have toHead : (swapped links (first :: rest) first).next =
          some list.head := by
        rw [swapped_of_mem List.mem_cons_self]
        exact (@Closed.joined _ links [] _ _ _ rep).2
      have toTail : (swapped links (first :: rest) last).prev =
          some list.tail := by
        have closed : Closed links
            ((list.head :: front) ++ last :: list.tail :: []) := by
          rw [Represents, shape] at rep
          simpa using rep
        rw [swapped_of_mem lastIn]
        exact closed.joined.1
      simp only [ensures_bind, ensures_getNext, ensures_getPrev,
        ensures_putNext, ensures_putPrev, ensures_follow_some, setNext_next,
        setNext_prev, setPrev_next, setPrev_prev, if_pos,
        swapped_of_notMem rep.head_notMem, swapped_of_notMem rep.tail_notMem,
        begins, ends, if_neg notHead, if_neg notTail, toHead, toTail]
      exact ⟨rep.mended rfl isLast, mended_outside rfl isLast⟩

end Reverse

/-- Three elements come out the other way around. -/
theorem list_reverse_reverses_three :
    Represents twoLists ⟨0, 1⟩ [4, 5, 6] ∧
      Ensures (listReverse 4 ⟨0, 1⟩)
        (fun _ next => Represents next ⟨0, 1⟩ [6, 5, 4] ∧
          SameOutside [0, 4, 5, 6, 1] twoLists next) twoLists := by
  have rep := represents_twoLists
  refine ⟨rep, (list_reverse_reverses rep).mono ?_⟩
  rintro _ next ⟨reversed, same⟩
  exact ⟨reversed, same⟩

/-! ## Removal of repeats -/

section Unique

variable {links : Elems} {list : ListHead} {duplicates : Option ListHead}
  {outer xs collected : List Nat} {elem rounds : Nat}
  {less : Nat → Nat → Bool}

/-- Neither of two elements is less than the other unless they differ. -/
def differ (less : Nat → Nat → Bool) (a b : Nat) : Bool := less a b || less b a

theorem not_differ (a b : Nat) :
    (!less a b && !less b a) = !differ less a b := by
  rw [differ, Bool.not_or]

/-- The elements that are equal to the last one kept before them. -/
def repeats (less : Nat → Nat → Bool) : Nat → List Nat → List Nat
  | _, [] => []
  | held, x :: xs =>
      if differ less held x then repeats less x xs
      else x :: repeats less held xs

/-- What is kept and what is not make up the whole. -/
theorem keep_append_repeats_perm (held : Nat) (xs : List Nat) :
    (xs.destutter' (fun a b => differ less a b = true) held ++
      repeats less held xs).Perm (held :: xs) := by
  induction xs generalizing held with
  | nil => exact .refl _
  | cons x xs inductionHypothesis =>
      rw [List.destutter'_cons, repeats]
      split
      · exact (inductionHypothesis x).cons held
      · refine List.perm_middle.trans ?_
        exact ((inductionHypothesis held).cons x).trans (.swap held x xs)

theorem repeats_sublist (held : Nat) (xs : List Nat) :
    (repeats less held xs).Sublist xs := by
  induction xs generalizing held with
  | nil => exact .refl _
  | cons x xs inductionHypothesis =>
      rw [repeats]
      split
      · exact (inductionHypothesis x).cons x
      · exact (inductionHypothesis held).cons_cons x

theorem repeats_equal (held : Nat) (xs : List Nat) :
    ∀ x ∈ repeats less held xs,
      ∃ y ∈ xs.destutter' (fun a b => differ less a b = true) held,
        differ less y x = false := by
  induction xs generalizing held with
  | nil => exact fun x member => absurd member List.not_mem_nil
  | cons next xs inductionHypothesis =>
      intro x member
      rw [repeats] at member
      rw [List.destutter'_cons]
      split at member
      · next differs =>
          obtain ⟨y, inKept, equal⟩ := inductionHypothesis next x member
          rw [if_pos differs]
          exact ⟨y, List.mem_cons_of_mem _ inKept, equal⟩
      · next differs =>
          rw [if_neg differs]
          rcases List.mem_cons.mp member with rfl | later
          · exact ⟨held, List.mem_destutter' _ _ _, by simpa using differs⟩
          · exact inductionHypothesis held x later

/-- A list that may be missing has these elements, none of them in another
list. -/
def Collects (links : Elems) (others : List Nat) :
    Option ListHead → List Nat → Prop
  | none, _ => True
  | some duplicates, collected =>
      Represents links duplicates collected ∧
        others.Disjoint (duplicates.whole collected)

/-- The elements of a list that may be missing. -/
def wholeOf : Option ListHead → List Nat → List Nat
  | none, _ => []
  | some duplicates, collected => duplicates.whole collected

theorem wholeOf_concat_subset :
    wholeOf duplicates (collected ++ [elem]) ⊆
      elem :: wholeOf duplicates collected := by
  cases duplicates with
  | none => exact List.nil_subset _
  | some duplicates =>
      intro y member
      simp only [wholeOf, ListHead.whole, List.mem_append, List.mem_cons,
        List.not_mem_nil, or_false] at member ⊢
      tauto

theorem Collects.apart
    {others : List Nat}
    (collects : Collects links others duplicates collected) :
    others.Disjoint (wholeOf duplicates collected) := by
  cases duplicates with
  | none => exact List.disjoint_nil_right others
  | some duplicates => exact collects.2

theorem Collects.frame
    {next : Elems}
    {others fewer : List Nat}
    (collects : Collects links others duplicates collected)
    (same : ∀ x ∈ wholeOf duplicates collected, next x = links x)
    (subset : fewer ⊆ others) :
    Collects next fewer duplicates collected := by
  cases duplicates with
  | none => trivial
  | some duplicates =>
      obtain ⟨repCollected, apart⟩ := collects
      exact ⟨repCollected.frame same, List.disjoint_of_subset_left subset apart⟩

theorem SameOutside.trans
    {second third : Elems}
    {first later whole : List Nat}
    (before : SameOutside first links second)
    (after : SameOutside later second third)
    (firstIn : first ⊆ whole)
    (laterIn : later ⊆ whole) :
    SameOutside whole links third := by
  intro x outside
  rw [after x fun member => outside (laterIn member),
    before x fun member => outside (firstIn member)]

/-- `list_push_back` onto a list that may be missing. -/
theorem ensures_collect
    (rep : Represents links list xs)
    (collects : Collects links (list.whole xs) duplicates collected)
    (new : elem ∉ list.whole xs)
    (newToo : elem ∉ wholeOf duplicates collected) :
    Ensures (collect duplicates elem)
      (fun _ next => Represents next list xs ∧
        Collects next (list.whole xs) duplicates (collected ++ [elem]) ∧
        SameOutside (wholeOf duplicates (collected ++ [elem])) links next)
      links := by
  cases duplicates with
  | none =>
      rw [collect, ensures_pure]
      exact ⟨rep, trivial, fun _ _ => rfl⟩
  | some duplicates =>
      obtain ⟨repCollected, apart⟩ := collects
      refine (ensures_listPushBack repCollected newToo).mono ?_
      rintro _ next ⟨pushed, same⟩
      have apartNow : (list.whole xs).Disjoint
          (duplicates.whole (collected ++ [elem])) := by
        intro x inList inCollected
        have old : x ∈ duplicates.whole collected ∨ x = elem := by
          simp only [ListHead.whole, List.mem_append, List.mem_cons,
            List.not_mem_nil, or_false] at inCollected ⊢
          tauto
        rcases old with old | rfl
        · exact apart inList old
        · exact new inList
      exact ⟨rep.frame fun x member => same x (apartNow member),
        ⟨pushed, apartNow⟩, same⟩

theorem ensures_uniqueLoop
    (rep : Represents links list (outer ++ elem :: xs))
    (collects : Collects links (list.whole (outer ++ elem :: xs)) duplicates
      collected)
    (enough : xs.length < rounds) :
    Ensures (uniqueLoop less list duplicates rounds elem)
      (fun _ next => ∃ kept,
        kept = xs.destutter' (fun a b => differ less a b = true) elem ∧
        Represents next list (outer ++ kept) ∧
        Collects next (list.whole (outer ++ kept)) duplicates
          (collected ++ repeats less elem xs) ∧
        SameOutside
          (list.whole (outer ++ elem :: xs) ++ wholeOf duplicates collected)
          links next) links := by
  induction rounds generalizing outer xs elem collected links with
  | zero => exact absurd enough (Nat.not_lt_zero _)
  | succ rounds inductionHypothesis =>
      obtain ⟨next, isNext, points⟩ := rep.next
      rw [uniqueLoop, ensures_bind, ensures_listNext points, listEnd]
      cases xs with
      | nil =>
          obtain rfl : list.tail = next := by simpa using isNext
          rw [if_pos rfl, ensures_pure, repeats, List.append_nil]
          exact ⟨[elem], rfl, rep, collects, fun _ _ => rfl⟩
      | cons x xs =>
          obtain rfl : x = next := by simpa using isNext
          rw [if_neg (rep.ne_tail (by simp)), List.destutter'_cons, repeats]
          have short := Nat.lt_of_succ_lt_succ enough
          have regroup : outer ++ elem :: x :: xs =
              (outer ++ [elem]) ++ x :: xs := by simp
          cases differs : differ less elem x with
          | true =>
              rw [not_differ, differs, if_neg (by decide), if_pos rfl,
                if_pos rfl]
              rw [regroup] at rep collects ⊢
              refine (inductionHypothesis rep collects short).mono ?_
              rintro _ next ⟨kept, isKept, repNext, collectsNext, same⟩
              refine ⟨elem :: kept, by rw [isKept], ?_, ?_, same⟩
              · simpa using repNext
              · simpa using collectsNext
          | false =>
              rw [not_differ, differs, if_pos (by decide),
                if_neg (by decide), if_neg (by decide), ensures_bind]
              rw [regroup] at rep collects ⊢
              refine (ensures_remove rep).mono ?_
              rintro _ removed ⟨-, repRemoved, sameRemoved⟩
              have fewer : list.whole ((outer ++ [elem]) ++ xs) ⊆
                  list.whole ((outer ++ [elem]) ++ x :: xs) := by
                intro y member
                simp only [ListHead.whole, List.mem_append, List.mem_cons,
                  List.not_mem_nil, or_false] at member ⊢
                tauto
              have outside : x ∉ list.whole ((outer ++ [elem]) ++ xs) := by
                intro member
                have moved : (list.whole ((outer ++ [elem]) ++ x :: xs)).Perm
                    (x :: list.whole ((outer ++ [elem]) ++ xs)) := by
                  have := @List.perm_middle _ x
                    (list.head :: (outer ++ [elem])) (xs ++ [list.tail])
                  simpa [ListHead.whole] using this
                exact (List.nodup_cons.mp
                  (moved.nodup_iff.mp rep.nodup)).1 member
              have apart := collects.apart
              have collectsRemoved := collects.frame (fun y member =>
                sameRemoved y fun inList => apart (fewer inList) member) fewer
              have xIn : x ∈ list.whole ((outer ++ [elem]) ++ x :: xs) := by
                simp [ListHead.whole]
              rw [ensures_bind]
              refine (ensures_collect repRemoved collectsRemoved outside
                (apart xIn)).mono ?_
              rintro _ grown ⟨repGrown, collectsGrown, sameGrown⟩
              have back : (outer ++ [elem]) ++ xs = outer ++ elem :: xs := by
                simp
              rw [back] at repGrown collectsGrown sameRemoved fewer
              refine (inductionHypothesis repGrown collectsGrown short).mono ?_
              rintro _ next ⟨kept, isKept, repNext, collectsNext, same⟩
              refine ⟨kept, isKept, repNext, ?_, ?_⟩
              · simpa using collectsNext
              · have inLists := List.Subset.trans fewer
                  (List.subset_append_left _ (wholeOf duplicates collected))
                have inCollected : wholeOf duplicates (collected ++ [x]) ⊆
                    list.whole ((outer ++ [elem]) ++ x :: xs) ++
                      wholeOf duplicates collected :=
                  List.Subset.trans wholeOf_concat_subset (List.cons_subset.mpr
                    ⟨List.mem_append_left _ xIn,
                      List.subset_append_right _ _⟩)
                refine sameRemoved.trans (sameGrown.trans same inCollected ?_)
                  inLists (List.Subset.refl _)
                exact List.append_subset.mpr ⟨inLists, inCollected⟩

/-- `list_unique` keeps the first of each set of neighbours that are equal, and
appends the others to the second list in the order in which they came; with or
without such a list no other element is touched. -/
theorem list_unique_keeps_first
    (rep : Represents links list xs)
    (collects : Collects links (list.whole xs) duplicates collected) :
    Ensures (listUnique less xs.length list duplicates)
      (fun _ next => ∃ kept taken,
        kept = xs.destutter (fun a b => differ less a b = true) ∧
        (kept ++ taken).Perm xs ∧ taken.Sublist xs ∧
        (∀ x ∈ taken, ∃ y ∈ kept, differ less y x = false) ∧
        Represents next list kept ∧
        Collects next (list.whole kept) duplicates (collected ++ taken) ∧
        SameOutside (list.whole xs ++ wholeOf duplicates collected)
          links next) links := by
  rw [listUnique, ensures_bind, ensures_listEmpty rep]
  cases xs with
  | nil =>
      rw [List.isEmpty_nil, if_pos rfl, ensures_pure]
      refine ⟨[], [], rfl, .refl _, .refl _, by simp, rep, ?_, fun _ _ => rfl⟩
      rwa [List.append_nil]
  | cons x xs =>
      have begins : (links list.head).next = some x := rep.head_next
      rw [List.isEmpty_cons, if_neg (by decide), ensures_bind,
        ensures_listBegin begins]
      refine ((@ensures_uniqueLoop links list duplicates [] xs collected x _
        less) rep collects (Nat.lt_succ_self _)).mono ?_
      rintro _ next ⟨kept, isKept, repNext, collectsNext, same⟩
      refine ⟨kept, repeats less x xs, isKept, ?_, ?_, ?_, repNext,
        collectsNext, same⟩
      · rw [isKept]
        exact keep_append_repeats_perm x xs
      · exact (repeats_sublist x xs).trans (List.sublist_cons_self x xs)
      · rw [isKept]
        exact repeats_equal x xs

end Unique

/-- Two lists, of 4, 6, 5, 7 and of 8. -/
def fourAndOne : Elems := fun x =>
  [⟨none, some 4⟩, ⟨some 7, none⟩, ⟨none, some 8⟩, ⟨some 8, none⟩,
    ⟨some 0, some 6⟩, ⟨some 6, some 7⟩, ⟨some 4, some 5⟩, ⟨some 5, some 1⟩,
    ⟨some 2, some 3⟩].getD x ⟨none, none⟩

/-- Of 4, 6, 5, 7 compared by their parity the second list gets 6 and 7. -/
theorem list_unique_keeps_first_parity :
    Represents fourAndOne ⟨0, 1⟩ [4, 6, 5, 7] ∧
      Represents fourAndOne ⟨2, 3⟩ [8] ∧
      Ensures (listUnique (fun a b => a % 2 < b % 2) 4 ⟨0, 1⟩ (some ⟨2, 3⟩))
        (fun _ next => Represents next ⟨0, 1⟩ [4, 5] ∧
          ∃ taken, Represents next ⟨2, 3⟩ (8 :: taken) ∧
            taken.Sublist [4, 6, 5, 7] ∧
            ([4, 5] ++ taken).Perm [4, 6, 5, 7]) fourAndOne := by
  have rep : Represents fourAndOne ⟨0, 1⟩ [4, 6, 5, 7] :=
    ⟨by decide, by decide, by decide, by decide⟩
  have collected : Represents fourAndOne ⟨2, 3⟩ [8] :=
    ⟨by decide, by decide, by decide, by decide⟩
  have collects : Collects fourAndOne
      (ListHead.whole ⟨0, 1⟩ [4, 6, 5, 7]) (some ⟨2, 3⟩) [8] :=
    ⟨collected, by simp [ListHead.whole]⟩
  have kept : List.destutter (fun a b : Nat =>
      differ (fun a b => a % 2 < b % 2) a b = true) [4, 6, 5, 7] = [4, 5] := by
    decide
  refine ⟨rep, collected, (list_unique_keeps_first rep collects).mono ?_⟩
  rintro _ next ⟨kept', taken, isKept, perm, sublist, -, repNext, both, -⟩
  obtain rfl : kept' = [4, 5] := isKept.trans kept
  exact ⟨repNext, taken, both.1, sublist, perm⟩

end Lists
end Gdpfs
