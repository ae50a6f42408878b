import Gdpfs.List.Ops

/-!
# What the list operations do (`list.c`)

Insertion, removal and splicing in terms of joins of elements, and from there
in terms of the elements that a list has.
-/

namespace Gdpfs
namespace Lists

open Effect Links

/-- The links make these the elements of a list. -/
def Represents (links : Elems) (list : ListHead) (elems : List Nat) : Prop :=
  Closed links (list.head :: elems ++ [list.tail])

section Primitives

variable {links : Elems} {elem : Nat}

@[simp] theorem ensures_ensure
    {condition : Bool}
    {post : Unit → Elems → Prop} :
    Ensures (ensure condition) post links ↔
      condition = true ∧ post () links := by
  cases condition <;> simp [ensure]

@[simp] theorem ensures_follow_some
    {post : Nat → Elems → Prop} :
    Ensures (follow (some elem)) post links ↔ post elem links := by
  simp [follow]

@[simp] theorem ensures_getPrev
    {post : Option Nat → Elems → Prop} :
    Ensures (getPrev elem) post links ↔ post (links elem).prev links := by
  rw [getPrev, ensures_bind, ensures_get, ensures_pure]

@[simp] theorem ensures_getNext
    {post : Option Nat → Elems → Prop} :
    Ensures (getNext elem) post links ↔ post (links elem).next links := by
  rw [getNext, ensures_bind, ensures_get, ensures_pure]

@[simp] theorem ensures_putPrev
    {target : Option Nat}
    {post : Unit → Elems → Prop} :
    Ensures (putPrev elem target) post links ↔
      post () (setPrev links elem target) := by
  simp [putPrev, ensures_bind]

@[simp] theorem ensures_putNext
    {target : Option Nat}
    {post : Unit → Elems → Prop} :
    Ensures (putNext elem target) post links ↔
      post () (setNext links elem target) := by
  simp [putNext, ensures_bind]

@[simp] theorem ensures_isHead
    {post : Bool → Elems → Prop} :
    Ensures (isHead elem) post links ↔
      post ((links elem).prev.isNone && (links elem).next.isSome) links := by
  rw [isHead, ensures_bind, ensures_getPrev, ensures_bind, ensures_getNext,
    ensures_pure]

@[simp] theorem ensures_isInterior
    {post : Bool → Elems → Prop} :
    Ensures (isInterior elem) post links ↔
      post ((links elem).prev.isSome && (links elem).next.isSome) links := by
  rw [isInterior, ensures_bind, ensures_getPrev, ensures_bind, ensures_getNext,
    ensures_pure]

@[simp] theorem ensures_isTail
    {post : Bool → Elems → Prop} :
    Ensures (isTail elem) post links ↔
      post ((links elem).prev.isSome && (links elem).next.isNone) links := by
  rw [isTail, ensures_bind, ensures_getPrev, ensures_bind, ensures_getNext,
    ensures_pure]

/-- `list_next` goes to the next element, if there is one. -/
theorem ensures_listNext
    {next : Nat}
    {post : Nat → Elems → Prop}
    (points : (links elem).next = some next) :
    Ensures (listNext elem) post links ↔ post next links := by
  cases before : (links elem).prev <;>
    simp [listNext, ensures_bind, points, before]

/-- `list_prev` goes to the previous element, if there is one. -/
theorem ensures_listPrev
    {prev : Nat}
    {post : Nat → Elems → Prop}
    (points : (links elem).prev = some prev) :
    Ensures (listPrev elem) post links ↔ post prev links := by
  cases after : (links elem).next <;>
    simp [listPrev, ensures_bind, points, after]

theorem ensures_listBegin
    {list : ListHead}
    {first : Nat}
    {post : Nat → Elems → Prop}
    (points : (links list.head).next = some first) :
    Ensures (listBegin list) post links ↔ post first links := by
  simp [listBegin, ensures_bind, points]

end Primitives

section Joins

variable {links : Elems} {p q elem : Nat}

/-- `list_insert` joins the new element with the two around it. -/
theorem ensures_listInsert
    {post : Unit → Elems → Prop}
    (prev : (links q).prev = some p)
    (notFirst : elem ≠ p)
    (notSecond : elem ≠ q) :
    Ensures (listInsert q elem) post links ↔
      post () (join (join links p elem) elem q) := by
  have same : setPrev (setNext (setNext (setPrev links elem (some p)) elem
        (some q)) p (some elem)) q (some elem) =
      join (join links p elem) elem q := by
    funext x
    apply Link.ext
    · simp
    · simp only [setPrev_next, setNext_next, join_next]
      split_ifs <;> simp_all
  cases after : (links q).next <;>
    simp [listInsert, ensures_bind, prev, after, Ne.symm notSecond, same]

/-- `list_remove` joins the two elements around the one that goes. -/
theorem ensures_listRemove
    {post : Nat → Elems → Prop}
    (prev : (links elem).prev = some p)
    (next : (links elem).next = some q)
    (notFirst : elem ≠ p) :
    Ensures (listRemove elem) post links ↔ post q (join links p q) := by
  simp [listRemove, ensures_bind, prev, next, notFirst, join]

/-- `list_splice` joins the elements around the segment, and then its ends with
the elements around the place where it goes. -/
theorem ensures_listSplice
    {before first last beyond : Nat}
    {post : Unit → Elems → Prop}
    (nonempty : first ≠ beyond)
    (beforePrev : (links before).prev.isSome = true)
    (beyondPrev : (links beyond).prev = some last)
    (lastNext : (links last).next = some beyond)
    (firstPrev : (links first).prev = some p)
    (firstNext : (links first).next.isSome = true)
    (lastPrev : (links last).prev.isSome = true)
    (apart : before ≠ first)
    (place : (join links p beyond before).prev = some q)
    (placeOutside : q ≠ last) :
    Ensures (listSplice before first beyond) post links ↔
      post () (join (join (join links p beyond) q first) last before) := by
  have spliced : setPrev (setNext (setNext (setPrev (join links p beyond)
        first (some q)) last (some before)) q (some first)) before
        (some last) =
      join (join (join links p beyond) q first) last before := by
    funext x
    apply Link.ext
    · simp
    · simp only [setPrev_next, setNext_next, join_next]
      split_ifs <;> simp_all
  have tailOrInside : (((links before).prev.isSome &&
      (links before).next.isSome) || ((links before).prev.isSome &&
        (links before).next.isNone)) = true := by
    cases (links before).next <;> simp [beforePrev]
  rw [join_prev] at place
  rw [listSplice, ensures_bind, ensures_isInterior, ensures_bind,
    ensures_isTail, ensures_bind, ensures_ensure, tailOrInside,
    if_neg nonempty, ensures_bind, ensures_listPrev beyondPrev, ← spliced]
  simp [ensures_bind, firstPrev, firstNext, lastPrev, lastNext, place, apart,
    join]

end Joins

/-! ## Lists with a place singled out -/

/-- The links of other elements stay as they are. -/
def SameOutside (elems : List Nat) (links next : Elems) : Prop :=
  ∀ x, x ∉ elems → next x = links x

theorem exists_concat (a : Nat) (xs : List Nat) :
    ∃ before p, a :: xs = before ++ [p] :=
  ⟨(a :: xs).dropLast, (a :: xs).getLast (List.cons_ne_nil a xs),
    (List.dropLast_append_getLast _).symm⟩

section Closed

variable {links : Elems} {before after : List Nat} {p q elem : Nat}

theorem ensures_insert_closed
    (closed : Closed links (before ++ p :: q :: after))
    (new : elem ∉ before ++ p :: q :: after) :
    Ensures (listInsert q elem)
      (fun _ next => Closed next (before ++ p :: elem :: q :: after) ∧
        SameOutside [p, elem, q] links next) links := by
  have notFirst : elem ≠ p := by
    rintro rfl
    exact new (by simp)
  have notSecond : elem ≠ q := by
    rintro rfl
    exact new (by simp)
  rw [ensures_listInsert closed.joined.2 notFirst notSecond]
  refine ⟨closed.put_in_one new, ?_⟩
  intro x outside
  simp only [List.mem_cons, List.not_mem_nil, or_false, not_or] at outside
  rw [join_of_ne outside.2.1 outside.2.2, join_of_ne outside.1 outside.2.1]

theorem ensures_remove_closed
    (closed : Closed links (before ++ p :: elem :: q :: after)) :
    Ensures (listRemove elem)
      (fun next' next => next' = q ∧
        Closed next (before ++ p :: q :: after) ∧
        SameOutside [p, q] links next) links := by
  have nexts := closed.joined
  have regroup : before ++ p :: elem :: q :: after =
      (before ++ [p]) ++ elem :: q :: after := by simp
  have nextTwo : Joined links elem q := (regroup ▸ closed).joined
  have other : elem ≠ p := by
    have nodup := (List.nodup_append.mp closed.nodup).2.1
    rintro rfl
    exact (List.nodup_cons.mp nodup).1 (by simp)
  rw [ensures_listRemove nexts.2 nextTwo.1 other]
  have taken := (@Closed.take_out _ _ _ before [elem] after p q) closed
  refine ⟨rfl, taken.1, ?_⟩
  intro x outside
  simp only [List.mem_cons, List.not_mem_nil, or_false, not_or] at outside
  exact join_of_ne outside.1 outside.2

end Closed

section Whole

variable {links : Elems} {list : ListHead} {xs ys : List Nat} {q elem : Nat}

/-- All elements of a list, with the two headers. -/
def ListHead.whole (list : ListHead) (elems : List Nat) : List Nat :=
  list.head :: elems ++ [list.tail]

/-- An element goes into a list before a given one, or before the tail. -/
theorem ensures_insert
    (rep : Represents links list (xs ++ ys))
    (place : (ys ++ [list.tail]).head? = some q)
    (new : elem ∉ list.whole (xs ++ ys)) :
    Ensures (listInsert q elem)
      (fun _ next => Represents next list (xs ++ elem :: ys) ∧
        SameOutside (list.whole (xs ++ elem :: ys)) links next) links := by
  obtain ⟨before, p, front⟩ := exists_concat list.head xs
  obtain ⟨after, back⟩ : ∃ after, ys ++ [list.tail] = q :: after :=
    List.head?_eq_some_iff.mp place
  have shape : list.head :: (xs ++ ys) ++ [list.tail] =
      before ++ p :: q :: after := by
    rw [← List.cons_append, front, List.append_assoc, back]
    simp
  have newShape : list.head :: (xs ++ elem :: ys) ++ [list.tail] =
      before ++ p :: elem :: q :: after := by
    rw [← List.cons_append, front, List.append_assoc, List.cons_append, back]
    simp
  rw [Represents, shape] at rep
  rw [ListHead.whole, shape] at new
  refine (ensures_insert_closed rep new).mono ?_
  rintro _ next ⟨closed, same⟩
  rw [Represents, ListHead.whole, newShape]
  refine ⟨closed, fun x outside => same x fun member => outside ?_⟩
  simp only [List.mem_cons, List.not_mem_nil, or_false] at member
  rcases member with rfl | rfl | rfl <;> simp

/-- An element goes out of its list. -/
theorem ensures_remove
    (rep : Represents links list (xs ++ elem :: ys)) :
    Ensures (listRemove elem)
      (fun q next => (ys ++ [list.tail]).head? = some q ∧
        Represents next list (xs ++ ys) ∧
        SameOutside (list.whole (xs ++ ys)) links next) links := by
  obtain ⟨before, p, front⟩ := exists_concat list.head xs
  obtain ⟨q, after, back⟩ : ∃ q after, ys ++ [list.tail] = q :: after := by
    cases ys with
    | nil => exact ⟨list.tail, [], rfl⟩
    | cons y ys => exact ⟨y, ys ++ [list.tail], rfl⟩
  have shape : list.head :: (xs ++ elem :: ys) ++ [list.tail] =
      before ++ p :: elem :: q :: after := by
    rw [← List.cons_append, front, List.append_assoc, List.cons_append, back]
    simp
  have newShape : list.head :: (xs ++ ys) ++ [list.tail] =
      before ++ p :: q :: after := by
    rw [← List.cons_append, front, List.append_assoc, back]
    simp
  rw [Represents, shape] at rep
  refine (ensures_remove_closed rep).mono ?_
  rintro _ next ⟨rfl, closed, same⟩
  rw [Represents, ListHead.whole, newShape, back]
  refine ⟨rfl, closed, fun x outside => same x fun member => outside ?_⟩
  simp only [List.mem_cons, List.not_mem_nil, or_false] at member
  rcases member with rfl | rfl <;> simp

theorem Represents.head_next
    (rep : Represents links list xs) :
    (links list.head).next = (xs ++ [list.tail]).head? := by
  cases xs with
  | nil => exact (@Closed.joined _ links [] [] _ _ rep).1
  | cons x xs => exact (@Closed.joined _ links [] _ _ _ rep).1

theorem Represents.tail_prev
    (rep : Represents links list xs) :
    (links list.tail).prev = (list.head :: xs).getLast? := by
  obtain ⟨before, p, front⟩ := exists_concat list.head xs
  have shape : list.head :: xs ++ [list.tail] =
      before ++ p :: list.tail :: [] := by
    rw [front]
    simp
  rw [Represents, shape] at rep
  rw [front, List.getLast?_concat]
  exact rep.joined.2

theorem Represents.tail_notMem
    (rep : Represents links list xs) :
    list.tail ∉ xs := by
  have apart := List.nodup_append.mp rep.nodup
  intro member
  exact apart.2.2 list.tail (List.mem_cons_of_mem _ member) list.tail
    (by simp) rfl

/-- The first element, or the tail. -/
theorem Represents.first
    (rep : Represents links list xs) :
    ∃ first, (xs ++ [list.tail]).head? = some first ∧
      (links list.head).next = some first := by
  have begins := rep.head_next
  cases xs with
  | nil => exact ⟨list.tail, rfl, begins⟩
  | cons x xs => exact ⟨x, rfl, begins⟩

theorem ensures_listEmpty
    (rep : Represents links list xs)
    {post : Bool → Elems → Prop} :
    Ensures (listEmpty list) post links ↔ post xs.isEmpty links := by
  obtain ⟨first, isFirst, begins⟩ := rep.first
  rw [listEmpty, ensures_bind, ensures_listBegin begins, ensures_pure]
  have same : (first == listEnd list) = xs.isEmpty := by
    cases xs with
    | nil =>
        cases isFirst
        exact beq_self_eq_true _
    | cons x xs =>
        cases isFirst
        rw [List.isEmpty_cons]
        refine beq_eq_false_iff_ne.mpr fun isEnd => ?_
        exact rep.tail_notMem (isEnd ▸ List.mem_cons_self)
  rw [same]

/-- `list_push_front`. -/
theorem ensures_listPushFront
    (rep : Represents links list xs)
    (new : elem ∉ list.whole xs) :
    Ensures (listPushFront list elem)
      (fun _ next => Represents next list (elem :: xs) ∧
        SameOutside (list.whole (elem :: xs)) links next) links := by
  obtain ⟨first, isFirst, begins⟩ := rep.first
  rw [listPushFront, ensures_bind, ensures_listBegin begins]
  exact (@ensures_insert links list [] xs first elem) rep isFirst new

/-- `list_push_back`. -/
theorem ensures_listPushBack
    (rep : Represents links list xs)
    (new : elem ∉ list.whole xs) :
    Ensures (listPushBack list elem)
      (fun _ next => Represents next list (xs ++ [elem]) ∧
        SameOutside (list.whole (xs ++ [elem])) links next) links := by
  rw [listPushBack, listEnd]
  refine (@ensures_insert links list xs [] list.tail elem) ?_ rfl ?_
  · rwa [List.append_nil]
  · rwa [List.append_nil]

/-- `list_pop_front`. -/
theorem ensures_listPopFront
    (rep : Represents links list (elem :: xs)) :
    Ensures (listPopFront list)
      (fun front next => front = elem ∧ Represents next list xs ∧
        SameOutside (list.whole xs) links next) links := by
  have begins : (links list.head).next = some elem := rep.head_next
  rw [listPopFront, ensures_bind, listFront, ensures_bind,
    ensures_listEmpty rep, ensures_bind, ensures_ensure, ensures_bind,
    ensures_getNext, begins, ensures_follow_some, ensures_bind]
  refine ⟨rfl, ?_⟩
  refine ((@ensures_remove links list [] xs elem) rep).mono ?_
  rintro q next ⟨-, popped, same⟩
  exact ensures_pure.mpr ⟨rfl, popped, same⟩

/-- `list_pop_back`. -/
theorem ensures_listPopBack
    (rep : Represents links list (xs ++ [elem])) :
    Ensures (listPopBack list)
      (fun back next => back = elem ∧ Represents next list xs ∧
        SameOutside (list.whole xs) links next) links := by
  have ends : (links list.tail).prev = some elem := by
    rw [rep.tail_prev, ← List.cons_append, List.getLast?_concat]
  have nonempty : (xs ++ [elem]).isEmpty = false := by simp
  rw [listPopBack, ensures_bind, listBack, ensures_bind,
    ensures_listEmpty rep, ensures_bind, ensures_ensure, ensures_bind,
    ensures_getPrev, ends, ensures_follow_some, ensures_bind, nonempty]
  refine ⟨rfl, ?_⟩
  refine ((@ensures_remove links list xs [] elem) rep).mono ?_
  rintro q next ⟨-, popped, same⟩
  rw [List.append_nil] at popped same
  exact ensures_pure.mpr ⟨rfl, popped, same⟩

/-- `list_init`. -/
theorem ensures_listInit
    (apart : list.head ≠ list.tail) :
    Ensures (listInit list)
      (fun _ next => Represents next list [] ∧
        SameOutside (list.whole []) links next) links := by
  simp only [listInit, ensures_bind, ensures_putPrev, ensures_putNext]
  refine ⟨⟨by simpa using apart, ?_, ?_, ?_⟩, ?_⟩
  · refine List.isChain_cons_cons.mpr ⟨⟨?_, ?_⟩, .singleton _⟩ <;>
      simp [apart]
  · intro a isFirst
    cases isFirst
    simp [apart]
  · intro a isLast
    cases isLast
    simp
  · intro x outside
    have notHead : x ≠ list.head := fun same => outside (by simp [ListHead.whole, same])
    have notTail : x ≠ list.tail := fun same => outside (by simp [ListHead.whole, same])
    apply Link.ext <;> simp [notHead, notTail]

end Whole

/-! ## Splicing -/

section Splice

variable {links : Elems} {front back outer rest middle : List Nat}
  {p q first last beyond before : Nat}

/-- A segment is taken out of a list and goes into a list that is there without
it. -/
theorem ensures_splice_closed
    (source : Closed links (front ++ p :: (first :: middle ++ beyond :: back)))
    (ends : (first :: middle).getLast? = some last)
    (target : Closed (join links p beyond) (outer ++ q :: before :: rest))
    (nodup : (outer ++ q :: (first :: middle ++ before :: rest)).Nodup) :
    Ensures (listSplice before first beyond)
      (fun _ next =>
        next = join (join (join links p beyond) q first) last before ∧
        Closed next (outer ++ q :: (first :: middle ++ before :: rest)))
      links := by
  obtain ⟨init, initShape⟩ := List.getLast?_eq_some_iff.mp ends
  have lastMember : last ∈ first :: middle := List.mem_of_getLast? ends
  -- The neighbours of the two ends of the segment.
  have atFirst : Joined links p first := source.joined
  have atLast : Joined links last beyond := by
    have regroup : front ++ p :: (first :: middle ++ beyond :: back) =
        (front ++ p :: init) ++ last :: beyond :: back := by
      rw [initShape]
      simp
    exact (regroup ▸ source).joined
  have firstNext : (links first).next.isSome = true := by
    cases middle with
    | nil =>
        have same : first = last := by simpa using ends
        rw [same, atLast.1]
        rfl
    | cons second middle =>
        have regroup : front ++ p :: (first :: second :: middle ++
            beyond :: back) =
          (front ++ [p]) ++ first :: second :: (middle ++ beyond :: back) := by
          simp
        have within : Joined links first second := (regroup ▸ source).joined
        rw [within.1]
        rfl
  have lastPrev : (links last).prev.isSome = true := by
    rcases List.eq_nil_or_concat init with rfl | ⟨init', x, rfl⟩
    · have same : first = last := by
        have single : first :: middle = [last] := initShape
        cases single
        rfl
      rw [← same, atFirst.2]
      rfl
    · have regroup : front ++ p :: (first :: middle ++ beyond :: back) =
          (front ++ p :: init') ++ x :: last :: beyond :: back := by
        rw [initShape]
        simp
      have within : Joined links x last := (regroup ▸ source).joined
      rw [within.2]
      rfl
  have segmentNodup := (List.nodup_append.mp source.nodup).2.1
  have nonempty : first ≠ beyond := by
    rintro rfl
    have inside := (List.nodup_cons.mp segmentNodup).2
    exact (List.nodup_append.mp inside).2.2 first (by simp) first (by simp) rfl
  have place : (join links p beyond before).prev = some q := target.joined.2
  have beforePrev : (links before).prev.isSome = true := by
    rw [join_prev] at place
    by_cases same : before = beyond
    · rw [same, atLast.2]
      rfl
    · rw [if_neg same] at place
      rw [place]
      rfl
  have outerNodup := List.nodup_append.mp nodup
  have tailNodup := List.nodup_cons.mp outerNodup.2.1
  have apart : before ≠ first := by
    rintro rfl
    exact (List.nodup_append.mp tailNodup.2).2.2 before (by simp) before
      (by simp) rfl
  have placeOutside : q ≠ last := by
    rintro rfl
    exact tailNodup.1 (List.mem_append_left _ lastMember)
  rw [ensures_listSplice nonempty beforePrev atLast.2 atLast.1 atFirst.2
    firstNext lastPrev apart place placeOutside]
  exact ⟨rfl, target.put_in source.take_out.2 ends nodup⟩

end Splice

/-- `list_splice` moves a segment from one list to another: the first list loses
exactly these elements, the second one gets them in front of the given element,
in the same order, and no other element is touched. -/
theorem splice_moves_segment
    {links : Elems}
    {source target : ListHead}
    {xs middle ys us vs : List Nat}
    {first beyond before : Nat}
    (origin : Represents links source (xs ++ (first :: middle ++ ys)))
    (into : Represents links target (us ++ vs))
    (disjoint : ∀ x ∈ source.whole (xs ++ (first :: middle ++ ys)),
      x ∉ target.whole (us ++ vs))
    (isBeyond : (ys ++ [source.tail]).head? = some beyond)
    (isBefore : (vs ++ [target.tail]).head? = some before) :
    Ensures (listSplice before first beyond)
      (fun _ next => Represents next source (xs ++ ys) ∧
        Represents next target (us ++ (first :: middle ++ vs)) ∧
        SameOutside (source.whole (xs ++ (first :: middle ++ ys)) ++
          target.whole (us ++ vs)) links next) links := by
  obtain ⟨front, p, frontShape⟩ := exists_concat source.head xs
  obtain ⟨back, backShape⟩ := List.head?_eq_some_iff.mp isBeyond
  obtain ⟨outer, q, outerShape⟩ := exists_concat target.head us
  obtain ⟨rest, restShape⟩ := List.head?_eq_some_iff.mp isBefore
  obtain ⟨init, last, lastShape⟩ := exists_concat first middle
  have ends : (first :: middle).getLast? = some last := by
    rw [lastShape, List.getLast?_concat]
  have sourceShape : source.whole (xs ++ (first :: middle ++ ys)) =
      front ++ p :: (first :: middle ++ beyond :: back) := by
    rw [ListHead.whole, ← List.cons_append, frontShape, ← backShape]
    simp
  have leftShape : source.whole (xs ++ ys) = front ++ p :: beyond :: back := by
    rw [ListHead.whole, ← List.cons_append, frontShape, List.append_assoc,
      backShape]
    simp
  have targetShape : target.whole (us ++ vs) =
      outer ++ q :: before :: rest := by
    rw [ListHead.whole, ← List.cons_append, outerShape, List.append_assoc,
      restShape]
    simp
  have newShape : target.whole (us ++ (first :: middle ++ vs)) =
      outer ++ q :: (first :: middle ++ before :: rest) := by
    rw [ListHead.whole, ← List.cons_append, outerShape, ← restShape]
    simp
  have out : Closed links
      (front ++ p :: (first :: middle ++ beyond :: back)) := sourceShape ▸ origin
  have there : Closed links (outer ++ q :: before :: rest) :=
    targetShape ▸ into
  rw [sourceShape, targetShape] at disjoint
  have untouched : ∀ x ∈ outer ++ q :: before :: rest,
      join links p beyond x = links x := by
    intro x member
    refine join_of_ne ?_ ?_
    · rintro rfl
      exact disjoint x (by simp) member
    · rintro rfl
      exact disjoint x (by simp) member
  have nodup : (outer ++ q :: (first :: middle ++ before :: rest)).Nodup := by
    have segment := (List.nodup_append.mp (List.nodup_cons.mp
      (List.nodup_append.mp out.nodup).2.1).2).1
    have moved : (outer ++ q :: (first :: middle ++ before :: rest)).Perm
        ((first :: middle) ++ (outer ++ q :: before :: rest)) := by
      have shift := List.perm_append_comm_assoc (outer ++ [q])
        (first :: middle) (before :: rest)
      simpa using shift
    refine moved.nodup_iff.mpr (List.nodup_append.mpr
      ⟨segment, there.nodup, ?_⟩)
    intro x inSegment y inTarget same
    refine disjoint x ?_ (same ▸ inTarget)
    exact List.mem_append_right _ (List.mem_cons_of_mem _
      (List.mem_append_left _ inSegment))
  refine (ensures_splice_closed out ends (there.frame untouched) nodup).mono ?_
  rintro _ next ⟨rfl, closed⟩
  have lastMember : last ∈ first :: middle := List.mem_of_getLast? ends
  refine ⟨?_, ?_, ?_⟩
  · change Closed _ (source.whole (xs ++ ys))
    rw [leftShape]
    refine out.take_out.1.frame ?_
    intro x member
    -- The last two joins touch the segment and the other list only.
    have notSegment : x ∉ first :: middle := by
      intro inSegment
      have apart := List.nodup_append.mp out.nodup
      have inner := List.nodup_cons.mp apart.2.1
      rcases List.mem_append.mp member with before' | after'
      · exact apart.2.2 x before' x (by
          exact List.mem_cons_of_mem _ (List.mem_append_left _ inSegment)) rfl
      · rcases List.mem_cons.mp after' with rfl | beyond'
        · exact inner.1 (List.mem_append_left _ inSegment)
        · exact (List.nodup_append.mp inner.2).2.2 x inSegment x beyond' rfl
    have inSource : x ∈ front ++ p :: (first :: middle ++ beyond :: back) := by
      rcases List.mem_append.mp member with before' | after'
      · exact List.mem_append_left _ before'
      · rcases List.mem_cons.mp after' with rfl | beyond'
        · simp
        · exact List.mem_append_right _ (List.mem_cons_of_mem _
            (List.mem_append_right _ beyond'))
    have notQ : x ≠ q := by
      rintro rfl
      exact disjoint x inSource (by simp)
    have notBefore : x ≠ before := by
      rintro rfl
      exact disjoint x inSource (by simp)
    have notFirst : x ≠ first := by
      rintro rfl
      exact notSegment (by simp)
    have notLast : x ≠ last := fun same => notSegment (same ▸ lastMember)
    rw [join_of_ne notLast notBefore, join_of_ne notQ notFirst]
  · change Closed _ (target.whole (us ++ (first :: middle ++ vs)))
    rw [newShape]
    exact closed
  · rw [sourceShape, targetShape]
    intro x outside
    have notLast : x ≠ last := by
      rintro rfl
      refine outside (List.mem_append_left _ (List.mem_append_right _
        (List.mem_cons_of_mem _ (List.mem_append_left _ lastMember))))
    have notBefore : x ≠ before := by
      rintro rfl
      exact outside (by simp)
    have notQ : x ≠ q := by
      rintro rfl
      exact outside (by simp)
    have notFirst : x ≠ first := by
      rintro rfl
      exact outside (by simp)
    have notP : x ≠ p := by
      rintro rfl
      exact outside (by simp)
    have notBeyond : x ≠ beyond := by
      rintro rfl
      exact outside (by simp)
    rw [join_of_ne notLast notBefore, join_of_ne notQ notFirst,
      join_of_ne notP notBeyond]

/-- Two lists, with the headers 0 and 1 and the headers 2 and 3. -/
def twoLists : Elems := fun x =>
  [⟨none, some 4⟩, ⟨some 6, none⟩, ⟨none, some 7⟩, ⟨some 7, none⟩,
    ⟨some 0, some 5⟩, ⟨some 4, some 6⟩, ⟨some 5, some 1⟩,
    ⟨some 2, some 3⟩].getD x ⟨none, none⟩

theorem represents_twoLists : Represents twoLists ⟨0, 1⟩ [4, 5, 6] :=
  ⟨by decide, by decide, by decide, by decide⟩

theorem splice_moves_segment_middle :
    Represents twoLists ⟨0, 1⟩ [4, 5, 6] ∧ Represents twoLists ⟨2, 3⟩ [7] ∧
      Ensures (listSplice 7 5 1)
        (fun _ next => Represents next ⟨0, 1⟩ [4] ∧
          Represents next ⟨2, 3⟩ [5, 6, 7]) twoLists := by
  have origin := represents_twoLists
  have into : Represents twoLists ⟨2, 3⟩ [7] :=
    ⟨by decide, by decide, by decide, by decide⟩
  refine ⟨origin, into, ?_⟩
  refine ((@splice_moves_segment twoLists ⟨0, 1⟩ ⟨2, 3⟩ [4] [6] [] [] [7] 5 1
    7) origin into (by decide) rfl rfl).mono ?_
  rintro _ next ⟨left, moved, -⟩
  exact ⟨left, moved⟩

end Lists
end Gdpfs
