import Mathlib.Data.List.Chain
import Mathlib.Logic.Function.Basic

/-!
# Doubly linked chains

Elements with a link to either side.  A list of elements is closed if neighbours
point at each other and the outer links of its two ends are null.  Every
operation on such lists comes down to joining two elements: one gets the other
as its next, which gets the first as its previous element.
-/

namespace Links

/-- The two links of an element. -/
@[ext] structure Link (A : Type) where
  prev : Option A
  next : Option A
  deriving DecidableEq, Repr

/-- Two elements point at each other. -/
def Joined (links : A → Link A) (a b : A) : Prop :=
  (links a).next = some b ∧ (links b).prev = some a

instance [DecidableEq A] (links : A → Link A) :
    DecidableRel (Joined links) := fun a b =>
  inferInstanceAs
    (Decidable ((links a).next = some b ∧ (links b).prev = some a))

/-- Neighbours in a list point at each other. -/
abbrev Linked (links : A → Link A) (elems : List A) : Prop :=
  List.IsChain (Joined links) elems

/-- A whole list with its two ends. -/
structure Closed (links : A → Link A) (elems : List A) : Prop where
  nodup : elems.Nodup
  linked : Linked links elems
  front : ∀ a ∈ elems.head?, (links a).prev = none
  back : ∀ a ∈ elems.getLast?, (links a).next = none

/-- Links that agree give the same chains; the outer links of the ends do not
matter. -/
theorem Linked.congr
    {links other : A → Link A}
    {elems : List A}
    (linked : Linked links elems)
    (nexts : ∀ a ∈ elems.dropLast, (other a).next = (links a).next)
    (prevs : ∀ a ∈ elems.tail, (other a).prev = (links a).prev) :
    Linked other elems := by
  induction elems with
  | nil => exact .nil
  | cons a elems inductionHypothesis =>
      cases elems with
      | nil => exact .singleton a
      | cons b elems =>
          obtain ⟨joined, rest⟩ := List.isChain_cons_cons.mp linked
          refine List.isChain_cons_cons.mpr ⟨⟨?_, ?_⟩, ?_⟩
          · rw [nexts a (by simp)]
            exact joined.1
          · rw [prevs b (by simp)]
            exact joined.2
          · refine inductionHypothesis rest ?_ ?_
            · intro c member
              exact nexts c (by simp [member])
            · intro c member
              exact prevs c (List.mem_cons_of_mem _ member)

theorem Closed.joined
    {links : A → Link A}
    {before after : List A}
    {a b : A}
    (closed : Closed links (before ++ a :: b :: after)) :
    Joined links a b :=
  (List.isChain_append_cons_cons.mp closed.linked).2.1

/-- A list whose elements keep their links stays closed. -/
theorem Closed.frame
    {links other : A → Link A}
    {elems : List A}
    (closed : Closed links elems)
    (same : ∀ a ∈ elems, other a = links a) :
    Closed other elems := by
  refine ⟨closed.nodup, closed.linked.congr ?_ ?_, ?_, ?_⟩
  · intro a member
    rw [same a (List.dropLast_subset _ member)]
  · intro a member
    rw [same a (List.mem_of_mem_tail member)]
  · intro a isFirst
    rw [same a (List.mem_of_head? isFirst)]
    exact closed.front a isFirst
  · intro a isLast
    rw [same a (List.mem_of_getLast? isLast)]
    exact closed.back a isLast

/-- An element with its two links exchanged. -/
def turned (links : A → Link A) (a : A) : Link A :=
  ⟨(links a).next, (links a).prev⟩

/-- With all links exchanged a chain runs the other way. -/
theorem Linked.turned
    {links : A → Link A}
    {elems : List A}
    (linked : Linked links elems) :
    Linked (Links.turned links) elems.reverse := by
  refine List.isChain_reverse.mpr (List.IsChain.imp ?_ linked)
  rintro a b ⟨points, back⟩
  exact ⟨back, points⟩

/-- A list is turned around between its ends: the elements inside have their
links exchanged, and the ends are joined anew. -/
theorem Closed.reverse
    {links other : A → Link A}
    {elems : List A}
    {head tail first last : A}
    (closed : Closed links (head :: elems ++ [tail]))
    (isFirst : elems.head? = some first)
    (isLast : elems.getLast? = some last)
    (nexts : ∀ a ∈ elems, a ≠ first → (other a).next = (links a).prev)
    (prevs : ∀ a ∈ elems, a ≠ last → (other a).prev = (links a).next)
    (atHead : Joined other head last)
    (atTail : Joined other first tail)
    (headPrev : (other head).prev = none)
    (tailNext : (other tail).next = none) :
    Closed other (head :: elems.reverse ++ [tail]) := by
  have parts := List.nodup_append.mp closed.nodup
  have inner := List.nodup_cons.mp parts.1
  have within : Linked other elems.reverse := by
    have linked := (List.isChain_append.mp closed.linked).1
    refine (Linked.turned (List.isChain_cons.mp linked).2).congr ?_ ?_
    · intro a member
      obtain ⟨rest, rfl⟩ := List.head?_eq_some_iff.mp isFirst
      rw [List.reverse_cons, List.dropLast_concat] at member
      have inRest := List.mem_reverse.mp member
      refine nexts a (List.mem_cons_of_mem _ inRest) ?_
      rintro rfl
      exact (List.nodup_cons.mp inner.2).1 inRest
    · intro a member
      obtain ⟨rest, rfl⟩ := List.getLast?_eq_some_iff.mp isLast
      rw [List.reverse_append, List.reverse_singleton, List.singleton_append,
        List.tail_cons] at member
      have inRest := List.mem_reverse.mp member
      refine prevs a (List.mem_append_left _ inRest) ?_
      rintro rfl
      exact (List.nodup_append.mp inner.2).2.2 a inRest a
        (List.mem_singleton_self a) rfl
  refine ⟨?_, ?_, ?_, ?_⟩
  · have moved : (head :: elems.reverse ++ [tail]).Perm
        (head :: elems ++ [tail]) :=
      ((List.reverse_perm elems).cons head).append_right [tail]
    exact moved.nodup_iff.mpr closed.nodup
  · refine List.isChain_append.mpr ⟨?_, .singleton tail, ?_⟩
    · refine List.isChain_cons.mpr ⟨?_, within⟩
      intro a isHead
      rw [List.head?_reverse, isLast] at isHead
      cases isHead
      exact atHead
    · intro a ends b begins
      cases begins
      rw [List.getLast?_cons, List.getLast?_reverse, isFirst] at ends
      cases ends
      exact atTail
  · intro a begins
    cases begins
    exact headPrev
  · intro a ends
    rw [List.getLast?_concat] at ends
    cases ends
    exact tailNext

variable {A : Type} [DecidableEq A] {links : A → Link A}

/-- Change the next element of an element. -/
def setNext (links : A → Link A) (a : A) (target : Option A) : A → Link A :=
  Function.update links a { links a with next := target }

/-- Change the previous element of an element. -/
def setPrev (links : A → Link A) (a : A) (target : Option A) : A → Link A :=
  Function.update links a { links a with prev := target }

@[simp] theorem setNext_next (a x : A) (target : Option A) :
    (setNext links a target x).next =
      if x = a then target else (links x).next := by
  by_cases same : x = a <;> simp [setNext, same]

@[simp] theorem setNext_prev (a x : A) (target : Option A) :
    (setNext links a target x).prev = (links x).prev := by
  by_cases same : x = a <;> simp [setNext, same]

@[simp] theorem setPrev_prev (a x : A) (target : Option A) :
    (setPrev links a target x).prev =
      if x = a then target else (links x).prev := by
  by_cases same : x = a <;> simp [setPrev, same]

@[simp] theorem setPrev_next (a x : A) (target : Option A) :
    (setPrev links a target x).next = (links x).next := by
  by_cases same : x = a <;> simp [setPrev, same]

/-- Make two elements neighbours. -/
def join (links : A → Link A) (a b : A) : A → Link A :=
  setPrev (setNext links a (some b)) b (some a)

@[simp] theorem join_next (a b x : A) :
    (join links a b x).next = if x = a then some b else (links x).next := by
  simp [join]

@[simp] theorem join_prev (a b x : A) :
    (join links a b x).prev = if x = b then some a else (links x).prev := by
  simp [join]

theorem join_of_ne
    {a b x : A}
    (notFirst : x ≠ a)
    (notSecond : x ≠ b) :
    join links a b x = links x := by
  simp [join, setNext, setPrev, Function.update_apply, notFirst, notSecond]

/-- A chain is not affected by the join of an element at or past its end with
one at or before its front. -/
theorem Linked.join_outside
    {elems : List A}
    {a b : A}
    (linked : Linked links elems)
    (notFirst : a ∉ elems.dropLast)
    (notSecond : b ∉ elems.tail) :
    Linked (join links a b) elems := by
  refine linked.congr ?_ ?_
  · intro x member
    have other : x ≠ a := fun same => notFirst (same ▸ member)
    rw [join_next, if_neg other]
  · intro x member
    have other : x ≠ b := fun same => notSecond (same ▸ member)
    rw [join_prev, if_neg other]

/-- Two chains become one. -/
theorem Linked.join
    {before after : List A}
    {a b : A}
    (left : Linked links (before ++ [a]))
    (right : Linked links (b :: after))
    (nodup : (before ++ a :: b :: after).Nodup) :
    Linked (Links.join links a b) (before ++ a :: b :: after) := by
  have apart := List.nodup_append.mp nodup
  have rest := List.nodup_cons.mp apart.2.1
  refine List.isChain_append_cons_cons.mpr ⟨?_, ⟨?_, ?_⟩, ?_⟩
  · refine left.join_outside ?_ ?_
    · rw [List.dropLast_concat]
      intro member
      exact apart.2.2 a member a List.mem_cons_self rfl
    · intro member
      have inLeft := List.mem_of_mem_tail member
      rcases List.mem_append.mp inLeft with inside | last
      · exact apart.2.2 b inside b (by simp) rfl
      · exact rest.1 (by simp [List.mem_singleton.mp last])
  · simp
  · simp
  · refine right.join_outside ?_ ?_
    · intro member
      exact rest.1 (List.dropLast_subset _ member)
    · exact (List.nodup_cons.mp rest.2).1

/-! ## Segments -/

/-- A segment goes out of a list, and stays a chain. -/
theorem Closed.take_out
    {before segment after : List A}
    {p q : A}
    (closed : Closed links (before ++ p :: (segment ++ q :: after))) :
    Closed (join links p q) (before ++ p :: q :: after) ∧
      Linked (join links p q) segment := by
  have linked := closed.linked
  have nodup := closed.nodup
  have shape : before ++ p :: (segment ++ q :: after) =
      (before ++ [p]) ++ (segment ++ q :: after) := by simp
  rw [shape] at linked nodup
  have pieces := List.isChain_append.mp linked
  have left : Linked links (before ++ [p]) := pieces.1
  have inner := List.isChain_append.mp pieces.2.1
  have right : Linked links (q :: after) := inner.2.1
  have within : Linked links segment := inner.1
  have apart := List.nodup_append.mp nodup
  have innerApart := List.nodup_append.mp apart.2.1
  have shorter : (before ++ p :: q :: after).Nodup := by
    refine closed.nodup.sublist (List.Sublist.append_left ?_ _)
    exact (List.sublist_append_right segment _).cons_cons p
  have notFirst : p ∉ segment := fun member =>
    apart.2.2 p (by simp) p (List.mem_append_left _ member) rfl
  have notSecond : q ∉ segment := fun member =>
    innerApart.2.2 q member q List.mem_cons_self rfl
  refine ⟨⟨shorter, left.join right shorter, ?_, ?_⟩, ?_⟩
  · intro a isFirst
    have member : a ∈ before ++ [p] := by
      cases before with
      | nil => simpa using isFirst.symm
      | cons c before =>
          have same : c = a := by simpa using isFirst
          simp [same]
    have other : a ≠ q := fun same => apart.2.2 a member q (by simp) same
    rw [join_prev, if_neg other]
    refine closed.front a ?_
    cases before <;> simpa using isFirst
  · intro a isLast
    have same : (before ++ p :: q :: after).getLast? =
        (before ++ p :: (segment ++ q :: after)).getLast? := by
      simp [List.getLast?_cons, List.getLast?_append]
    rw [same] at isLast
    have member : a ∈ q :: after := by
      have last : (before ++ p :: (segment ++ q :: after)).getLast? =
          (q :: after).getLast? := by
        simp [List.getLast?_cons, List.getLast?_append]
      rw [last] at isLast
      exact List.mem_of_getLast? isLast
    have other : a ≠ p := fun isP =>
      apart.2.2 p (by simp) a (List.mem_append_right _ member) isP.symm
    rw [join_next, if_neg other]
    exact closed.back a isLast
  · refine within.join_outside ?_ ?_
    · exact fun member => notFirst (List.dropLast_subset _ member)
    · exact fun member => notSecond (List.mem_of_mem_tail member)

/-- A segment goes in between two neighbours. -/
theorem Closed.put_in
    {before after middle : List A}
    {p q first last : A}
    (closed : Closed links (before ++ p :: q :: after))
    (segment : Linked links (first :: middle))
    (ends : (first :: middle).getLast? = some last)
    (nodup : (before ++ p :: (first :: middle ++ q :: after)).Nodup) :
    Closed (join (join links p first) last q)
      (before ++ p :: (first :: middle ++ q :: after)) := by
  obtain ⟨left, -, right⟩ := List.isChain_append_cons_cons.mp closed.linked
  have shape : before ++ p :: (first :: middle ++ q :: after) =
      (before ++ p :: first :: middle) ++ q :: after := by simp
  have apart := List.nodup_append.mp (shape ▸ nodup)
  have joined : Linked (join links p first) (before ++ p :: first :: middle) :=
    Linked.join left segment apart.1
  have lastMember : last ∈ first :: middle := List.mem_of_getLast? ends
  have further : Linked (join links p first) (q :: after) := by
    refine Linked.join_outside right ?_ ?_
    · intro member
      exact apart.2.2 p (by simp) p (List.dropLast_subset _ member) rfl
    · intro member
      exact apart.2.2 first (by simp) first (List.mem_cons_of_mem _ member) rfl
  obtain ⟨init, initShape⟩ : ∃ init, first :: middle = init ++ [last] := by
    obtain ⟨init, same⟩ := List.getLast?_eq_some_iff.mp ends
    exact ⟨init, same⟩
  have regroup : before ++ p :: first :: middle =
      (before ++ p :: init) ++ [last] := by simp [initShape]
  have whole : before ++ p :: (first :: middle ++ q :: after) =
      (before ++ p :: init) ++ last :: q :: after := by
    rw [initShape]
    simp
  refine ⟨nodup, ?_, ?_, ?_⟩
  · rw [regroup] at joined
    rw [whole] at nodup ⊢
    exact Linked.join joined further nodup
  · intro a isFirst
    have member : a ∈ before ++ [p] := by
      cases before with
      | nil => simpa using isFirst.symm
      | cons c before =>
          have same : c = a := by simpa using isFirst
          simp [same]
    have notQ : a ≠ q := by
      refine fun same => apart.2.2 a ?_ q (by simp) same
      rcases List.mem_append.mp member with inside | isP
      · simp [inside]
      · simp [List.mem_singleton.mp isP]
    have notInside : a ≠ first := by
      intro same
      have tight : ((before ++ [p]) ++ (first :: middle)).Nodup := by
        simpa using apart.1
      exact (List.nodup_append.mp tight).2.2 a member first (by simp) same
    rw [join_prev, if_neg notQ, join_prev, if_neg notInside]
    refine closed.front a ?_
    cases before <;> simpa using isFirst
  · intro a isLast
    have lastOf : (before ++ p :: (first :: middle ++ q :: after)).getLast? =
        (q :: after).getLast? := by
      rw [shape, List.getLast?_append]
      simp [List.getLast?_cons]
    rw [lastOf] at isLast
    have member : a ∈ q :: after := List.mem_of_getLast? isLast
    have notLast : a ≠ last := by
      refine fun same => apart.2.2 last ?_ a member same.symm
      exact List.mem_append_right _ (List.mem_cons_of_mem _ lastMember)
    have notP : a ≠ p := fun same => apart.2.2 p (by simp) a member same.symm
    rw [join_next, if_neg notLast, join_next, if_neg notP]
    refine closed.back a ?_
    have sameLast : (before ++ p :: q :: after).getLast? =
        (q :: after).getLast? := by
      simp [List.getLast?_cons, List.getLast?_append]
    rw [sameLast]
    exact isLast

/-- A single element goes in between two neighbours. -/
theorem Closed.put_in_one
    {before after : List A}
    {p q elem : A}
    (closed : Closed links (before ++ p :: q :: after))
    (new : elem ∉ before ++ p :: q :: after) :
    Closed (join (join links p elem) elem q)
      (before ++ p :: elem :: q :: after) := by
  refine closed.put_in (.singleton elem) rfl ?_
  have moved : (before ++ p :: (elem :: q :: after)).Perm
      (elem :: (before ++ p :: q :: after)) := by
    have shift := @List.perm_middle _ elem (before ++ [p]) (q :: after)
    simpa using shift
  exact moved.nodup_iff.mpr (List.nodup_cons.mpr ⟨new, closed.nodup⟩)

end Links
