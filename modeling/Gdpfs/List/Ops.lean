import Gdpfs.Store.Chain
import Gdpfs.Store.Effect

/-!
# Doubly linked lists (`list.c`)

A list has two header elements: the head before its first element and the tail
after its last one.  Elements are embedded in the structures that they link, so
that the lists allocate nothing; here an element is an address and the state
has the two links of every element.  A comparison does not look at the links,
and is a function of two elements.  Loops take the number of rounds they may
make.
-/

namespace Gdpfs
namespace Lists

open Effect Links

/-- What stops a function. -/
inductive ListFault
  /-- A failed assertion. -/
  | assertion
  /-- A null pointer is followed, or handed on where an element is expected. -/
  | nullPointer
  /-- A loop is not done after its rounds. -/
  | rounds
  deriving DecidableEq, Repr

/-- The links of all elements. -/
abbrev Elems := Nat → Link Nat

/-- Code that works on the links. -/
abbrev ListM := StateT Elems (Except ListFault)

/-- `struct list`: the addresses of its two header elements. -/
structure ListHead where
  head : Nat
  tail : Nat
  deriving DecidableEq, Repr

/-- `ASSERT`. -/
def ensure (condition : Bool) : ListM Unit :=
  if condition then pure () else throw .assertion

/-- Follow a pointer. -/
def follow : Option Nat → ListM Nat
  | some elem => pure elem
  | none => throw .nullPointer

/-- `elem->prev`. -/
def getPrev (elem : Nat) : ListM (Option Nat) := do
  let links ← get
  pure (links elem).prev

/-- `elem->next`. -/
def getNext (elem : Nat) : ListM (Option Nat) := do
  let links ← get
  pure (links elem).next

/-- Assign to `elem->prev`. -/
def putPrev (elem : Nat) (target : Option Nat) : ListM Unit := do
  let links ← get
  set (setPrev links elem target)

/-- Assign to `elem->next`. -/
def putNext (elem : Nat) (target : Option Nat) : ListM Unit := do
  let links ← get
  set (setNext links elem target)

/-- `is_head`. -/
def isHead (elem : Nat) : ListM Bool := do
  let prev ← getPrev elem
  let next ← getNext elem
  pure (prev.isNone && next.isSome)

/-- `is_interior`. -/
def isInterior (elem : Nat) : ListM Bool := do
  let prev ← getPrev elem
  let next ← getNext elem
  pure (prev.isSome && next.isSome)

/-- `is_tail`. -/
def isTail (elem : Nat) : ListM Bool := do
  let prev ← getPrev elem
  let next ← getNext elem
  pure (prev.isSome && next.isNone)

/-- `list_init`. -/
def listInit (list : ListHead) : ListM Unit := do
  putPrev list.head none
  putNext list.head (some list.tail)
  putPrev list.tail (some list.head)
  putNext list.tail none

/-! ## Going through a list -/

/-- `list_begin`. -/
def listBegin (list : ListHead) : ListM Nat := do
  let next ← getNext list.head
  follow next

/-- `list_next`. -/
def listNext (elem : Nat) : ListM Nat := do
  let head ← isHead elem
  let interior ← isInterior elem
  ensure (head || interior)
  let next ← getNext elem
  follow next

/-- `list_end`. -/
def listEnd (list : ListHead) : Nat := list.tail

/-- `list_prev`. -/
def listPrev (elem : Nat) : ListM Nat := do
  let interior ← isInterior elem
  let tail ← isTail elem
  ensure (interior || tail)
  let prev ← getPrev elem
  follow prev

/-- `list_empty`. -/
def listEmpty (list : ListHead) : ListM Bool := do
  let first ← listBegin list
  pure (first == listEnd list)

/-- `list_front`. -/
def listFront (list : ListHead) : ListM Nat := do
  let empty ← listEmpty list
  ensure !empty
  let next ← getNext list.head
  follow next

/-- `list_back`. -/
def listBack (list : ListHead) : ListM Nat := do
  let empty ← listEmpty list
  ensure !empty
  let prev ← getPrev list.tail
  follow prev

/-- The loop of `list_size`. -/
def sizeLoop (list : ListHead) : (rounds : Nat) → Nat → Nat → ListM Nat
  | 0, _, _ => throw .rounds
  | rounds + 1, e, cnt =>
      if e = listEnd list then pure cnt
      else do
        let e ← listNext e
        sizeLoop list rounds e (cnt + 1)

/-- `list_size`. -/
def listSize (rounds : Nat) (list : ListHead) : ListM Nat := do
  let e ← listBegin list
  sizeLoop list rounds e 0

/-! ## Insertion and removal -/

/-- `list_insert`. -/
def listInsert (before elem : Nat) : ListM Unit := do
  let interior ← isInterior before
  let tail ← isTail before
  ensure (interior || tail)
  let prev ← getPrev before
  putPrev elem prev
  putNext elem (some before)
  let prev ← getPrev before
  let prev ← follow prev
  putNext prev (some elem)
  putPrev before (some elem)

/-- `list_splice`. -/
def listSplice (before first last : Nat) : ListM Unit := do
  let interior ← isInterior before
  let tail ← isTail before
  ensure (interior || tail)
  if first = last then pure ()
  else do
    let last ← listPrev last
    let interior ← isInterior first
    ensure interior
    let interior ← isInterior last
    ensure interior
    -- Remove the elements from their list.
    let prev ← getPrev first
    let prev ← follow prev
    let next ← getNext last
    putNext prev next
    let next ← getNext last
    let next ← follow next
    let prev ← getPrev first
    putPrev next prev
    -- Splice them into the new one.
    let prev ← getPrev before
    putPrev first prev
    putNext last (some before)
    let prev ← getPrev before
    let prev ← follow prev
    putNext prev (some first)
    putPrev before (some last)

/-- `list_push_front`. -/
def listPushFront (list : ListHead) (elem : Nat) : ListM Unit := do
  let first ← listBegin list
  listInsert first elem

/-- `list_push_back`. -/
def listPushBack (list : ListHead) (elem : Nat) : ListM Unit :=
  listInsert (listEnd list) elem

/-- `list_remove`. -/
def listRemove (elem : Nat) : ListM Nat := do
  let interior ← isInterior elem
  ensure interior
  let prev ← getPrev elem
  let prev ← follow prev
  let next ← getNext elem
  putNext prev next
  let next ← getNext elem
  let next ← follow next
  let prev ← getPrev elem
  putPrev next prev
  let next ← getNext elem
  follow next

/-- `list_pop_front`. -/
def listPopFront (list : ListHead) : ListM Nat := do
  let front ← listFront list
  let _ ← listRemove front
  pure front

/-- `list_pop_back`. -/
def listPopBack (list : ListHead) : ListM Nat := do
  let back ← listBack list
  let _ ← listRemove back
  pure back

/-! ## Reversal -/

/-- `swap` of the two links of an element. -/
def swapLinks (e : Nat) : ListM Unit := do
  let prev ← getPrev e
  let next ← getNext e
  putPrev e next
  putNext e prev

/-- The loop of `list_reverse`. -/
def reverseLoop (list : ListHead) : (rounds : Nat) → Nat → ListM Unit
  | 0, _ => throw .rounds
  | rounds + 1, e =>
      if e = listEnd list then pure ()
      else do
        swapLinks e
        let prev ← getPrev e
        let e ← follow prev
        reverseLoop list rounds e

/-- `list_reverse`. -/
def listReverse (rounds : Nat) (list : ListHead) : ListM Unit := do
  let empty ← listEmpty list
  if empty then pure ()
  else do
    let e ← listBegin list
    reverseLoop list rounds e
    let next ← getNext list.head
    let prev ← getPrev list.tail
    putNext list.head prev
    putPrev list.tail next
    let first ← getNext list.head
    let first ← follow first
    let last ← getPrev list.tail
    let last ← follow last
    let prev ← getPrev first
    let next ← getNext last
    putPrev first next
    putNext last prev

/-! ## Order -/

section Order

variable (less : Nat → Nat → Bool)

/-- The loop of `is_sorted`. -/
def sortedLoop (b : Nat) : (rounds : Nat) → Nat → ListM Bool
  | 0, _ => throw .rounds
  | rounds + 1, a => do
      let a ← listNext a
      if a = b then pure true
      else do
        let before ← listPrev a
        if less a before then pure false else sortedLoop b rounds a

/-- `is_sorted`. -/
def isSorted (rounds : Nat) (a b : Nat) : ListM Bool :=
  if a = b then pure true else sortedLoop less b rounds a

/-- The loop of `find_end_of_run`. -/
def runLoop (b : Nat) : (rounds : Nat) → Nat → ListM Nat
  | 0, _ => throw .rounds
  | rounds + 1, a => do
      let a ← listNext a
      if a = b then pure a
      else do
        let before ← listPrev a
        if less a before then pure a else runLoop b rounds a

/-- `find_end_of_run`. -/
def findEndOfRun (rounds : Nat) (a b : Nat) : ListM Nat := do
  ensure (a != b)
  runLoop less b rounds a

/-- The loop of `inplace_merge`. -/
def mergeLoop (b1 : Nat) : (rounds : Nat) → Nat → Nat → ListM Unit
  | 0, _, _ => throw .rounds
  | rounds + 1, a0, a1b0 =>
      if a0 = a1b0 ∨ a1b0 = b1 then pure ()
      else if less a1b0 a0 then do
        let a1b0 ← listNext a1b0
        let before ← listPrev a1b0
        listSplice a0 before a1b0
        mergeLoop b1 rounds a0 a1b0
      else do
        let a0 ← listNext a0
        mergeLoop b1 rounds a0 a1b0

/-- `inplace_merge`. -/
def inplaceMerge (rounds : Nat) (a0 a1b0 b1 : Nat) : ListM Unit := do
  let sorted ← isSorted less rounds a0 a1b0
  ensure sorted
  let sorted ← isSorted less rounds a1b0 b1
  ensure sorted
  mergeLoop less b1 rounds a0 a1b0

/-- The inner loop of `list_sort`, which hands back `output_run_cnt`. -/
def passLoop (rounds : Nat) (list : ListHead) :
    (passRounds : Nat) → Nat → Nat → ListM Nat
  | 0, _, _ => throw .rounds
  | passRounds + 1, a0, outputRunCnt =>
      if a0 = listEnd list then pure outputRunCnt
      else do
        let a1b0 ← findEndOfRun less rounds a0 (listEnd list)
        if a1b0 = listEnd list then pure (outputRunCnt + 1)
        else do
          let b1 ← findEndOfRun less rounds a1b0 (listEnd list)
          inplaceMerge less rounds a0 a1b0 b1
          passLoop rounds list passRounds b1 (outputRunCnt + 1)

/-- The outer loop of `list_sort`. -/
def sortLoop (rounds : Nat) (list : ListHead) : (passes : Nat) → ListM Unit
  | 0 => throw .rounds
  | passes + 1 => do
      let a0 ← listBegin list
      let outputRunCnt ← passLoop less rounds list rounds a0 0
      if outputRunCnt > 1 then sortLoop rounds list passes else pure ()

/-- `list_sort`, with at most so many passes over the list. -/
def listSort (passes rounds : Nat) (list : ListHead) : ListM Unit := do
  sortLoop less rounds list passes
  let first ← listBegin list
  let sorted ← isSorted less rounds first (listEnd list)
  ensure sorted

/-- The loop of `list_insert_ordered`. -/
def placeLoop (list : ListHead) (elem : Nat) :
    (rounds : Nat) → Nat → ListM Nat
  | 0, _ => throw .rounds
  | rounds + 1, e =>
      if e = listEnd list then pure e
      else if less elem e then pure e
      else do
        let e ← listNext e
        placeLoop list elem rounds e

/-- `list_insert_ordered`. -/
def listInsertOrdered (rounds : Nat) (list : ListHead) (elem : Nat) :
    ListM Unit := do
  let e ← listBegin list
  let e ← placeLoop less list elem rounds e
  listInsert e elem

/-- Append an element to the list of duplicates, if there is one. -/
def collect : (duplicates : Option ListHead) → Nat → ListM Unit
  | none, _ => pure ()
  | some duplicates, next => listPushBack duplicates next

/-- The loop of `list_unique`. -/
def uniqueLoop (list : ListHead) (duplicates : Option ListHead) :
    (rounds : Nat) → Nat → ListM Unit
  | 0, _ => throw .rounds
  | rounds + 1, elem => do
      let next ← listNext elem
      if next = listEnd list then pure ()
      else if !less elem next && !less next elem then do
        let _ ← listRemove next
        collect duplicates next
        uniqueLoop list duplicates rounds elem
      else uniqueLoop list duplicates rounds next

/-- `list_unique`. -/
def listUnique (rounds : Nat) (list : ListHead)
    (duplicates : Option ListHead) : ListM Unit := do
  let empty ← listEmpty list
  if empty then pure ()
  else do
    let elem ← listBegin list
    uniqueLoop less list duplicates rounds elem

/-- The loops of `list_max` and `list_min`: `better` says when the next element
takes the place of the one held so far. -/
def bestLoop (better : Nat → Nat → Bool) (list : ListHead) :
    (rounds : Nat) → Nat → Nat → ListM Nat
  | 0, _, _ => throw .rounds
  | rounds + 1, held, e =>
      if e = listEnd list then pure held
      else do
        let next ← listNext e
        bestLoop better list rounds (if better e held then e else held) next

/-- `list_max` and `list_min`. -/
def listBest (better : Nat → Nat → Bool) (rounds : Nat) (list : ListHead) :
    ListM Nat := do
  let first ← listBegin list
  if first = listEnd list then pure first
  else do
    let e ← listNext first
    bestLoop better list rounds first e

/-- `list_max`. -/
def listMax (rounds : Nat) (list : ListHead) : ListM Nat :=
  listBest (fun e max => less max e) rounds list

/-- `list_min`. -/
def listMin (rounds : Nat) (list : ListHead) : ListM Nat :=
  listBest (fun e min => less e min) rounds list

end Order

end Lists
end Gdpfs
