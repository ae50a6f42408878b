import Gdpfs.FigTree.Write

/-!
# Iterating over a FIG tree (`figtree/figtree.c`)

An iterator keeps the way from the root to the entry that it yields next, with
the interval in which each node of the way is still valid.  `depth` is not
kept: it is one less than the number of states in use, so that an iterator
that is past its last fig has no state at all.  The states are listed from the
innermost one outwards.  A state past the end of the array, whose size
`ft_read` fixes, is a fault.
-/

namespace Gdpfs
namespace FigTree

open Log

/-- `struct figtree_iterstate`. -/
structure FigtreeIterstate where
  node : Option Addr
  /-- The entry to look at; the source starts before the first one and steps
  forward before each use. -/
  pos : Nat
  valid : Interval
  deriving DecidableEq, Repr

/-- `ft_iterstate_init`. -/
def ftIterstateInit (node : Option Addr) (valid : Interval) :
    FigtreeIterstate :=
  ⟨node, 0, valid⟩

/-- `struct figtree_iter` and the array behind it. -/
structure FigtreeIter where
  /-- The number of states that fit into the array. -/
  capacity : Nat
  /-- The states up to `depth`, innermost first. -/
  states : List FigtreeIterstate
  deriving DecidableEq, Repr

/-- How the scan over the entries of a node ends in `ft_read`. -/
inductive ReadScan
  | contains (pos : Nat)
  | rightOf (pos : Nat)
  | past
  deriving DecidableEq, Repr

/-- The inner `while` loop of `ft_read`. -/
def scanRead (start : Nat) : List FtEnt → Nat → ReadScan
  | [], _ => .past
  | entry :: rest, pos =>
      if iContainsVal entry.irange start then .contains pos
      else if iRightOfVal entry.irange start then .rightOf pos
      else scanRead start rest (pos + 1)

/-- The state that `ft_read` puts on top of `rs` when it goes down through the
gap at `pos`. -/
def ftReadPush
    (log : List LogRecord)
    (entries : List FtEnt)
    (currnode : Addr)
    (rs : FigtreeIterstate)
    (pos : Nat) : FigM FigtreeIterstate := do
  let subtree ← subtreeGet log currnode pos
  let valid ← iRestrictRange rs.valid
    (gapLeft entries pos) (gapRight entries pos) false
  pure (ftIterstateInit subtree valid)

/-- The outer `while` loop of `ft_read`, with the state `rs` on top; `room` is
the number of states that fit into the array from `rs` on. -/
def ftReadDown (log : List LogRecord) (start : Nat) :
    (room : Nat) → FigtreeIterstate → List FigtreeIterstate →
      FigM (List FigtreeIterstate)
  | 0, _, _ => throw .iteratorOverflow
  | room + 1, rs, outer =>
      match rs.node with
      | none => pure (rs :: outer)
      | some currnode => do
          let entries := (← loadNode currnode).entries
          match scanRead start entries 0 with
          | .contains pos => pure ({ rs with pos := pos } :: outer)
          | .rightOf pos => do
              let next ← ftReadPush log entries currnode rs pos
              ftReadDown log start room next ({ rs with pos := pos } :: outer)
          | .past => do
              let pos := entries.length
              let next ← ftReadPush log entries currnode rs pos
              ftReadDown log start room next ({ rs with pos := pos } :: outer)

/-- Whether a node has nothing to yield from `pos` on. -/
def iterstateDone (node : FtNode) (rs : FigtreeIterstate) : Bool :=
  rs.pos == node.entries.length ||
    match node.entries[rs.pos]? with
    | some entry => iLeftOfInt rs.valid entry.irange
    | none => false

/-- The loop that backtracks past nodes with nothing to yield.  `ft_read` may
meet a null node on top, which `fti_next` would dereference. -/
def backtrack (nullDone : Bool) :
    List FigtreeIterstate → FigM (List FigtreeIterstate)
  | [] => pure []
  | rs :: outer => do
      let done ← match rs.node with
        | none => if nullDone then pure true else throw .badAddress
        | some this => do pure (iterstateDone (← loadNode this) rs)
      if done then backtrack nullDone outer else pure (rs :: outer)

/-- `ft_read`. -/
def ftRead
    (log : List LogRecord)
    (this : Figtree)
    (start stop : Nat) : FigM FigtreeIter := do
  let capacity := (← loadNode this.root).height + 2
  let rs := ftIterstateInit (some this.root) (iInit start stop)
  let states ← ftReadDown log start capacity rs []
  let states ← backtrack true states
  pure ⟨capacity, states⟩

/-- The first entry that is not left of the valid interval. -/
def skipLeft (valid : Interval) : List FtEnt → Nat → Nat
  | [], pos => pos
  | entry :: rest, pos =>
      if iLeftOfInt entry.irange valid then skipLeft valid rest (pos + 1)
      else pos

/-- The loop of `fti_next` that drills down the subtree after the entry that
was yielded; `room` is the number of states that still fit into the array. -/
def ftiDrill (log : List LogRecord) :
    (room : Nat) → Option Addr → (leftlimit rightlimit : Nat) →
      (oldvalid : Interval) → List FigtreeIterstate →
        FigM (List FigtreeIterstate)
  | _, none, _, _, _, states => pure states
  | 0, some _, _, _, _, _ => throw .iteratorOverflow
  | room + 1, some subtree, leftlimit, rightlimit, oldvalid, states => do
      let valid ← iRestrictRange oldvalid leftlimit rightlimit false
      let entries := (← loadNode subtree).entries
      let pos := skipLeft valid entries 0
      let states := ⟨some subtree, pos, valid⟩ :: states
      match entries[pos]? with
      | some entry =>
          if iLeftOverlaps valid entry.irange then pure states
          else do
            let next ← subtreeGet log subtree pos
            ftiDrill log room next (gapLeft entries pos)
              (gapRight entries pos) valid states
      | none => do
          let next ← subtreeGet log subtree pos
          ftiDrill log room next (gapLeft entries pos)
            (gapRight entries pos) valid states

/-- `fti_next`: nothing, when the iterator is past its last fig, and otherwise
the fig with the iterator moved on.  `struct fig` is `struct ft_ent` under
another name. -/
def ftiNext
    (log : List LogRecord)
    (this : FigtreeIter) : FigM (Option FtEnt × FigtreeIter) :=
  match this.states with
  | [] => pure (none, this)
  | rs :: outer =>
      match rs.node with
      | none => throw .badAddress
      | some currnode => do
          let entries := (← loadNode currnode).entries
          match entries[rs.pos]? with
          | none => throw .iteratorAtEnd
          | some entry => do
              let irange ← iRestrictInt entry.irange rs.valid false
              let next : FtEnt := ⟨irange, entry.value⟩
              let states ←
                if rs.valid.right ≤ entry.irange.right then
                  pure ({ rs with pos := entries.length } :: outer)
                else do
                  let pos := rs.pos + 1
                  let leftlimit := gapLeft entries pos
                  let rightlimit := gapRight entries pos
                  let states := { rs with pos := pos } :: outer
                  if leftlimit ≤ rightlimit then do
                    let subtree ← subtreeGet log currnode pos
                    ftiDrill log (this.capacity - states.length) subtree
                      leftlimit rightlimit rs.valid states
                  else pure states
              let states ← backtrack false states
              pure (some next, { this with states := states })

/-- Calling `fti_next` until it returns false yields these figs. -/
inductive Yields (log : List LogRecord) :
    FigtreeIter → Heap → List FtEnt → Heap → Prop
  | done
      (run : (ftiNext log this).run heap = .ok ((none, this'), heap')) :
      Yields log this heap [] heap'
  | next
      (run : (ftiNext log this).run heap = .ok ((some fig, this'), heap'))
      (rest : Yields log this' heap' figs heap'') :
      Yields log this heap (fig :: figs) heap''

end FigTree
end Gdpfs
