import Gdpfs.Log.Record

/-!
# Writing to and looking up in a FIG tree (`figtree/figtree.c`)

`ft_write` runs `_ft_insert` once for the written range and once more for each
piece of an overwritten entry that sticks out on the right or on the left.
`_ft_insert` walks down the tree, pruning every node to the interval in which
it is still valid, and records its way in the arrays `path` and `pathIndices`;
these are one list of pairs here.  A store past the end of the arrays, whose
size `ft_write` fixes on entry, is a fault.
-/

namespace Gdpfs
namespace FigTree

open Log

/-- `struct figtree`. -/
structure Figtree where
  root : Addr
  deriving DecidableEq, Repr

/-- `ft_init`. -/
def ftInit : FigM Figtree := do
  pure ⟨← ftnNew 0 true⟩

/-- `ft_init_with_root`. -/
def ftInitWithRoot (root : Addr) : Figtree := ⟨root⟩

/-- Corresponding elements of `path` and `pathIndices`. -/
structure PathEnt where
  node : Addr
  index : Nat
  deriving DecidableEq, Repr

/-- `struct insertargs`. -/
structure InsertArgs where
  range : Interval
  value : Int
  startNode : Option Addr
  valid : Interval
  deriving DecidableEq, Repr

/-- `struct insertcont`; the flags `hasleftc` and `hasrightc` say which of the
two are present. -/
structure InsertCont where
  leftc : Option InsertArgs
  rightc : Option InsertArgs
  deriving DecidableEq, Repr

/-- How the scan over the entries of a node ends. -/
inductive Scan
  | overlap (i : Nat)
  | rightOf (i : Nat)
  | past
  deriving DecidableEq, Repr

/-- The `for` loop over the entries of `currnode`. -/
def scanEntries (range : Interval) : List FtEnt → Nat → Scan
  | [], _ => .past
  | current :: rest, i =>
      if iOverlaps current.irange range then .overlap i
      else if iRightOfInt current.irange range then .rightOf i
      else scanEntries range rest (i + 1)

/-- The inner loop over `j`: the index of the first entry that no longer starts
inside the range. -/
def scanOverlaps (range : Interval) : List FtEnt → Nat → Nat
  | [], j => j
  | current :: rest, j =>
      if iLeftOverlaps current.irange range then scanOverlaps range rest (j + 1)
      else j

/-- The byte after the entry on the left of gap `i`. -/
def gapLeft (entries : List FtEnt) (i : Nat) : Nat :=
  if i = 0 then byteIndexMin
  else match entries[i - 1]? with
    | some before => succ32 before.irange.right
    | none => byteIndexMin

/-- The byte before the entry on the right of gap `i`. -/
def gapRight (entries : List FtEnt) (i : Nat) : Nat :=
  match entries[i]? with
  | some after => pred32 after.irange.left
  | none => byteIndexMax

/-- The branch of `_ft_insert` that replaces the entries `i` to `j - 1`, which
overlap the range, and creates the continuations for what sticks out. -/
def ftInsertOverlap
    (log : List LogRecord)
    (range : Interval)
    (value : Int)
    (currnode : Addr)
    (valid : Interval)
    (path : List PathEnt)
    (i : Nat) : FigM (List PathEnt × InsertCont) := do
  let entries := (← loadNode currnode).entries
  let j := scanOverlaps range (entries.drop (i + 1)) (i + 1)
  match entries[i]?, entries[j - 1]? with
  | some current, some previous => do
      let leftc ←
        if current.irange.left < range.left then do
          let startNode ← subtreeGet log currnode i
          let valid ← iRestrictRange valid
            (gapLeft entries i) (gapRight entries i) true
          pure (some
            { range := iInit current.irange.left (pred32 range.left)
              value := current.value
              startNode := startNode
              valid := valid : InsertArgs })
        else pure none
      let rightc ←
        if previous.irange.right > range.right then do
          let startNode ← subtreeGet log currnode j
          let valid ← iRestrictRange valid
            (gapLeft entries j) (gapRight entries j) true
          pure (some
            { range := iInit (succ32 range.right) previous.irange.right
              value := previous.value
              startNode := startNode
              valid := valid : InsertArgs })
        else pure none
      let index := if rightc.isSome then i + 1 else i
      ftnReplaceEntries currnode i j range value
      pure (path ++ [⟨currnode, index⟩], ⟨leftc, rightc⟩)
  | _, _ => throw .badAddress

/-- The loop of `_ft_insert` down the tree.  `room` is the number of elements
that still fit into the path arrays.  The node that is handed back is null
when a leaf was left through a gap, so that the range has to be inserted. -/
def ftInsertDown
    (log : List LogRecord)
    (range : Interval)
    (value : Int) :
    (room : Nat) → Option Addr → Interval → List PathEnt →
      FigM (Option Addr × List PathEnt × InsertCont)
  | _, none, _, path => pure (none, path, ⟨none, none⟩)
  | 0, some _, _, _ => throw .pathOverflow
  | room + 1, some currnode, valid, path => do
      ftnPruneTo currnode valid
      let entries := (← loadNode currnode).entries
      match scanEntries range entries 0 with
      | .overlap i => do
          let (path, ic) ←
            ftInsertOverlap log range value currnode valid path i
          pure (some currnode, path, ic)
      | .rightOf i => do
          let next ← subtreeGet log currnode i
          let valid ← iRestrictRange valid
            (gapLeft entries i) (gapRight entries i) true
          ftInsertDown log range value room next valid
            (path ++ [⟨currnode, i⟩])
      | .past => do
          let i := entries.length
          let next ← subtreeGet log currnode i
          let valid ← iRestrictRange valid
            (gapLeft entries i) (gapRight entries i) true
          ftInsertDown log range value room next valid
            (path ++ [⟨currnode, i⟩])

/-- What the loop of `_ft_insert` up the path has to insert next. -/
structure Pushed where
  topushnode : Option Addr
  topushent : FtEnt
  left : Option Addr
  right : Option Addr
  deriving DecidableEq, Repr

/-- The adjustment of `path` and `pathIndices` at `pathindex` while a right
continuation is under way. -/
def ftInsertPatch
    (log : List LogRecord)
    (finalsharedindex pathindex : Nat)
    (path : List PathEnt)
    (insertinto : Addr)
    (insertindex : Nat)
    (right : Option Addr)
    (topushnode : Option Addr) : FigM (List PathEnt) := do
  let nextpathmember := path[pathindex + 1]?.map PathEnt.node
  let insertindex :=
    if pathindex = finalsharedindex then insertindex - 1
    else if pathindex < finalsharedindex ∧ nextpathmember = right then
      insertindex + 1
    else insertindex
  match topushnode with
  | none => pure (path.set pathindex ⟨insertinto, insertindex⟩)
  | some topushnode => do
      let side := if insertindex ≤ ftOrder then 0 else 1
      match ← subtreeGet log topushnode side with
      | none => throw .badAddress
      | some half =>
          pure (path.set pathindex
            ⟨half, if insertindex ≤ ftOrder then insertindex
              else insertindex - (ftOrder + 1)⟩)

/-- The loop of `_ft_insert` up the path; the first argument is one more than
`pathindex`.  It hands back the new root when every node on the path split. -/
def ftInsertUp
    (log : List LogRecord)
    (rightcontinuation : Bool)
    (finalsharedindex : Nat) :
    Nat → List PathEnt → Pushed → FigM (Option Addr × List PathEnt)
  | 0, path, pushed => pure (pushed.topushnode, path)
  | pathindex + 1, path, pushed =>
      match path[pathindex]? with
      | none => throw .badAddress
      | some ⟨insertinto, insertindex⟩ => do
          let rv ← ftnInsert insertinto pushed.topushent insertindex
            pushed.left pushed.right
          memFree pushed.topushnode
          let path ←
            if rightcontinuation then
              ftInsertPatch log finalsharedindex pathindex path
                insertinto insertindex pushed.right rv
            else pure path
          match rv with
          | none =>
              let path :=
                if rightcontinuation && pathindex > finalsharedindex then
                  path.modify finalsharedindex
                    fun ent => { ent with index := ent.index - 1 }
                else path
              pure (none, path)
          | some topushnode => do
              let left ← subtreeGet log topushnode 0
              let right ← subtreeGet log topushnode 1
              match (← loadNode topushnode).entries[0]? with
              | none => throw .badAddress
              | some topushent =>
                  ftInsertUp log rightcontinuation finalsharedindex
                    pathindex path ⟨rv, topushent, left, right⟩

/-- What a right continuation does to the path when the root was split. -/
def ftInsertShift
    (log : List LogRecord)
    (maxdepth : Nat)
    (path : List PathEnt)
    (topushnode : Addr) : FigM (List PathEnt) := do
  let nextpathmember := path[0]?.map PathEnt.node
  let right ← subtreeGet log topushnode 1
  let left ← subtreeGet log topushnode 0
  ensure (path.length < maxdepth) .pathOverflow
  if nextpathmember = right then
    pure (⟨topushnode, 1⟩ :: path)
  else do
    ensure (nextpathmember = left) .newRootPath
    pure (⟨topushnode, 0⟩ :: path)

/-- `_ft_insert`; the tree, the path and the continuations are handed back. -/
def ftInsert
    (log : List LogRecord)
    (maxdepth : Nat)
    (this : Figtree)
    (args : InsertArgs)
    (path : List PathEnt)
    (rightcontinuation : Bool) :
    FigM (Figtree × List PathEnt × InsertCont) := do
  let finalsharedindex := path.length - 1
  let (currnode, path, ic) ←
    ftInsertDown log args.range args.value (maxdepth - path.length)
      args.startNode args.valid path
  let (this, path, finalsharedindex) ←
    match currnode with
    | some _ => pure (this, path, finalsharedindex)
    | none => do
        let (grown, path) ←
          ftInsertUp log rightcontinuation finalsharedindex path.length path
            ⟨none, ⟨args.range, args.value⟩, none, none⟩
        match grown with
        | none => pure (this, path, finalsharedindex)
        | some root =>
            if rightcontinuation then do
              let path ← ftInsertShift log maxdepth path root
              pure (⟨root⟩, path, finalsharedindex + 1)
            else pure (⟨root⟩, path, finalsharedindex)
  let path :=
    if rightcontinuation then path.take (finalsharedindex + 1) else path
  pure (this, path, ic)

/-- `ft_write`. -/
def ftWrite
    (log : List LogRecord)
    (this : Figtree)
    (start stop : Nat)
    (value : Int) : FigM Figtree := do
  let maxdepth := (← loadNode this.root).height + 2
  let iargs : InsertArgs :=
    { range := iInit start stop
      value := value
      startNode := some this.root
      valid := iInit byteIndexMin byteIndexMax }
  let (this, path, starinserts) ←
    ftInsert log maxdepth this iargs [] false
  let (this, path) ←
    match starinserts.rightc with
    | none => pure (this, path)
    | some rightc => do
        let (this, path, newstarinserts) ←
          ftInsert log maxdepth this rightc path true
        ensure (newstarinserts.leftc.isNone && newstarinserts.rightc.isNone)
          .starRight
        pure (this, path)
  match starinserts.leftc with
  | none => pure this
  | some leftc => do
      let (this, _, newstarinserts) ←
        ftInsert log maxdepth this leftc path false
      ensure (newstarinserts.leftc.isNone && newstarinserts.rightc.isNone)
        .starLeft
      pure this

/-! ## Lookup -/

/-- How the scan over the entries of a node ends in `ft_lookup`. -/
inductive LookupScan
  | found (value : Int)
  | subtree (i : Nat)
  deriving DecidableEq, Repr

/-- The `for` loop of `ft_lookup`. -/
def scanLookup (location : Nat) : List FtEnt → Nat → LookupScan
  | [], i => .subtree i
  | current :: rest, i =>
      if iContainsVal current.irange location then .found current.value
      else if current.irange.left > location then .subtree i
      else scanLookup location rest (i + 1)

/-- The loop of `ft_lookup`, for at most `depth` more nodes. -/
def ftLookupFrom
    (log : List LogRecord)
    (location : Nat) : (depth : Nat) → Option Addr → FigM (Option Int)
  | _, none => pure none
  | 0, some _ => throw .tooDeep
  | depth + 1, some currnode => do
      match scanLookup location (← loadNode currnode).entries 0 with
      | .found value => pure (some value)
      | .subtree i => do
          let next ← subtreeGet log currnode i
          ftLookupFrom log location depth next

/-- `ft_lookup`; the value is handed back instead of a pointer to it. -/
def ftLookup
    (log : List LogRecord)
    (this : Figtree)
    (location : Nat) : FigM (Option Int) := do
  let height := (← loadNode this.root).height
  ftLookupFrom log location (height + 1) (some this.root)

end FigTree
end Gdpfs
