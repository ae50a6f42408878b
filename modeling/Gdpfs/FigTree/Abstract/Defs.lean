import Gdpfs.FigTree.Write

/-!
# FIG trees as values

The heap code changes nodes in place along a path of addresses.  Here the same
algorithm works on tree values: a tree of height `h` has `h` levels of nodes
above its null pointers, so uniform height and the pairing of entries with
subtrees hold by construction.  A path is a context with a hole.  Continuing an
insertion up the path becomes `Ctx.push`, which keeps track of a marked hole
while nodes split; this is what the source does to `path` and `pathIndices`
during a right continuation.
-/

namespace Gdpfs
namespace FigTree

/-- A child of an abstract node.  `saved` is the position of a checkpointed
copy when the pointer is known to name one.  An unloaded child carries the tree
that the log stores for it; `seen` says whether some copy was fetched. -/
inductive Kid (C : Type)
  | loaded (saved : Option (Nat × Nat)) (child : C)
  | unloaded (saved : Nat × Nat) (seen : Bool) (stored : C)

/-- A node: a first child, and entries with the children to their right. -/
structure Node (C : Type) where
  dirty : Bool
  first : Kid C
  rest : List (FtEnt × Kid C)

/-- Trees with `h` levels of nodes; the tree without levels is the null
pointer. -/
def Tree : Nat → Type
  | 0 => Unit
  | h + 1 => Node (Tree h)

namespace Kid

/-- The tree a descent into the child continues with. -/
def get : Kid C → C
  | .loaded _ child => child
  | .unloaded _ _ stored => stored

/-- The child after `subtree_get`. -/
def visit : Kid C → Kid C
  | .loaded saved child => .loaded saved child
  | .unloaded saved _ stored => .unloaded saved true stored

/-- Put a changed tree back into the child.  An unloaded child keeps nothing
of it: the next `subtree_get` fetches the stored tree again. -/
def put : Kid C → C → Kid C
  | .loaded saved _, child => .loaded saved child
  | .unloaded saved seen stored, _ => .unloaded saved seen stored

/-- Whether the child is in memory. -/
def isLoaded : Kid C → Bool
  | .loaded _ _ => true
  | .unloaded _ _ _ => false

@[simp] theorem get_visit (kid : Kid C) : kid.visit.get = kid.get := by
  cases kid <;> rfl

theorem get_visit_put (kid : Kid C) :
    (kid.visit.put kid.get).get = kid.get := by
  cases kid <;> rfl

@[simp] theorem isLoaded_visit (kid : Kid C) :
    kid.visit.isLoaded = kid.isLoaded := by
  cases kid <;> rfl

theorem get_put_of_isLoaded
    {kid : Kid C}
    (loaded : kid.isLoaded = true)
    (child : C) :
    (kid.put child).get = child := by
  cases kid with
  | loaded saved old => rfl
  | unloaded saved seen stored => cases loaded

@[simp] theorem isLoaded_put (kid : Kid C) (child : C) :
    (kid.put child).isLoaded = kid.isLoaded := by
  cases kid <;> rfl

@[simp] theorem put_get (kid : Kid C) : kid.put kid.get = kid := by
  cases kid <;> rfl

@[simp] theorem put_put (kid : Kid C) (first second : C) :
    (kid.put first).put second = kid.put second := by
  cases kid <;> rfl

end Kid

namespace Node

/-- The entries of a node in order. -/
def entries (node : Node C) : List FtEnt := node.rest.map Prod.fst

/-- The children of a node in order. -/
def kids (node : Node C) : List (Kid C) :=
  node.first :: node.rest.map Prod.snd

end Node

/-! ## Clearing and pruning -/

/-- The entry-free tree that `ftn_new` builds. -/
def chain : (h : Nat) → Tree h
  | 0 => ()
  | h + 1 => (⟨true, .loaded none (chain h), []⟩ : Node (Tree h))

/-- `ftn_clear`. -/
def Node.clear {h : Nat} (node : Node (Tree h)) : Node (Tree h) :=
  { node with first := .loaded none (chain h), rest := [] }

/-- `subtree_clear`. -/
def clearKid : {h : Nat} → Kid (Tree h) → Kid (Tree h)
  | 0, kid => kid
  | _ + 1, .loaded saved child => .loaded saved (Node.clear child)
  | h + 1, .unloaded _ _ _ => .loaded none (chain (h + 1))

/-- An entry cut down to the valid interval. -/
def FtEnt.trim (entry : FtEnt) (valid : Interval) : FtEnt :=
  { entry with
    irange :=
      { entry.irange with
        left := max entry.irange.left valid.left
        right := min entry.irange.right valid.right } }

/-- Drop the entries left of the valid interval with their left children. -/
def pruneBefore (valid : Interval) :
    Kid C → List (FtEnt × Kid C) → Kid C × List (FtEnt × Kid C)
  | kid, [] => (kid, [])
  | kid, (entry, next) :: rest =>
      if iLeftOfInt entry.irange valid then pruneBefore valid next rest
      else (kid, (entry, next) :: rest)

/-- Drop the entries right of the valid interval with their right children. -/
def pruneAfter (valid : Interval) :
    List (FtEnt × Kid C) → List (FtEnt × Kid C)
  | [] => []
  | (entry, next) :: rest =>
      if iRightOfInt entry.irange valid then pruneAfter valid rest
      else (entry, next) :: rest

/-- Keep the entries inside the valid interval, trim the one at its right edge
and drop the others. -/
def pruneRight (clear : Kid C → Kid C) (valid : Interval) :
    List (FtEnt × Kid C) → List (FtEnt × Kid C)
  | [] => []
  | (entry, next) :: rest =>
      if iContainsInt valid entry.irange then
        (entry, next) :: pruneRight clear valid rest
      else if iRightOverlaps valid entry.irange then
        (entry.trim valid, clear next) :: pruneAfter valid rest
      else pruneAfter valid ((entry, next) :: rest)

/-- Trim the entry at the left edge of the valid interval, then go on to the
right. -/
def pruneLeft (clear : Kid C → Kid C) (valid : Interval) :
    Kid C → List (FtEnt × Kid C) → Kid C × List (FtEnt × Kid C)
  | kid, [] => (kid, [])
  | kid, (entry, next) :: rest =>
      if iLeftOverlaps valid entry.irange then
        (clear kid, (entry.trim valid, next) :: pruneRight clear valid rest)
      else (kid, pruneRight clear valid ((entry, next) :: rest))

/-- `ftn_pruneTo`. -/
def Node.prune
    {h : Nat}
    (node : Node (Tree h))
    (valid : Interval) : Node (Tree h) :=
  if valid.nonempty then
    let inside := pruneBefore valid node.first node.rest
    let kept := pruneLeft clearKid valid inside.1 inside.2
    { dirty := node.dirty || kept.2.length < node.rest.length
      first := kept.1
      rest := kept.2 }
  else node.clear

/-! ## Contexts -/

/-- Move a gap back over the entries on its left; these are listed from the gap
outwards, each with the child on its far side. -/
def zipUp :
    List (FtEnt × Kid C) → Kid C → List (FtEnt × Kid C) →
      Kid C × List (FtEnt × Kid C)
  | [], kid, right => (kid, right)
  | (entry, before) :: left, kid, right =>
      zipUp left before ((entry, kid) :: right)

/-- A node with one of its children singled out. -/
structure Frame (C : Type) where
  dirty : Bool
  /-- Entries left of the gap, nearest first, with the children beyond. -/
  left : List (FtEnt × Kid C)
  /-- The child in the gap. -/
  hole : Kid C
  /-- Entries right of the gap, nearest first, with the children beyond. -/
  right : List (FtEnt × Kid C)

namespace Frame

/-- Number of entries of the node. -/
def size (frame : Frame C) : Nat := frame.left.length + frame.right.length

/-- The node, with the child in the gap replaced. -/
def fill (frame : Frame C) (child : C) : Node C :=
  let node := zipUp frame.left (frame.hole.put child) frame.right
  ⟨frame.dirty, node.1, node.2⟩

end Frame

/-- A path from a hole of height `h` up to a tree of height `top`. -/
inductive Ctx : Nat → Nat → Type
  | nil : Ctx h h
  | cons (frame : Frame (Tree h)) (outer : Ctx (h + 1) top) : Ctx h top

namespace Ctx

/-- The tree around a hole. -/
def plug : Ctx h top → Tree h → Tree top
  | .nil, tree => tree
  | .cons frame outer, tree => outer.plug (frame.fill tree)

/-- One path on top of another. -/
def append : Ctx h middle → Ctx middle top → Ctx h top
  | .nil, above => above
  | .cons frame outer, above => .cons frame (outer.append above)

@[simp] theorem plug_append
    (ctx : Ctx h middle)
    (above : Ctx middle top)
    (tree : Tree h) :
    (ctx.append above).plug tree = above.plug (ctx.plug tree) := by
  induction ctx with
  | nil => rfl
  | cons frame outer inductionHypothesis =>
      exact inductionHypothesis above (frame.fill tree)

end Ctx

/-! ## Insertion up a path -/

/-- Which half of a split node holds the mark. -/
inductive Side
  | left
  | right
  deriving DecidableEq, Repr

/-- What a split hands to the level above: the half without the mark, the side
on which the marked half is, and the entry between the two. -/
structure Raised (h : Nat) where
  side : Side
  other : Tree h
  entry : FtEnt

namespace Frame

/-- Replace the hole by the marked half, the raised entry and the other
half. -/
def insert {h : Nat} (frame : Frame (Tree h)) (raised : Raised h) :
    Frame (Tree h) :=
  match raised.side with
  | .left =>
      { dirty := true
        left := frame.left
        hole := .loaded none (chain h)
        right := (raised.entry, .loaded none raised.other) :: frame.right }
  | .right =>
      { dirty := true
        left := (raised.entry, .loaded none raised.other) :: frame.left
        hole := .loaded none (chain h)
        right := frame.right }

/-- An entry and a child to stand for an element that a list does not have. -/
def filler (h : Nat) : FtEnt × Kid (Tree h) :=
  (⟨⟨0, 0, false⟩, 0⟩, .loaded none (chain h))

/-- Split a frame with one entry too many around its middle entry. -/
def split {h : Nat} (frame : Frame (Tree h)) :
    Frame (Tree h) × Raised (h + 1) :=
  if frame.left.length ≤ ftOrder then
    let keep := ftOrder - frame.left.length
    let middle := frame.right.getD keep (filler h)
    ({ frame with right := frame.right.take keep },
      { side := .left
        other := (⟨true, middle.2, frame.right.drop (keep + 1)⟩ :
          Node (Tree h))
        entry := middle.1 })
  else
    let keep := frame.left.length - (ftOrder + 1)
    let middle := frame.left.getD keep (filler h)
    let node := zipUp (frame.left.drop (keep + 1)) middle.2 []
    ({ frame with left := frame.left.take keep },
      { side := .right
        other := (⟨true, node.1, node.2⟩ : Node (Tree h))
        entry := middle.1 })

/-- A frame after an insertion: as it is, or split. -/
def settle {h : Nat} (frame : Frame (Tree h)) :
    Frame (Tree h) × Option (Raised (h + 1)) :=
  if frame.size = ftSplitlimit then
    (frame.split.1, some frame.split.2)
  else (frame, none)

end Frame

/-- Insert what was raised, if anything, splitting nodes as far up as needed.
The hole of the context that comes back is the marked one. -/
def Ctx.push : Ctx h top → Option (Raised h) → Ctx h top × Option (Raised top)
  | ctx, none => (ctx, none)
  | .nil, some raised => (.nil, some raised)
  | .cons frame outer, some raised =>
      let settled := (frame.insert raised).settle
      let above := outer.push settled.2
      (.cons settled.1 above.1, above.2)

/-- A whole FIG tree; `height` is the `HEIGHT` of its root. -/
structure Fig where
  height : Nat
  tree : Tree (height + 1)

/-- A path from a hole up to a root of any height. -/
structure RootCtx (h : Nat) where
  height : Nat
  ctx : Ctx h (height + 1)

/-- The tree around the hole. -/
def RootCtx.plug (root : RootCtx h) (tree : Tree h) : Fig :=
  ⟨root.height, root.ctx.plug tree⟩

/-- The node that becomes the root when the old root splits. -/
def rootFrame {h : Nat} (raised : Raised h) : Frame (Tree h) :=
  match raised.side with
  | .left =>
      ⟨true, [], .loaded none (chain h),
        [(raised.entry, .loaded none raised.other)]⟩
  | .right =>
      ⟨true, [(raised.entry, .loaded none raised.other)],
        .loaded none (chain h), []⟩

/-- Push up to the root, and put a new root on top when the old one split. -/
def pushRoot (root : RootCtx h) (raised : Option (Raised h)) : RootCtx h :=
  let pushed := root.ctx.push raised
  match pushed.2 with
  | none => ⟨root.height, pushed.1⟩
  | some raised =>
      ⟨root.height + 1, pushed.1.append (.cons (rootFrame raised) .nil)⟩

/-- What a null pointer is replaced by when an entry is inserted there. -/
def leafRaised (entry : FtEnt) : Raised 0 := ⟨.left, (), entry⟩

/-! ## Descent -/

/-- How the scan over the entries of a node ends: in a gap, or at an entry that
overlaps the range. -/
inductive Place (C : Type)
  | gap
      (left : List (FtEnt × Kid C))
      (kid : Kid C)
      (right : List (FtEnt × Kid C))
  | hit
      (left : List (FtEnt × Kid C))
      (kid : Kid C)
      (entry : FtEnt)
      (next : Kid C)
      (rest : List (FtEnt × Kid C))

/-- Scan the entries of a node; those passed over are collected on the left. -/
def place (range : Interval) :
    List (FtEnt × Kid C) → Kid C → List (FtEnt × Kid C) → Place C
  | left, kid, [] => .gap left kid []
  | left, kid, (entry, next) :: rest =>
      if iOverlaps entry.irange range then .hit left kid entry next rest
      else if iRightOfInt entry.irange range then
        .gap left kid ((entry, next) :: rest)
      else place range ((entry, kid) :: left) next rest

/-- Go on over the entries that the range covers from their first byte on. -/
def absorb (range : Interval) :
    FtEnt → Kid C → List (FtEnt × Kid C) →
      FtEnt × Kid C × List (FtEnt × Kid C)
  | last, kid, [] => (last, kid, [])
  | last, kid, (entry, next) :: rest =>
      if iLeftOverlaps entry.irange range then absorb range entry next rest
      else (last, kid, (entry, next) :: rest)

/-- First byte of a gap. -/
def gapLow : List (FtEnt × Kid C) → Nat
  | [] => byteIndexMin
  | (entry, _) :: _ => succ32 entry.irange.right

/-- Last byte of a gap. -/
def gapHigh : List (FtEnt × Kid C) → Nat
  | [] => byteIndexMax
  | (entry, _) :: _ => pred32 entry.irange.left

/-- The valid interval of the child in a gap. -/
def gapValid
    (valid : Interval)
    (left right : List (FtEnt × Kid C)) : Interval :=
  restrictTo valid (gapLow left) (gapHigh right)

/-- A node some of whose entries overlap the range: `first` to `last`. -/
structure Hit (h : Nat) where
  dirty : Bool
  left : List (FtEnt × Kid (Tree h))
  kid : Kid (Tree h)
  first : FtEnt
  last : FtEnt
  next : Kid (Tree h)
  right : List (FtEnt × Kid (Tree h))
  /-- The entries right of `first`, before any of them is replaced. -/
  rest : List (FtEnt × Kid (Tree h))
  valid : Interval

/-- Where a descent ends. -/
inductive Stop (top : Nat)
  | null (ctx : Ctx 0 top)
  | hit (h : Nat) (ctx : Ctx (h + 1) top) (hit : Hit h)

/-- Walk down to the gap of a leaf or to an overlapping entry, pruning on the
way. -/
def descend (range : Interval) :
    (h : Nat) → Ctx h top → Tree h → Interval → Stop top
  | 0, ctx, _, _ => .null ctx
  | h + 1, ctx, tree, valid =>
      let node := Node.prune (h := h) tree valid
      match place range [] node.first node.rest with
      | .hit left kid entry next rest =>
          let absorbed := absorb range entry next rest
          .hit h ctx
            { dirty := node.dirty
              left := left
              kid := kid
              first := entry
              last := absorbed.1
              next := absorbed.2.1
              right := absorbed.2.2
              rest := (entry, next) :: rest
              valid := valid }
      | .gap left kid right =>
          descend range h
            (.cons ⟨node.dirty, left, kid.visit, right⟩ ctx)
            kid.get (gapValid valid left right)

namespace Hit

variable {h : Nat} (range : Interval) (value : Int) (hit : Hit h)

/-- Whether a piece of the first overlapped entry sticks out on the left. -/
def hasLeft : Bool := hit.first.irange.left < range.left

/-- Whether a piece of the last overlapped entry sticks out on the right. -/
def hasRight : Bool := hit.last.irange.right > range.right

/-- The piece on the left, as an entry to insert. -/
def leftEntry : FtEnt :=
  ⟨iInit hit.first.irange.left (pred32 range.left), hit.first.value⟩

/-- The piece on the right, as an entry to insert. -/
def rightEntry : FtEnt :=
  ⟨iInit (succ32 range.right) hit.last.irange.right, hit.last.value⟩

/-- The valid interval of the left continuation. -/
def leftValid : Interval := gapValid hit.valid hit.left hit.rest

/-- The valid interval of the right continuation. -/
def rightValid : Interval :=
  restrictTo hit.valid (succ32 hit.last.irange.right) (gapHigh hit.right)

/-- The child in the gap left of the new entry. -/
def leftKid : Kid (Tree h) :=
  if hit.hasLeft range then hit.kid.visit else hit.kid

/-- The children and entries right of the gap on the left of the new entry,
after the right continuation, or nothing if that fails an assertion. -/
def rightPart : Option (List (FtEnt × Kid (Tree h))) :=
  let entry : FtEnt := ⟨range, value⟩
  if hit.hasRight range then
    match descend (hit.rightEntry range).irange h .nil hit.next.get
        hit.rightValid with
    | .hit _ _ _ => none
    | .null inner =>
        let pushed := inner.push (some (leafRaised (hit.rightEntry range)))
        let child := pushed.1.plug ()
        match pushed.2 with
        | none => some ((entry, hit.next.visit.put child) :: hit.right)
        | some ⟨.left, other, middle⟩ =>
            some ((entry, .loaded none child) ::
              (middle, .loaded none other) :: hit.right)
        | some ⟨.right, other, middle⟩ =>
            some ((entry, .loaded none other) ::
              (middle, .loaded none child) :: hit.right)
  else some ((entry, hit.next) :: hit.right)

/-- The node with the new entry and the gap on the left of it singled out. -/
def frame (right : List (FtEnt × Kid (Tree h))) : Frame (Tree h) :=
  ⟨true, hit.left, hit.leftKid range, right⟩

end Hit

/-- `ft_write`, or nothing if it fails an assertion of the continuations. -/
def Fig.write
    (fig : Fig)
    (range : Interval)
    (value : Int) : Option Fig :=
  match descend range (fig.height + 1) .nil fig.tree
      (iInit byteIndexMin byteIndexMax) with
  | .null ctx =>
      some ((pushRoot ⟨fig.height, ctx⟩
        (some (leafRaised ⟨range, value⟩))).plug ())
  | .hit h ctx hit =>
      match hit.rightPart range value with
      | none => none
      | some right =>
          let settled := (hit.frame range right).settle
          let outer := pushRoot ⟨fig.height, ctx⟩ settled.2
          let node : RootCtx h := ⟨outer.height, .cons settled.1 outer.ctx⟩
          if hit.hasLeft range then
            match descend (hit.leftEntry range).irange h node.ctx
                hit.kid.get hit.leftValid with
            | .hit _ _ _ => none
            | .null inner =>
                some ((pushRoot ⟨node.height, inner⟩
                  (some (leafRaised (hit.leftEntry range)))).plug ())
          else
            some (node.plug hit.kid.get)

/-! ## Lookup -/

/-- The scan of `ft_lookup` over a node, given the lookup in the children. -/
def lookIn (look : C → Option Int) (x : Nat) :
    Kid C → List (FtEnt × Kid C) → Option Int
  | kid, [] => look kid.get
  | kid, (entry, next) :: rest =>
      if iContainsVal entry.irange x then some entry.value
      else if entry.irange.left > x then look kid.get
      else lookIn look x next rest

/-- `ft_lookup`. -/
def look : (h : Nat) → Tree h → Nat → Option Int
  | 0, _, _ => none
  | h + 1, tree, x =>
      lookIn (fun child => look h child x) x
        (Node.first (C := Tree h) tree) (Node.rest (C := Tree h) tree)

/-- `ft_lookup` in a whole tree. -/
def Fig.look (fig : Fig) (x : Nat) : Option Int :=
  FigTree.look (fig.height + 1) fig.tree x

end FigTree
end Gdpfs
