import Gdpfs.FigTree.Abstract.Order

/-!
# What a split costs

Pruning leaves nodes with few entries or none, so that the height of a FIG tree
says nothing about the entries it has now.  It says something about the entries
that were inserted: every node is charged for its entries past `FT_ORDER`, more
on higher levels, so that a split is paid for by the entries that led to it.
An insertion into a leaf adds one to the charge of the tree, and nothing else
adds to it.
-/

namespace Gdpfs
namespace FigTree

/-- The charge of a node of height `h` with `n` entries. -/
def nodeCharge (h n : Nat) : Nat := (ftOrder + 1) ^ h * (n - ftOrder)

/-- The charge of the children beside some entries. -/
def sideCharge (charge : C → Nat) : List (FtEnt × Kid C) → Nat
  | [] => 0
  | (_, kid) :: rest => charge kid.get + sideCharge charge rest

/-- The charge of a tree. -/
def charge : (h : Nat) → Tree h → Nat
  | 0, _ => 0
  | h + 1, tree =>
      nodeCharge h (Node.rest (C := Tree h) tree).length +
        charge h (Node.first (C := Tree h) tree).get +
        sideCharge (charge h) (Node.rest (C := Tree h) tree)

/-- What the levels above the leaves cost. -/
def heightCharge : (height : Nat) → Nat
  | 0 => 0
  | height + 1 => heightCharge height + (ftOrder + 1) ^ (height + 1)

@[simp] theorem Kid.get_loaded (saved : Option (Nat × Nat)) (child : C) :
    (Kid.loaded saved child).get = child := rfl

/-- The charge of a whole tree. -/
def Fig.charge (fig : Fig) : Nat :=
  FigTree.charge (fig.height + 1) fig.tree + heightCharge fig.height

theorem nodeCharge_mono
    {fewer more : Nat}
    (le : fewer ≤ more) :
    nodeCharge h fewer ≤ nodeCharge h more :=
  Nat.mul_le_mul_left _ (Nat.sub_le_sub_right le _)

theorem nodeCharge_succ (h n : Nat) :
    nodeCharge h (n + 1) ≤ nodeCharge h n + (ftOrder + 1) ^ h := by
  rw [nodeCharge, nodeCharge, ← Nat.mul_succ]
  refine Nat.mul_le_mul_left _ ?_
  omega

/-- The charge of a node that splits pays for the entry that goes up. -/
theorem nodeCharge_splitlimit (h : Nat) :
    nodeCharge h ftSplitlimit = (ftOrder + 1) ^ (h + 1) := by
  rw [nodeCharge, Nat.pow_succ]
  rfl

theorem nodeCharge_of_le
    {n : Nat}
    (le : n ≤ ftOrder) :
    nodeCharge h n = 0 := by
  rw [nodeCharge, Nat.sub_eq_zero_of_le le, Nat.mul_zero]

section Sides

variable {C : Type} {charge : C → Nat}

theorem sideCharge_append (left right : List (FtEnt × Kid C)) :
    sideCharge charge (left ++ right) =
      sideCharge charge left + sideCharge charge right := by
  induction left with
  | nil => simp [sideCharge]
  | cons head rest inductionHypothesis =>
      simp [sideCharge, inductionHypothesis, Nat.add_assoc]

theorem sideCharge_zipUp
    (left : List (FtEnt × Kid C))
    (kid : Kid C)
    (right : List (FtEnt × Kid C)) :
    charge (zipUp left kid right).1.get +
        sideCharge charge (zipUp left kid right).2 =
      sideCharge charge left + charge kid.get + sideCharge charge right := by
  induction left generalizing kid right with
  | nil => simp [zipUp, sideCharge]
  | cons head rest inductionHypothesis =>
      rw [zipUp, inductionHypothesis, sideCharge, sideCharge]
      omega

/-- A side without one of its entries and the child beside it. -/
theorem sideCharge_take_drop
    (side : List (FtEnt × Kid C))
    (default : FtEnt × Kid C)
    {keep : Nat}
    (inside : keep < side.length) :
    sideCharge charge (side.take keep) +
        charge (side.getD keep default).2.get +
        sideCharge charge (side.drop (keep + 1)) =
      sideCharge charge side := by
  have whole : side = side.take keep ++ side[keep] :: side.drop (keep + 1) := by
    rw [← List.drop_eq_getElem_cons inside, List.take_append_drop]
  have split := congrArg (sideCharge charge) whole
  rw [sideCharge_append, sideCharge] at split
  rw [List.getD_eq_getElem?_getD, List.getElem?_eq_getElem inside,
    Option.getD_some]
  omega

end Sides

/-! ## Pruning -/

@[simp] theorem charge_chain : (h : Nat) → charge h (chain h) = 0
  | 0 => rfl
  | h + 1 => by
      change nodeCharge h 0 + charge h (chain h) + 0 = 0
      rw [nodeCharge_of_le (Nat.zero_le _), charge_chain h]

@[simp] theorem charge_clear {h : Nat} (node : Node (Tree h)) :
    charge (h + 1) node.clear = 0 := by
  change nodeCharge h 0 + charge h (chain h) + 0 = 0
  rw [nodeCharge_of_le (Nat.zero_le _), charge_chain]

theorem charge_clearKid {h : Nat} (kid : Kid (Tree h)) :
    charge h (clearKid kid).get ≤ charge h kid.get := by
  cases h with
  | zero => exact le_rfl
  | succ h =>
      cases kid with
      | loaded saved child =>
          exact (charge_clear (h := h) child).trans_le (Nat.zero_le _)
      | unloaded saved seen stored =>
          exact (charge_chain (h + 1)).trans_le (Nat.zero_le _)

section Prune

variable {C : Type} {charge : C → Nat} {clear : Kid C → Kid C}
  {valid : Interval}

theorem pruneBefore_le (kid : Kid C) (rest : List (FtEnt × Kid C)) :
    charge (pruneBefore valid kid rest).1.get +
        sideCharge charge (pruneBefore valid kid rest).2 ≤
      charge kid.get + sideCharge charge rest ∧
      (pruneBefore valid kid rest).2.length ≤ rest.length := by
  induction rest generalizing kid with
  | nil => simp [pruneBefore]
  | cons head rest inductionHypothesis =>
      obtain ⟨entry, next⟩ := head
      rw [pruneBefore]
      split
      · obtain ⟨lower, shorter⟩ := inductionHypothesis next
        rw [sideCharge, List.length_cons]
        omega
      · exact ⟨le_rfl, le_rfl⟩

theorem pruneAfter_le (rest : List (FtEnt × Kid C)) :
    sideCharge charge (pruneAfter valid rest) ≤ sideCharge charge rest ∧
      (pruneAfter valid rest).length ≤ rest.length := by
  induction rest with
  | nil => simp [pruneAfter]
  | cons head rest inductionHypothesis =>
      obtain ⟨entry, next⟩ := head
      rw [pruneAfter]
      split
      · obtain ⟨lower, shorter⟩ := inductionHypothesis
        rw [sideCharge, List.length_cons]
        omega
      · exact ⟨le_rfl, le_rfl⟩

theorem pruneRight_le
    (cleared : ∀ kid, charge (clear kid).get ≤ charge kid.get)
    (rest : List (FtEnt × Kid C)) :
    sideCharge charge (pruneRight clear valid rest) ≤
        sideCharge charge rest ∧
      (pruneRight clear valid rest).length ≤ rest.length := by
  induction rest with
  | nil => simp [pruneRight]
  | cons head rest inductionHypothesis =>
      obtain ⟨entry, next⟩ := head
      have after := @pruneAfter_le _ charge valid rest
      have nextCleared := cleared next
      rw [pruneRight]
      split
      · simp only [sideCharge, List.length_cons]
        omega
      · split
        · simp only [sideCharge, List.length_cons]
          omega
        · exact pruneAfter_le _

theorem pruneLeft_le
    (cleared : ∀ kid, charge (clear kid).get ≤ charge kid.get)
    (kid : Kid C)
    (rest : List (FtEnt × Kid C)) :
    charge (pruneLeft clear valid kid rest).1.get +
        sideCharge charge (pruneLeft clear valid kid rest).2 ≤
      charge kid.get + sideCharge charge rest ∧
      (pruneLeft clear valid kid rest).2.length ≤ rest.length := by
  cases rest with
  | nil => simp [pruneLeft]
  | cons head rest =>
      obtain ⟨entry, next⟩ := head
      have kidCleared := cleared kid
      have right := (@pruneRight_le _ charge clear valid) cleared rest
      rw [pruneLeft]
      split
      · simp only [sideCharge, List.length_cons]
        omega
      · have whole := (@pruneRight_le _ charge clear valid) cleared
          ((entry, next) :: rest)
        exact ⟨Nat.add_le_add_left whole.1 _, whole.2⟩

end Prune

/-- Pruning does not add to the charge. -/
theorem charge_prune
    {h : Nat}
    (node : Node (Tree h))
    (valid : Interval) :
    charge (h + 1) (node.prune valid) ≤ charge (h + 1) node := by
  rw [Node.prune]
  split
  · have before := @pruneBefore_le _ (charge h) valid node.first node.rest
    have kept := (@pruneLeft_le _ (charge h) clearKid valid) charge_clearKid
      (pruneBefore valid node.first node.rest).1
      (pruneBefore valid node.first node.rest).2
    have fewer := @nodeCharge_mono h _ _ (kept.2.trans before.2)
    simp only [charge]
    omega
  · exact (charge_clear node).trans_le (Nat.zero_le _)

/-! ## Contexts -/

/-- The charge of the child in a hole, at most: an unloaded child may come back
from the log. -/
def Kid.holeCharge (charge : C → Nat) : Kid C → Nat → Nat
  | .loaded _ _, inner => inner
  | .unloaded _ _ stored, inner => max inner (charge stored)

/-- The charge of a node with a hole, at most, if the charge in the hole is
`inner`. -/
def Frame.charge {h : Nat} (frame : Frame (Tree h)) (inner : Nat) : Nat :=
  nodeCharge h frame.size + sideCharge (FigTree.charge h) frame.left +
    sideCharge (FigTree.charge h) frame.right +
    frame.hole.holeCharge (FigTree.charge h) inner

/-- The charge of a tree with a hole, at most, if the charge in the hole is
`inner`. -/
def Ctx.charge : Ctx h top → Nat → Nat
  | .nil, inner => inner
  | .cons frame outer, inner => outer.charge (frame.charge inner)

/-- What an insertion one level up adds to the charge. -/
def Raised.charge {h : Nat} (raised : Raised h) : Nat :=
  FigTree.charge h raised.other + (ftOrder + 1) ^ h

/-- What an insertion one level up adds to the charge, if there is one. -/
def raisedCharge {h : Nat} : Option (Raised h) → Nat
  | none => 0
  | some raised => raised.charge

section Frames

variable {h : Nat} {frame : Frame (Tree h)}

theorem Kid.holeCharge_mono
    {C : Type}
    {charge : C → Nat}
    (kid : Kid C)
    {less more : Nat}
    (le : less ≤ more) :
    kid.holeCharge charge less ≤ kid.holeCharge charge more := by
  cases kid with
  | loaded saved child => exact le
  | unloaded saved seen stored => exact max_le_max_right _ le

theorem Kid.holeCharge_add
    {C : Type}
    {charge : C → Nat}
    (kid : Kid C)
    (inner extra : Nat) :
    kid.holeCharge charge (inner + extra) ≤
      kid.holeCharge charge inner + extra := by
  cases kid with
  | loaded saved child => exact le_rfl
  | unloaded saved seen stored =>
      change max (inner + extra) (charge stored) ≤
        max inner (charge stored) + extra
      omega

theorem Kid.le_holeCharge
    {C : Type}
    {charge : C → Nat}
    (kid : Kid C)
    (inner : Nat) :
    inner ≤ kid.holeCharge charge inner := by
  cases kid with
  | loaded saved child => exact le_rfl
  | unloaded saved seen stored => exact le_max_left _ _

@[simp] theorem Kid.holeCharge_get
    {C : Type}
    {charge : C → Nat}
    (kid : Kid C) :
    kid.holeCharge charge (charge kid.get) = charge kid.get := by
  cases kid with
  | loaded saved child => rfl
  | unloaded saved seen stored => exact max_self _

@[simp] theorem Kid.holeCharge_visit
    {C : Type}
    {charge : C → Nat}
    (kid : Kid C)
    (inner : Nat) :
    kid.visit.holeCharge charge inner = kid.holeCharge charge inner := by
  cases kid <;> rfl

theorem Kid.charge_put_le
    {C : Type}
    {charge : C → Nat}
    (kid : Kid C)
    (child : C) :
    charge (kid.put child).get ≤ kid.holeCharge charge (charge child) := by
  cases kid with
  | loaded saved old => exact le_rfl
  | unloaded saved seen stored => exact le_max_right _ _

theorem Kid.charge_put_visit_le
    {C : Type}
    {charge : C → Nat}
    (kid : Kid C)
    {child : C}
    {extra : Nat}
    (le : charge child ≤ charge kid.get + extra) :
    charge (kid.visit.put child).get ≤ charge kid.get + extra := by
  cases kid with
  | loaded saved old => exact le
  | unloaded saved seen stored => exact Nat.le_add_right _ _

theorem Frame.charge_mono
    {less more : Nat}
    (le : less ≤ more) :
    frame.charge less ≤ frame.charge more :=
  Nat.add_le_add_left (frame.hole.holeCharge_mono le) _

theorem Frame.charge_add (inner extra : Nat) :
    frame.charge (inner + extra) ≤ frame.charge inner + extra := by
  have hole := @Kid.holeCharge_add _ (FigTree.charge h) frame.hole inner extra
  simp only [Frame.charge]
  omega

theorem Frame.charge_fill (child : Tree h) :
    FigTree.charge (h + 1) (frame.fill child) ≤
      frame.charge (FigTree.charge h child) := by
  have kids := @sideCharge_zipUp _ (FigTree.charge h) frame.left
    (frame.hole.put child) frame.right
  have put := @Kid.charge_put_le _ (FigTree.charge h) frame.hole child
  have size : (zipUp frame.left (frame.hole.put child)
      frame.right).2.length = frame.size := length_zipUp _ _ _
  simp only [FigTree.charge, Frame.fill, Frame.charge, size]
  omega

/-- An insertion into a node is paid for by what was raised. -/
theorem Frame.charge_insert (raised : Raised h) (inner : Nat) :
    (frame.insert raised).charge inner ≤
      frame.charge (inner + raised.charge) := by
  have hole := @Kid.le_holeCharge _ (FigTree.charge h) frame.hole
    (inner + raised.charge)
  have more := nodeCharge_succ h frame.size
  have size : (frame.insert raised).size = frame.size + 1 := by
    rw [Frame.insert]
    cases raised.side with
    | left => exact (Nat.add_assoc _ _ _).symm
    | right => exact Nat.add_right_comm _ _ _
  have kids : sideCharge (FigTree.charge h) (frame.insert raised).left +
        sideCharge (FigTree.charge h) (frame.insert raised).right =
      sideCharge (FigTree.charge h) frame.left +
        sideCharge (FigTree.charge h) frame.right +
        FigTree.charge h raised.other := by
    rw [Frame.insert]
    cases raised.side with
    | left =>
        simp only [sideCharge, Kid.get_loaded]
        omega
    | right =>
        simp only [sideCharge, Kid.get_loaded]
        omega
  have loaded : (frame.insert raised).hole.holeCharge (FigTree.charge h)
      inner = inner := by
    rw [Frame.insert]
    cases raised.side <;> rfl
  rw [Raised.charge] at hole
  rw [Frame.charge, Frame.charge, size, loaded, Raised.charge]
  omega

/-- A split is paid for by the entries of the node. -/
theorem Frame.charge_split
    (full : frame.size = ftSplitlimit)
    (inner : Nat) :
    frame.split.1.charge inner + frame.split.2.charge ≤
      frame.charge inner := by
  have paid := nodeCharge_splitlimit h
  have limit : ftSplitlimit = 2 * ftOrder + 1 := rfl
  have total : frame.left.length + frame.right.length = 2 * ftOrder + 1 :=
    full
  rw [← full] at paid
  have whole : frame.charge inner =
      (ftOrder + 1) ^ (h + 1) + sideCharge (FigTree.charge h) frame.left +
        sideCharge (FigTree.charge h) frame.right +
        frame.hole.holeCharge (FigTree.charge h) inner := by
    rw [Frame.charge, paid]
  rw [whole, Frame.split]
  split
  · next short =>
      have kids := @sideCharge_take_drop _ (FigTree.charge h) frame.right
        (Frame.filler h) (ftOrder - frame.left.length) (by omega)
      have half : nodeCharge h (frame.left.length +
          (frame.right.take (ftOrder - frame.left.length)).length) = 0 := by
        apply nodeCharge_of_le
        rw [List.length_take]
        omega
      have other : nodeCharge h
          (frame.right.drop (ftOrder - frame.left.length + 1)).length = 0 := by
        apply nodeCharge_of_le
        rw [List.length_drop]
        omega
      simp only [Frame.charge, Frame.size, Raised.charge, FigTree.charge, half,
        other]
      omega
  · next long =>
      have kids := @sideCharge_take_drop _ (FigTree.charge h) frame.left
        (Frame.filler h) (frame.left.length - (ftOrder + 1)) (by omega)
      have half : nodeCharge h
          ((frame.left.take (frame.left.length - (ftOrder + 1))).length +
            frame.right.length) = 0 := by
        apply nodeCharge_of_le
        rw [List.length_take]
        omega
      have otherKids := @sideCharge_zipUp _ (FigTree.charge h)
        (frame.left.drop (frame.left.length - (ftOrder + 1) + 1))
        (frame.left.getD (frame.left.length - (ftOrder + 1))
          (Frame.filler h)).2 []
      have other : nodeCharge h (zipUp
          (frame.left.drop (frame.left.length - (ftOrder + 1) + 1))
          (frame.left.getD (frame.left.length - (ftOrder + 1))
            (Frame.filler h)).2 []).2.length = 0 := by
        apply nodeCharge_of_le
        rw [length_zipUp, List.length_drop, List.length_nil]
        omega
      rw [sideCharge] at otherKids
      simp only [Frame.charge, Frame.size, Raised.charge, FigTree.charge, half,
        other]
      omega

theorem Frame.charge_settle (inner : Nat) :
    frame.settle.1.charge inner + raisedCharge frame.settle.2 ≤
      frame.charge inner := by
  rw [Frame.settle]
  split
  · next full => exact frame.charge_split full inner
  · exact le_rfl

end Frames

section Contexts

variable {h middle top : Nat}

theorem Ctx.charge_mono
    (ctx : Ctx h top)
    {less more : Nat}
    (le : less ≤ more) :
    ctx.charge less ≤ ctx.charge more := by
  induction ctx generalizing less more with
  | nil => exact le
  | cons frame outer inductionHypothesis =>
      exact inductionHypothesis (frame.charge_mono le)

theorem Ctx.charge_add (ctx : Ctx h top) (inner extra : Nat) :
    ctx.charge (inner + extra) ≤ ctx.charge inner + extra := by
  induction ctx generalizing inner with
  | nil => exact le_rfl
  | cons frame outer inductionHypothesis =>
      refine (outer.charge_mono (frame.charge_add inner extra)).trans ?_
      exact inductionHypothesis _

theorem Ctx.charge_append
    (ctx : Ctx h middle)
    (above : Ctx middle top)
    (inner : Nat) :
    (ctx.append above).charge inner = above.charge (ctx.charge inner) := by
  induction ctx generalizing inner with
  | nil => rfl
  | cons frame outer inductionHypothesis => exact inductionHypothesis above _

theorem Ctx.charge_plug (ctx : Ctx h top) (tree : Tree h) :
    FigTree.charge top (ctx.plug tree) ≤ ctx.charge (FigTree.charge h tree) := by
  induction ctx with
  | nil => exact le_rfl
  | cons frame outer inductionHypothesis =>
      refine (inductionHypothesis (frame.fill tree)).trans ?_
      exact outer.charge_mono (frame.charge_fill tree)

/-- Splits on the way up are paid for. -/
theorem Ctx.charge_push
    (ctx : Ctx h top)
    (raised : Option (Raised h))
    (inner : Nat) :
    (ctx.push raised).1.charge inner + raisedCharge (ctx.push raised).2 ≤
      ctx.charge (inner + raisedCharge raised) := by
  induction ctx generalizing inner with
  | nil => cases raised <;> exact le_rfl
  | cons frame outer inductionHypothesis =>
      cases raised with
      | none => exact le_rfl
      | some raised =>
          have settled := (frame.insert raised).charge_settle inner
          have above := inductionHypothesis (frame.insert raised).settle.2
            ((frame.insert raised).settle.1.charge inner)
          rw [Ctx.push]
          refine above.trans (outer.charge_mono ?_)
          exact settled.trans (frame.charge_insert raised inner)

/-- The charge of a tree with a hole below its root, at most. -/
def RootCtx.charge (root : RootCtx h) (inner : Nat) : Nat :=
  root.ctx.charge inner + heightCharge root.height

theorem RootCtx.charge_plug (root : RootCtx h) (tree : Tree h) :
    (root.plug tree).charge ≤ root.charge (FigTree.charge h tree) :=
  Nat.add_le_add_right (root.ctx.charge_plug tree) _

/-- A new root is paid for by the split of the old one. -/
theorem charge_pushRoot
    (root : RootCtx h)
    (raised : Option (Raised h))
    (inner : Nat) :
    (pushRoot root raised).charge inner ≤
      root.charge (inner + raisedCharge raised) := by
  have pushed := root.ctx.charge_push raised inner
  rw [pushRoot]
  cases top : (root.ctx.push raised).2 with
  | none =>
      rw [top] at pushed
      exact Nat.add_le_add_right pushed _
  | some overflow =>
      rw [top] at pushed
      have newRoot : (rootFrame overflow).charge
            ((root.ctx.push raised).1.charge inner) =
          (root.ctx.push raised).1.charge inner +
            FigTree.charge _ overflow.other := by
        have alone := @nodeCharge_of_le (root.height + 1) 1 (by decide)
        rw [Frame.charge, rootFrame]
        cases overflow.side with
        | left =>
            simp only [Frame.size, List.length_cons, List.length_nil, alone,
              sideCharge, Kid.get_loaded, Kid.holeCharge]
            omega
        | right =>
            simp only [Frame.size, List.length_cons, List.length_nil, alone,
              sideCharge, Kid.get_loaded, Kid.holeCharge]
            omega
      simp only [RootCtx.charge, Ctx.charge_append, Ctx.charge, newRoot,
        heightCharge]
      rw [raisedCharge, Raised.charge] at pushed
      omega

end Contexts

/-! ## Descent -/

/-- The charge of the children around a place. -/
def Place.charge (charge : C → Nat) : Place C → Nat
  | .gap left kid right =>
      sideCharge charge left + charge kid.get + sideCharge charge right
  | .hit left kid _ next rest =>
      sideCharge charge left + charge kid.get + charge next.get +
        sideCharge charge rest

/-- The number of entries around a place. -/
def Place.size : Place C → Nat
  | .gap left _ right => left.length + right.length
  | .hit left _ _ _ rest => left.length + 1 + rest.length

/-- The charge of a node after a write, before anything sticks out. -/
def Hit.charge {h : Nat} (hit : Hit h) : Nat :=
  nodeCharge h (hit.left.length + 1 + hit.right.length) +
    sideCharge (FigTree.charge h) hit.left + FigTree.charge h hit.kid.get +
    FigTree.charge h hit.next.get + sideCharge (FigTree.charge h) hit.right

/-- The charge of a tree where a descent ends, at most. -/
def Stop.charge : Stop top → Nat
  | .null ctx => ctx.charge 0
  | .hit _ ctx struck => ctx.charge struck.charge

section Descent

variable {h top : Nat} {range valid : Interval}

theorem place_charge
    {C : Type}
    {charge : C → Nat}
    (left : List (FtEnt × Kid C))
    (kid : Kid C)
    (rest : List (FtEnt × Kid C)) :
    (place range left kid rest).charge charge =
        sideCharge charge left + charge kid.get + sideCharge charge rest ∧
      (place range left kid rest).size = left.length + rest.length := by
  induction rest generalizing left kid with
  | nil => exact ⟨rfl, rfl⟩
  | cons head rest inductionHypothesis =>
      obtain ⟨entry, next⟩ := head
      rw [place]
      split
      · simp only [Place.charge, Place.size, sideCharge, List.length_cons]
        omega
      · split
        · exact ⟨rfl, rfl⟩
        · obtain ⟨charged, sized⟩ :=
            inductionHypothesis ((entry, kid) :: left) next
          rw [charged, sized]
          simp only [sideCharge, List.length_cons]
          omega

theorem absorb_charge
    {C : Type}
    {charge : C → Nat}
    (last : FtEnt)
    (kid : Kid C)
    (rest : List (FtEnt × Kid C)) :
    charge (absorb range last kid rest).2.1.get +
        sideCharge charge (absorb range last kid rest).2.2 ≤
      charge kid.get + sideCharge charge rest ∧
      (absorb range last kid rest).2.2.length ≤ rest.length := by
  induction rest generalizing last kid with
  | nil => exact ⟨le_rfl, le_rfl⟩
  | cons head rest inductionHypothesis =>
      obtain ⟨entry, next⟩ := head
      rw [absorb]
      split
      · obtain ⟨lower, shorter⟩ := inductionHypothesis entry next
        rw [sideCharge, List.length_cons]
        omega
      · exact ⟨le_rfl, le_rfl⟩

/-- A descent does not add to the charge. -/
theorem descend_charge
    (ctx : Ctx h top)
    (tree : Tree h)
    (valid : Interval) :
    (descend range h ctx tree valid).charge ≤
      ctx.charge (FigTree.charge h tree) := by
  induction h generalizing valid with
  | zero => exact le_rfl
  | succ h inductionHypothesis =>
      have pruned := charge_prune (h := h) tree valid
      have placed := @place_charge range _ (FigTree.charge h) []
        (Node.prune (h := h) tree valid).first
        (Node.prune (h := h) tree valid).rest
      rw [descend]
      cases scan : place range [] (Node.prune (h := h) tree valid).first
          (Node.prune (h := h) tree valid).rest with
      | gap left kid right =>
          rw [scan] at placed
          refine (inductionHypothesis _ kid.get _).trans ?_
          refine ctx.charge_mono (le_trans ?_ pruned)
          simp only [Place.charge, Place.size, sideCharge, List.length_nil,
            Nat.zero_add] at placed
          simp only [Frame.charge, Frame.size, Kid.holeCharge_visit,
            Kid.holeCharge_get, FigTree.charge, ← placed.2]
          omega
      | hit left kid entry next rest =>
          rw [scan] at placed
          have absorbed := @absorb_charge range _ (FigTree.charge h) entry next
            rest
          refine ctx.charge_mono (le_trans ?_ pruned)
          simp only [Place.charge, Place.size, sideCharge, List.length_nil,
            Nat.zero_add] at placed
          have fewer : nodeCharge h (left.length + 1 +
                (absorb range entry next rest).2.2.length) ≤
              nodeCharge h (left.length + 1 + rest.length) :=
            nodeCharge_mono (Nat.add_le_add_left absorbed.2 _)
          simp only [Hit.charge, FigTree.charge, ← placed.2]
          omega

end Descent

/-! ## Writes -/

@[simp] theorem raisedCharge_leafRaised (entry : FtEnt) :
    raisedCharge (some (leafRaised entry)) = 1 := rfl

section Write

variable {h : Nat} {hit : Hit h} {range : Interval} {value : Int}

/-- An insertion into a leaf adds one. -/
theorem Ctx.charge_push_leaf (inner : Ctx 0 h) (entry : FtEnt) :
    FigTree.charge h ((inner.push (some (leafRaised entry))).1.plug ()) +
        raisedCharge (inner.push (some (leafRaised entry))).2 ≤
      inner.charge 0 + 1 := by
  have pushed := inner.charge_push (some (leafRaised entry)) 0
  have plugged := (inner.push (some (leafRaised entry))).1.charge_plug ()
  have one := inner.charge_add 0 1
  change _ ≤ Ctx.charge _ 0 at plugged
  rw [raisedCharge_leafRaised] at pushed
  omega

/-- A piece that sticks out on the right is one insertion. -/
theorem Hit.charge_rightPart
    {right : List (FtEnt × Kid (Tree h))}
    (part : hit.rightPart range value = some right) :
    (hit.frame range right).charge (FigTree.charge h hit.kid.get) ≤
      hit.charge + 1 := by
  have leftHole : (hit.leftKid range).holeCharge (FigTree.charge h)
      (FigTree.charge h hit.kid.get) = FigTree.charge h hit.kid.get := by
    rw [Hit.leftKid]
    split <;> simp
  rw [Hit.rightPart] at part
  dsimp only at part
  split at part
  · have below := @descend_charge h h (hit.rightEntry range).irange .nil
      hit.next.get hit.rightValid
    cases lands : descend (hit.rightEntry range).irange h .nil hit.next.get
        hit.rightValid with
    | hit deep inner struck =>
        rw [lands] at part
        cases part
    | null inner =>
        rw [lands] at part below
        have paid := inner.charge_push_leaf (hit.rightEntry range)
        have lower : inner.charge 0 ≤ FigTree.charge h hit.next.get := below
        have one := nodeCharge_succ h
          (hit.left.length + 1 + hit.right.length)
        have sizeOne : hit.left.length + (hit.right.length + 1) =
            hit.left.length + 1 + hit.right.length := by omega
        have sizeTwo : hit.left.length + (hit.right.length + 1 + 1) =
            hit.left.length + 1 + hit.right.length + 1 := by omega
        dsimp only at part
        cases overflow : (inner.push
            (some (leafRaised (hit.rightEntry range)))).2 with
        | none =>
            rw [overflow] at part paid
            cases part
            have child := (@Kid.charge_put_visit_le _ (FigTree.charge h)
              hit.next _ 1) ((Nat.le_of_add_right_le paid).trans
                (Nat.add_le_add_right lower 1))
            simp only [Frame.charge, Frame.size, Hit.frame, Hit.charge,
              sideCharge, leftHole, List.length_cons, sizeOne]
            omega
        | some raised =>
            rw [overflow] at part paid
            rw [raisedCharge, Raised.charge] at paid
            obtain ⟨side, other, middle⟩ := raised
            cases side with
            | left =>
                cases part
                simp only [Frame.charge, Frame.size, Hit.frame, Hit.charge,
                  sideCharge, leftHole, List.length_cons, Kid.get_loaded,
                  sizeTwo]
                dsimp only at paid
                omega
            | right =>
                cases part
                simp only [Frame.charge, Frame.size, Hit.frame, Hit.charge,
                  sideCharge, leftHole, List.length_cons, Kid.get_loaded,
                  sizeTwo]
                dsimp only at paid
                omega
  · cases part
    simp only [Frame.charge, Frame.size, Hit.frame, Hit.charge, sideCharge,
      leftHole, List.length_cons]
    have same : hit.left.length + (hit.right.length + 1) =
        hit.left.length + 1 + hit.right.length := by omega
    rw [same]
    omega

/-- The same in a whole tree. -/
theorem RootCtx.charge_insert_leaf (root : RootCtx 0) (entry : FtEnt) :
    ((pushRoot root (some (leafRaised entry))).plug ()).charge ≤
      root.charge 0 + 1 := by
  have pushed := charge_pushRoot root (some (leafRaised entry)) 0
  have plugged := (pushRoot root (some (leafRaised entry))).charge_plug ()
  have one := root.ctx.charge_add 0 1
  change _ ≤ RootCtx.charge _ 0 at plugged
  rw [raisedCharge_leafRaised] at pushed
  simp only [RootCtx.charge] at *
  omega

/-- The path to the gap on the left of the new entry, after a write replaced
entries and inserted the piece that sticks out on the right. -/
def Hit.path
    (hit : Hit h)
    (range : Interval)
    (fig : Fig)
    (ctx : Ctx (h + 1) (fig.height + 1))
    (right : List (FtEnt × Kid (Tree h))) : RootCtx h :=
  let settled := (hit.frame range right).settle
  let outer := pushRoot ⟨fig.height, ctx⟩ settled.2
  ⟨outer.height, .cons settled.1 outer.ctx⟩

theorem Hit.charge_path
    {fig : Fig}
    {ctx : Ctx (h + 1) (fig.height + 1)}
    {right : List (FtEnt × Kid (Tree h))}
    (charged : ctx.charge hit.charge ≤
      FigTree.charge (fig.height + 1) fig.tree)
    (part : hit.rightPart range value = some right) :
    (hit.path range fig ctx right).charge (FigTree.charge h hit.kid.get) ≤
      fig.charge + 1 := by
  have settled := (hit.frame range right).charge_settle
    (FigTree.charge h hit.kid.get)
  have parted := Hit.charge_rightPart part
  have pushed := charge_pushRoot ⟨fig.height, ctx⟩
    (hit.frame range right).settle.2
    ((hit.frame range right).settle.1.charge (FigTree.charge h hit.kid.get))
  have grown := ctx.charge_mono (settled.trans parted)
  have one := ctx.charge_add hit.charge 1
  simp only [RootCtx.charge] at pushed
  simp only [Hit.path, RootCtx.charge, Ctx.charge, Fig.charge]
  omega

/-- A write adds at most two to the charge: it inserts its range, or it replaces
entries by it and at most two pieces stick out. -/
theorem Fig.charge_write
    {fig next : Fig}
    (written : fig.write range value = some next) :
    next.charge ≤ fig.charge + 2 := by
  have descended := @descend_charge (fig.height + 1) (fig.height + 1) range
    .nil fig.tree (iInit byteIndexMin byteIndexMax)
  rw [Fig.write] at written
  cases stop : descend range (fig.height + 1) .nil fig.tree
      (iInit byteIndexMin byteIndexMax) with
  | null leaf =>
      rw [stop] at written descended
      cases written
      have inserted := RootCtx.charge_insert_leaf ⟨fig.height, leaf⟩
        ⟨range, value⟩
      change leaf.charge 0 ≤ FigTree.charge _ fig.tree at descended
      have whole : RootCtx.charge ⟨fig.height, leaf⟩ 0 ≤ fig.charge :=
        Nat.add_le_add_right descended _
      omega
  | hit deep ctx hit =>
      rw [stop] at written descended
      dsimp only at written
      cases part : hit.rightPart range value with
      | none =>
          rw [part] at written
          cases written
      | some right =>
          rw [part] at written
          dsimp only at written
          have around := Hit.charge_path descended part
          split at written
          · have below := @descend_charge _ _ (hit.leftEntry range).irange
              (hit.path range fig ctx right).ctx hit.kid.get hit.leftValid
            split at written
            · cases written
            · next inner lands =>
                cases written
                change descend _ _ (hit.path range fig ctx right).ctx _ _ = _
                  at lands
                rw [lands] at below
                have inserted := RootCtx.charge_insert_leaf
                  ⟨(hit.path range fig ctx right).height, inner⟩
                  (hit.leftEntry range)
                have whole : RootCtx.charge
                      ⟨(hit.path range fig ctx right).height, inner⟩ 0 ≤
                    (hit.path range fig ctx right).charge
                      (FigTree.charge deep hit.kid.get) :=
                  Nat.add_le_add_right below _
                exact inserted.trans (by omega)
          · cases written
            have plugged :=
              (hit.path range fig ctx right).charge_plug hit.kid.get
            exact plugged.trans (by omega)

end Write

/-! ## Height -/

/-- The height is the logarithm of the charge. -/
theorem heightCharge_eq (height : Nat) :
    ftOrder * heightCharge height + (ftOrder + 1) =
      (ftOrder + 1) ^ (height + 1) := by
  induction height with
  | zero => rfl
  | succ height inductionHypothesis =>
      rw [heightCharge, Nat.mul_add, Nat.pow_succ _ (height + 1),
        ← inductionHypothesis, Nat.mul_succ _ ftOrder,
        Nat.mul_comm _ ftOrder]
      omega

theorem Fig.pow_height_le (fig : Fig) :
    (ftOrder + 1) ^ (fig.height + 1) ≤
      ftOrder * fig.charge + (ftOrder + 1) := by
  rw [← heightCharge_eq]
  refine Nat.add_le_add_right (Nat.mul_le_mul_left _ ?_) _
  exact Nat.le_add_left _ _

end FigTree
end Gdpfs
