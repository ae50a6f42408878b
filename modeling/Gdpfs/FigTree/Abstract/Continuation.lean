import Gdpfs.FigTree.Abstract.Descend

/-!
# Continuations

The pieces that stick out of an overwritten entry are inserted below the node
that held the entry.  Their descent ends in the gap of a leaf for one of two
reasons: the valid interval does not meet the piece, or the subtree holds no
entry at all.  The second one matters at the ends of the address space, where
the bound computed for the valid interval wraps around.
-/

namespace Gdpfs
namespace FigTree

/-! ## Trees without entries -/

/-- A tree in memory that holds no entry. -/
def Bare : (h : Nat) → Tree h → Prop
  | 0, _ => True
  | h + 1, tree =>
      (tree : Node (Tree h)).rest = [] ∧
        (tree : Node (Tree h)).first.isLoaded = true ∧
          Bare h (tree : Node (Tree h)).first.get

theorem bare_chain : (h : Nat) → Bare h (chain h)
  | 0 => trivial
  | h + 1 => ⟨rfl, rfl, bare_chain h⟩

theorem bare_clear {h : Nat} (node : Node (Tree h)) :
    Bare (h + 1) node.clear :=
  ⟨rfl, rfl, bare_chain h⟩

theorem look_bare
    {tree : Tree h}
    (bare : Bare h tree)
    (x : Nat) :
    look h tree x = none := by
  induction h with
  | zero => rfl
  | succ h inductionHypothesis =>
      obtain ⟨empty, _, below⟩ := bare
      simp only [look]
      rw [empty]
      exact inductionHypothesis below

theorem Bare.prune
    {node : Node (Tree h)}
    (bare : Bare (h + 1) node)
    (valid : Interval) :
    Bare (h + 1) (node.prune valid) := by
  obtain ⟨empty, loaded, below⟩ := bare
  unfold Node.prune
  split
  · rw [empty]
    exact ⟨rfl, loaded, below⟩
  · exact bare_clear node

section Bare

variable {regime : Regime} {h top low high : Nat} {range valid : Interval}

/-- A descent through a tree without entries ends in the gap of its leaf. -/
theorem descend_bare
    {ctx : Ctx h top}
    {tree : Tree h}
    (bare : Bare h tree)
    (ok : ctx.Ok regime low high)
    (region : low ≤ high)
    (lower : ctx.low low ≤ range.left)
    (upper : range.right < ctx.high high) :
    ∃ leaf, descend range h ctx tree valid = .null leaf ∧
      Landed regime low high range ctx tree leaf := by
  induction h generalizing valid with
  | zero =>
      exact ⟨ctx, rfl, ok, lower, upper, id, fun _ _ _ _ _ => rfl⟩
  | succ h inductionHypothesis =>
      obtain ⟨empty, loaded, below⟩ := Bare.prune bare valid
      unfold descend
      dsimp only
      rw [empty]
      dsimp only [place]
      have frameOk : FrameOk (ctx.low low) (ctx.high high)
          (SoundKid regime h)
          ⟨(Node.prune (h := h) tree valid).dirty, [],
            (Node.prune (h := h) tree valid).first.visit, []⟩ := by
        refine ⟨trivial, trivial, trivial, fun unloaded => ?_, trivial⟩
        rw [Kid.isLoaded_visit, loaded] at unloaded
        cases unloaded
      obtain ⟨leaf, result, landed⟩ := @inductionHypothesis _
        (.cons ⟨(Node.prune (h := h) tree valid).dirty, [],
          (Node.prune (h := h) tree valid).first.visit, []⟩ ctx) _
        below ⟨Nat.zero_le _, frameOk, ok⟩ lower upper
      refine ⟨leaf, result, landed.ok, landed.lower, landed.upper,
        fun allLoaded => (landed.loaded allLoaded).2, ?_⟩
      intro allLoaded x lowLe less outside
      rw [landed.look allLoaded x lowLe less outside]
      have outerLoaded := (landed.loaded allLoaded).2
      by_cases inGap : ctx.low low ≤ x ∧ x < ctx.high high
      · have through := Ctx.look_plug_inside ok region outerLoaded
          (Frame.fill ⟨(Node.prune (h := h) tree valid).dirty, [],
            (Node.prune (h := h) tree valid).first.visit, []⟩
            (Node.prune (h := h) tree valid).first.get) inGap.1 inGap.2
        have through' := Ctx.look_plug_inside ok region outerLoaded tree
          inGap.1 inGap.2
        refine through.trans (Eq.trans ?_
          ((look_bare bare x).symm.trans through'.symm))
        simp only [look, Frame.fill, zipUp, lookIn, Kid.get_visit_put]
        exact look_bare below x
      · exact Ctx.look_plug_outside ok region outerLoaded _ _ lowLe less
          inGap

/-- A descent whose valid interval does not meet the range ends in the gap of
a leaf. -/
theorem Descent.lands
    {ctx : Ctx h top}
    {tree : Tree h}
    (descent : Descent regime low high range ctx valid tree)
    (region : low ≤ high)
    (bounded : high ≤ regime.limit)
    (disjoint : ∀ x, range.left ≤ x → x ≤ range.right →
      ¬(valid.left ≤ x ∧ x ≤ valid.right)) :
    ∃ leaf, descend range h ctx tree valid = .null leaf ∧
      Landed regime low high range ctx tree leaf := by
  have spec := descend_spec region bounded descent
  cases result : descend range h ctx tree valid with
  | null leaf =>
      rw [result] at spec
      exact ⟨leaf, rfl, spec⟩
  | hit deep inner hit =>
      rw [result] at spec
      obtain ⟨node, struck⟩ := spec
      obtain ⟨hitOk, _, _⟩ := struck.hitOk region
      obtain ⟨next, rest, shape⟩ := hitOk.head
      have ordered := hitOk.rest
      rw [shape] at ordered
      obtain ⟨_, entryLow, entryEnds, entryHigh, _⟩ := ordered
      have validLow := hitOk.left.low_le_lowOf
      have ends := struck.descent.ends
      have starts := hitOk.starts
      have reaches := hitOk.reaches
      unfold validEnd at entryHigh
      exact absurd
        (struck.narrows (max hit.first.irange.left range.left)
          (by omega) (by omega))
        (disjoint _ (by omega) (by omega))

end Bare

/-! ## Insertion in the gap of a leaf -/

section Leaf

variable {regime : Regime} {h top low high x : Nat} {range : Interval}
  {value : Int} {ctx : Ctx h top} {tree : Tree h} {leaf : Ctx 0 top}

theorem look_leafRaised (range : Interval) (value : Int) (x : Nat) :
    markLook (some (leafRaised ⟨range, value⟩)) () x =
      if range.left ≤ x ∧ x ≤ range.right then some value else none := by
  change (if x < range.left then none
    else if x ≤ range.right then some value else none) = _
  by_cases early : x < range.left
  · rw [if_pos early, if_neg (by omega)]
  · rw [if_neg early]
    by_cases within : x ≤ range.right
    · rw [if_pos within, if_pos (by omega)]
    · rw [if_neg within, if_neg (by omega)]

theorem Landed.raisedOk
    (landed : Landed regime low high range ctx tree leaf)
    (flag : range.nonempty = true)
    (ends : range.left ≤ range.right)
    (value : Int) :
    RaisedOk regime (leaf.low low) (leaf.high high)
      (some (leafRaised ⟨range, value⟩)) :=
  ⟨⟨flag, landed.lower, ends, landed.upper⟩, trivial, rfl⟩

/-- In the gap of the leaf, before the insertion, there is nothing. -/
theorem Landed.look_gap
    (landed : Landed regime low high range ctx tree leaf)
    (region : low ≤ high)
    (allLoaded : leaf.AllLoaded)
    (outside : ¬(range.left ≤ x ∧ x ≤ range.right))
    (lower : leaf.low low ≤ x)
    (upper : x < leaf.high high) :
    FigTree.look top (ctx.plug tree) x = none := by
  obtain ⟨lowLe, _, highLe⟩ := Ctx.low_le_high landed.ok region
  have through := Ctx.look_plug_inside landed.ok region allLoaded ()
    lower upper
  exact (landed.look allLoaded x (by omega) (by omega)
    outside).symm.trans through

theorem Landed.look_push
    (landed : Landed regime low high range ctx tree leaf)
    (region : low ≤ high)
    (bounded : high ≤ regime.limit)
    (flag : range.nonempty = true)
    (ends : range.left ≤ range.right)
    (allLoaded : leaf.AllLoaded)
    (lowLe : low ≤ x)
    (below : x < high) :
    markLook (leaf.push (some (leafRaised ⟨range, value⟩))).2
        ((leaf.push (some (leafRaised ⟨range, value⟩))).1.plug ()) x =
      if range.left ≤ x ∧ x ≤ range.right then some value
      else FigTree.look top (ctx.plug tree) x := by
  obtain ⟨_, _, _, _, pushedLook⟩ := Ctx.push_spec landed.ok region bounded
    (landed.raisedOk flag ends value)
  rw [pushedLook () x allLoaded lowLe below, look_leafRaised]
  by_cases inGap : leaf.low low ≤ x ∧ x < leaf.high high
  · rw [if_pos inGap]
    by_cases inside : range.left ≤ x ∧ x ≤ range.right
    · rw [if_pos inside, if_pos inside]
    · rw [if_neg inside, if_neg inside]
      exact (landed.look_gap region allLoaded inside inGap.1 inGap.2).symm
  · have outside : ¬(range.left ≤ x ∧ x ≤ range.right) := by
      have lower := landed.lower
      have upper := landed.upper
      omega
    rw [if_neg inGap, if_neg outside]
    exact landed.look allLoaded x lowLe below outside

end Leaf

section RootLeaf

variable {regime : Regime} {h x : Nat} {range : Interval} {value : Int}
  {root : RootCtx h} {tree : Tree h} {leaf : Ctx 0 (root.height + 1)}

/-- An insertion in the gap of a leaf that a descent from anywhere below the
root has reached. -/
theorem Landed.look_pushRoot
    (landed : Landed regime 0 regime.limit range root.ctx tree leaf)
    (flag : range.nonempty = true)
    (ends : range.left ≤ range.right)
    (allLoaded : leaf.AllLoaded)
    (below : x < regime.limit) :
    ((pushRoot ⟨root.height, leaf⟩
        (some (leafRaised ⟨range, value⟩))).plug ()).look x =
      if range.left ≤ x ∧ x ≤ range.right then some value
      else (root.plug tree).look x := by
  obtain ⟨_, _, _, pushedLook⟩ := (@pushRoot_spec _ _ ⟨root.height, leaf⟩)
    landed.ok
    (landed.raisedOk flag ends value)
  rw [pushedLook () x allLoaded below, look_leafRaised]
  by_cases inGap : leaf.low 0 ≤ x ∧ x < leaf.high regime.limit
  · rw [if_pos inGap]
    by_cases inside : range.left ≤ x ∧ x ≤ range.right
    · rw [if_pos inside, if_pos inside]
    · rw [if_neg inside, if_neg inside]
      exact (landed.look_gap (Nat.zero_le _) allLoaded inside inGap.1
        inGap.2).symm
  · have outside : ¬(range.left ≤ x ∧ x ≤ range.right) := by
      have lower := landed.lower
      have upper := landed.upper
      omega
    rw [if_neg inGap, if_neg outside]
    exact landed.look allLoaded x (Nat.zero_le _) below outside

theorem Landed.sound_pushRoot
    (landed : Landed regime 0 regime.limit range root.ctx tree leaf)
    (flag : range.nonempty = true)
    (ends : range.left ≤ range.right)
    (loaded : regime.Trusting ∨ leaf.AllLoaded) :
    Sound regime
      ((pushRoot ⟨root.height, leaf⟩
        (some (leafRaised ⟨range, value⟩))).height + 1) 0 regime.limit
      ((pushRoot ⟨root.height, leaf⟩
        (some (leafRaised ⟨range, value⟩))).plug ()).tree := by
  have raisedOk := landed.raisedOk flag ends value
  obtain ⟨sound, touched⟩ := Ctx.sound_push_leaf landed.ok
    (Nat.zero_le _) le_rfl raisedOk loaded
  obtain ⟨_, pushedRaised, _⟩ :=
    Ctx.push_spec landed.ok (Nat.zero_le _) le_rfl raisedOk
  unfold pushRoot
  dsimp only
  generalize leaf.push _ = pushed at *
  obtain ⟨ctx, _ | above⟩ := pushed
  · exact sound
  · have joined := Ctx.plug_append ctx (.cons (rootFrame above) .nil) ()
    exact (congrArg (Sound regime _ 0 regime.limit) joined).mpr
      (sound_rootFrame pushedRaised sound touched)

end RootLeaf

end FigTree
end Gdpfs
