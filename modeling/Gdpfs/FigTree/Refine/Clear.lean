import Gdpfs.FigTree.Refine.Rep

/-!
# Freeing, building and clearing

`ftn_free` gives back exactly the cells of a subtree, `ftn_new` builds an
entry-free chain in new cells, and `ftn_clear` and `subtree_clear` replace a
subtree by such a chain.
-/

namespace Gdpfs
namespace FigTree

open Log Effect
open Cells (Owns Holds Freed cell)

/-! ## Freeing -/

section Free

variable {log : List LogRecord} {h : Nat} {heap : Heap} {frame : Part}

/-- Free a list of children one by one. -/
theorem ensures_forM_kids
    {rep : SubtreePtr → Kid C → Part → Prop}
    {free : SubtreePtr → FigM Unit}
    (freeKid : ∀ sptr kid here frame heap, rep sptr kid here →
      Owns heap (here + frame) →
        Ensures (free sptr)
          (fun _ next => Owns next frame ∧ Freed heap here next) heap)
    (kids : RepKids rep ptrs children cells)
    (owns : Owns heap (cells + frame)) :
    Ensures (forM ptrs free)
      (fun _ next => Owns next frame ∧ Freed heap cells next) heap := by
  induction children generalizing ptrs cells heap with
  | nil =>
      obtain ⟨rfl, rfl⟩ := repKids_nil.mp kids
      exact ensures_pure.mpr ⟨by simpa using owns, .nothing heap⟩
  | cons kid children inductionHypothesis =>
      obtain ⟨sptr, ptrs, here, there, rfl, rfl, kidRep, restRep⟩ :=
        repKids_cons.mp kids
      rw [add_assoc] at owns
      rw [List.forM_cons]
      refine (freeKid sptr kid here _ heap kidRep owns).bind ?_
      rintro _ middle ⟨owns, freed⟩
      refine (inductionHypothesis restRep owns).mono ?_
      rintro _ next ⟨owns, rest⟩
      exact ⟨owns, freed.trans rest⟩

/-- `ftn_free` gives back the cells of a subtree. -/
theorem ensures_ftnFreeTo
    {tree : Tree (h + 1)}
    (rep : Rep log (h + 1) (.memory (some this)) tree cells)
    (deep : h < depth)
    (owns : Owns heap (cells + frame)) :
    Ensures (ftnFreeTo depth this)
      (fun _ next => Owns next frame ∧ Freed heap cells next) heap := by
  induction depth generalizing h this cells heap frame with
  | zero => exact absurd deep (Nat.not_lt_zero h)
  | succ depth inductionHypothesis =>
      obtain ⟨_, node, below, same, rfl, nodeRep⟩ := rep
      cases same
      rw [add_assoc] at owns
      rw [ftnFreeTo, ensures_run_bind (run_loadNode owns)]
      refine Ensures.bind ((@ensures_forM_kids heap (cell this node + frame))
        ?_ nodeRep.kids (owns.of_eq (by abel))) ?_
      · intro sptr kid here frame heap kidRep owns
        cases kid with
        | unloaded saved seen stored =>
            obtain ⟨unloaded, _, _, _, rfl⟩ := kidRep
            rw [unloaded]
            exact ensures_pure.mpr ⟨by simpa using owns, .nothing heap⟩
        | loaded saved child =>
            obtain ⟨loaded, _, childRep⟩ := kidRep
            cases h with
            | zero =>
                obtain ⟨null, rfl⟩ := childRep
                rw [loaded, null]
                exact ensures_pure.mpr ⟨by simpa using owns, .nothing heap⟩
            | succ h =>
                have pointer := childRep
                obtain ⟨st, _, _, isSome, _⟩ := pointer
                rw [isSome] at childRep
                rw [loaded, isSome]
                exact inductionHypothesis childRep
                  (Nat.lt_of_succ_lt_succ deep) owns
      · rintro _ next ⟨owns, freed⟩
        refine (ensures_of_run (run_memFree owns)).mpr ⟨owns.free, ?_⟩
        rw [add_comm]
        exact freed.trans (.one owns.read)

/-- `ftn_free` of the root of a tree. -/
theorem ensures_ftnFree
    {tree : Tree (h + 1)}
    (rep : Rep log (h + 1) (.memory (some this)) tree cells)
    (owns : Owns heap (cells + frame)) :
    Ensures (ftnFree this)
      (fun _ next => Owns next frame ∧ Freed heap cells next) heap := by
  have root := rep
  obtain ⟨_, node, below, same, rfl, nodeRep⟩ := root
  cases same
  rw [ftnFree,
    ensures_run_bind (run_loadNode (owns.of_eq (add_assoc _ _ _)))]
  refine ensures_ftnFreeTo rep ?_ owns
  rw [nodeRep.height]
  exact Nat.lt_succ_self h

/-- `subtree_free` gives back the cells of a child. -/
theorem ensures_subtreeFree
    {kid : Kid (Tree h)}
    (kidRep : KidRep (Rep log h) sptr kid here)
    (owns : Owns heap (here + frame)) :
    Ensures (subtreeFree sptr)
      (fun _ next => Owns next frame ∧ Freed heap here next) heap := by
  unfold subtreeFree
  cases kid with
  | unloaded saved seen stored =>
      obtain ⟨unloaded, _, _, _, rfl⟩ := kidRep
      rw [unloaded]
      exact ensures_pure.mpr ⟨by simpa using owns, .nothing heap⟩
  | loaded saved child =>
      obtain ⟨loaded, _, childRep⟩ := kidRep
      cases h with
      | zero =>
          obtain ⟨null, rfl⟩ := childRep
          rw [loaded, null]
          exact ensures_pure.mpr ⟨by simpa using owns, .nothing heap⟩
      | succ h =>
          have pointer := childRep
          obtain ⟨st, _, _, isSome, _⟩ := pointer
          rw [isSome] at childRep
          rw [loaded, isSome]
          exact ensures_ftnFree childRep owns

theorem ensures_forM_subtreeFree
    {children : List (Kid (Tree h))}
    (kids : RepKids (KidRep (Rep log h)) ptrs children cells)
    (owns : Owns heap (cells + frame)) :
    Ensures (forM ptrs subtreeFree) (fun _ next => Owns next frame) heap := by
  refine (ensures_forM_kids ?_ kids owns).mono fun _ _ done => done.1
  exact fun _ _ _ _ _ => ensures_subtreeFree

end Free

/-! ## Building -/

section New

variable {log : List LogRecord} {heap : Heap} {frame : Part}

/-- `ftn_new` builds an entry-free chain in new cells. -/
theorem ensures_ftnNew
    (h : Nat)
    (owns : Owns heap frame) :
    Ensures (ftnNew h true)
      (fun this next =>
        Holds (Rep log (h + 1) (.memory (some this)) (chain (h + 1))) frame
          next) heap := by
  induction h generalizing heap frame with
  | zero =>
      have owns := owns.alloc ⟨[], [subtreeSet nullPtr none], 0, true⟩
      refine (ensures_of_run (run_memAlloc heap _)).mpr
        ((@holds_node _ _ _ _ _ _ 0) ⟨rfl, rfl, rfl, ?_⟩
          (owns.of_eq (by abel)))
      exact repKids_singleton ⟨rfl, nofun, rfl, rfl⟩
  | succ h inductionHypothesis =>
      rw [ftnNew, ensures_run_bind (run_memAlloc heap _)]
      have owns := owns.alloc ⟨[], [], h + 1, true⟩
      simp only [if_true]
      rw [ensures_bind, map_eq_pure_bind, ensures_bind]
      refine (inductionHypothesis owns).mono ?_
      rintro st next ⟨cells, rep, owns⟩
      have owns := owns.of_eq (add_left_comm _ _ _)
      rw [ensures_pure, ensures_run_bind (run_storeNode owns _),
        ensures_pure]
      exact holds_node ⟨rfl, rfl, rfl,
        repKids_singleton ⟨rfl, nofun, rep⟩⟩ (owns.write _)

/-- A node that `ftn_new` makes without children is one new cell. -/
theorem ensures_ftnNew_bare
    (h : Nat)
    (owns : Owns heap frame) :
    Ensures (ftnNew h false)
      (fun this next => ∃ node, Owns next (cell this node + frame))
      heap := by
  cases h with
  | zero =>
      exact (ensures_of_run (run_memAlloc heap _)).mpr ⟨_, owns.alloc _⟩
  | succ h =>
      rw [ftnNew, ensures_run_bind (run_memAlloc heap _)]
      have owns := owns.alloc ⟨[], [], h + 1, true⟩
      simp only [Bool.false_eq_true, if_false, pure_bind]
      rw [ensures_run_bind (run_storeNode owns _), ensures_pure]
      exact ⟨_, owns.write _⟩

end New

/-! ## Clearing -/

section Clear

variable {log : List LogRecord} {h : Nat} {heap : Heap} {frame : Part}

theorem ensures_ftnClear
    {tree : Node (Tree h)}
    (rep : Rep log (h + 1) (.memory (some this)) tree cells)
    (owns : Owns heap (cells + frame)) :
    Ensures (ftnClear this true)
      (fun _ next =>
        Holds (Rep log (h + 1) (.memory (some this)) tree.clear) frame next)
      heap := by
  obtain ⟨_, node, below, same, rfl, nodeRep⟩ := rep
  cases same
  rw [add_assoc] at owns
  rw [ftnClear, ensures_run_bind (run_loadNode owns)]
  refine Ensures.bind ((@ensures_forM_subtreeFree _ _ _ (cell this node + frame))
    nodeRep.kids
    (owns.of_eq (by abel))) ?_
  intro _ next owns
  have height := nodeRep.height
  cases h with
  | zero =>
      simp only [height, beq_self_eq_true, Bool.true_or, if_true, pure_bind]
      rw [ensures_of_run (run_storeNode owns _)]
      refine holds_node ?_
        ((owns.write _).of_eq (by rw [zero_add]))
      exact ⟨rfl, rfl, nodeRep.dirty,
        repKids_singleton ⟨rfl, nofun, rfl, rfl⟩⟩
  | succ h =>
      simp only [height, Bool.not_true, Bool.or_false, beq_iff_eq,
        Nat.succ_ne_zero, if_false, Nat.add_sub_cancel]
      rw [ensures_bind, map_eq_pure_bind, ensures_bind]
      refine ((@ensures_ftnNew log) h owns).mono ?_
      rintro st next ⟨cells, rep, owns⟩
      have owns := owns.of_eq (add_left_comm _ _ _)
      rw [ensures_pure]
      rw [ensures_of_run (run_storeNode owns _)]
      refine holds_node ?_ (owns.write _)
      exact ⟨rfl, rfl, nodeRep.dirty,
        repKids_singleton ⟨rfl, nofun, rep⟩⟩

/-- `subtree_clear` makes a child an entry-free chain. -/
theorem ensures_subtreeClear
    {kid : Kid (Tree h)}
    (kidRep : KidRep (Rep log h) sptr kid here)
    (owns : Owns heap (here + frame)) :
    Ensures (subtreeClear sptr ((h : Int) - 1))
      (fun sptr next =>
        Holds (KidRep (Rep log h) sptr (clearKid kid)) frame next)
      heap := by
  cases h with
  | zero =>
      rw [subtreeClear, if_pos (by decide), ensures_pure]
      exact ⟨here, kidRep, owns⟩
  | succ h =>
      rw [subtreeClear, if_neg (by omega)]
      cases kid with
      | unloaded saved seen stored =>
          obtain ⟨unloaded, _, _, _, rfl⟩ := kidRep
          rw [unloaded, if_neg Bool.false_ne_true, zero_add] at *
          have level : ((h + 1 : Nat) - 1 : Int).toNat = h := by omega
          rw [level, ensures_bind]
          refine ((@ensures_ftnNew log) h owns).mono ?_
          rintro st next ⟨cells, rep, owns⟩
          rw [ensures_pure]
          exact ⟨cells, ⟨rfl, nofun, rep⟩, owns⟩
      | loaded saved child =>
          obtain ⟨loaded, position, childRep⟩ := kidRep
          have pointer := childRep
          obtain ⟨st, node, below, isSome, rfl, nodeRep⟩ := pointer
          rw [isSome] at childRep
          rw [if_pos loaded, isSome]
          have owned := owns.of_eq (add_assoc _ _ _)
          dsimp only
          rw [ensures_run_bind (run_loadNode owned),
            ensures_run_bind (run_ensure (by
              simp [nodeRep.height]) _ _), ensures_bind]
          refine (ensures_ftnClear childRep owns).mono ?_
          rintro _ next ⟨cells, rep, owns⟩
          rw [ensures_pure]
          exact ⟨cells, ⟨loaded, position, isSome ▸ rep⟩, owns⟩

end Clear

end FigTree
end Gdpfs
