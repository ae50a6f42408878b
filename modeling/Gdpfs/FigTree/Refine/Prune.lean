import Gdpfs.FigTree.Refine.Clear

/-!
# Pruning in the heap

`ftn_pruneTo` scans the entries of a node by index in five phases and deletes
from the arrays at the end.  `Pruning` describes the node between two phases:
children that will be freed, what is kept, and what is not scanned yet.
-/

namespace Gdpfs
namespace FigTree

open Log Effect
open Cells (Owns Holds cell)

/-! ## The loops -/

theorem pruneWhile_append
    {condition : Interval → Bool}
    {before after : List FtEnt}
    (passed : ∀ entry ∈ before, condition entry.irange = true)
    (stops : ∀ entry rest, after = entry :: rest →
      condition entry.irange = false)
    (bound : i + before.length ≤ entriesLen)
    (check : Nat) :
    pruneWhile check condition entriesLen (before ++ after) i =
      .ok (i + before.length) := by
  induction before generalizing i with
  | nil =>
      cases after with
      | nil => rfl
      | cons entry rest =>
          have stop := stops entry rest rfl
          simp [pruneWhile, stop]
  | cons entry before inductionHypothesis =>
      have pass := passed entry List.mem_cons_self
      rw [List.length_cons] at bound
      rw [List.cons_append, pruneWhile, if_pos pass, if_pos (by omega),
        inductionHypothesis (fun entry member =>
          passed entry (List.mem_cons_of_mem _ member)) (by omega),
        List.length_cons]
      congr 1
      omega

/-- The first phase, as a split of the entries and of the children. -/
theorem pruneBefore_split
    (valid : Interval)
    (kid : Kid C)
    (rest : List (FtEnt × Kid C)) :
    ∃ before gone,
      rest = before ++ (pruneBefore valid kid rest).2 ∧
        kid :: rest.map Prod.snd =
          gone ++ (pruneBefore valid kid rest).1 ::
            (pruneBefore valid kid rest).2.map Prod.snd ∧
        gone.length = before.length ∧
        (∀ pair ∈ before, iLeftOfInt pair.1.irange valid = true) ∧
        ∀ pair tail, (pruneBefore valid kid rest).2 = pair :: tail →
          iLeftOfInt pair.1.irange valid = false := by
  induction rest generalizing kid with
  | nil => exact ⟨[], [], rfl, rfl, rfl, nofun, nofun⟩
  | cons head rest inductionHypothesis =>
      obtain ⟨entry, next⟩ := head
      unfold pruneBefore
      by_cases passes : iLeftOfInt entry.irange valid = true
      · rw [if_pos passes]
        obtain ⟨before, gone, entries, kids, lengths, passed, stops⟩ :=
          inductionHypothesis next
        refine ⟨(entry, next) :: before, kid :: gone,
          congrArg _ entries, ?_, congrArg Nat.succ lengths, ?_, stops⟩
        · rw [List.map_cons, kids]
          rfl
        · intro pair member
          rcases List.mem_cons.mp member with rfl | member
          · exact passes
          · exact passed pair member
      · rw [if_neg passes]
        refine ⟨[], [], rfl, rfl, rfl, nofun, ?_⟩
        rintro _ _ same
        cases same
        exact Bool.eq_false_of_not_eq_true passes

/-- The last phase drops entries from the front. -/
theorem pruneAfter_split
    (valid : Interval)
    (rest : List (FtEnt × Kid C)) :
    ∃ gone, rest = gone ++ pruneAfter valid rest ∧
      (∀ pair ∈ gone, iRightOfInt pair.1.irange valid = true) ∧
      ∀ pair tail, pruneAfter valid rest = pair :: tail →
        iRightOfInt pair.1.irange valid = false := by
  induction rest with
  | nil => exact ⟨[], rfl, nofun, nofun⟩
  | cons head rest inductionHypothesis =>
      obtain ⟨entry, next⟩ := head
      unfold pruneAfter
      by_cases passes : iRightOfInt entry.irange valid = true
      · rw [if_pos passes]
        obtain ⟨gone, entries, passed, stops⟩ := inductionHypothesis
        refine ⟨(entry, next) :: gone, congrArg _ entries, ?_, stops⟩
        intro pair member
        rcases List.mem_cons.mp member with rfl | member
        · exact passes
        · exact passed pair member
      · rw [if_neg passes]
        refine ⟨[], rfl, nofun, ?_⟩
        rintro _ _ same
        cases same
        exact Bool.eq_false_of_not_eq_true passes

/-- What the right edge of the valid interval does to the entries from there
on. -/
def pruneEdgeRight (clear : Kid C → Kid C) (valid : Interval) :
    List (FtEnt × Kid C) → List (FtEnt × Kid C) × List (FtEnt × Kid C)
  | [] => ([], [])
  | (entry, next) :: rest =>
      if iRightOverlaps valid entry.irange then
        ([(entry.trim valid, clear next)], rest)
      else ([], (entry, next) :: rest)

/-- What the left edge of the valid interval does to the first child and the
entries from there on. -/
def pruneEdgeLeft (clear : Kid C → Kid C) (valid : Interval)
    (kid : Kid C) :
    List (FtEnt × Kid C) →
      Kid C × List (FtEnt × Kid C) × List (FtEnt × Kid C)
  | [] => (kid, [], [])
  | (entry, next) :: rest =>
      if iLeftOverlaps valid entry.irange then
        (clear kid, [(entry.trim valid, next)], rest)
      else (kid, [], (entry, next) :: rest)

/-- The middle phases, as a split of the entries. -/
theorem pruneRight_split
    (clear : Kid C → Kid C)
    (valid : Interval)
    (rest : List (FtEnt × Kid C)) :
    ∃ inside tail, rest = inside ++ tail ∧
      (∀ pair ∈ inside, iContainsInt valid pair.1.irange = true) ∧
      (∀ pair more, tail = pair :: more →
        iContainsInt valid pair.1.irange = false) ∧
      pruneRight clear valid rest =
        inside ++ (pruneEdgeRight clear valid tail).1 ++
          pruneAfter valid (pruneEdgeRight clear valid tail).2 := by
  induction rest with
  | nil => exact ⟨[], [], rfl, nofun, nofun, rfl⟩
  | cons head rest inductionHypothesis =>
      obtain ⟨entry, next⟩ := head
      unfold pruneRight
      by_cases passes : iContainsInt valid entry.irange = true
      · rw [if_pos passes]
        obtain ⟨inside, tail, entries, passed, stops, result⟩ :=
          inductionHypothesis
        refine ⟨(entry, next) :: inside, tail, congrArg _ entries, ?_,
          stops, congrArg _ result⟩
        intro pair member
        rcases List.mem_cons.mp member with rfl | member
        · exact passes
        · exact passed pair member
      · rw [if_neg passes]
        refine ⟨[], (entry, next) :: rest, rfl, nofun, ?_, ?_⟩
        · rintro _ _ same
          cases same
          exact Bool.eq_false_of_not_eq_true passes
        · by_cases overlaps : iRightOverlaps valid entry.irange = true
          · rw [if_pos overlaps, pruneEdgeRight, if_pos overlaps]
            rfl
          · rw [if_neg overlaps, pruneEdgeRight, if_neg overlaps]
            rfl

theorem pruneLeft_eq
    (clear : Kid C → Kid C)
    (valid : Interval)
    (kid : Kid C)
    (rest : List (FtEnt × Kid C)) :
    pruneLeft clear valid kid rest =
      ((pruneEdgeLeft clear valid kid rest).1,
        (pruneEdgeLeft clear valid kid rest).2.1 ++
          pruneRight clear valid (pruneEdgeLeft clear valid kid rest).2.2) := by
  cases rest with
  | nil => rfl
  | cons head rest =>
      obtain ⟨entry, next⟩ := head
      by_cases overlaps : iLeftOverlaps valid entry.irange = true
      · rw [pruneLeft, if_pos overlaps, pruneEdgeLeft, if_pos overlaps]
        rfl
      · rw [pruneLeft, if_neg overlaps, pruneEdgeLeft, if_neg overlaps]
        rfl

/-! ## The edges -/

section Edge

variable {log : List LogRecord} {h : Nat} {heap : Heap} {frame here : Part}
  {node : FtNode} {edge : Interval → Interval → Bool} {valid : Interval}

/-- An edge of the valid interval inside an entry: the child on the outer side
is cleared and the entry is trimmed. -/
theorem ensures_pruneEdge_hit
    {entry : FtEnt}
    {kid : Kid (Tree h)}
    (entries : node.entries = before ++ entry :: after)
    (subtrees : node.subtrees = left ++ sptr :: right)
    (level : node.height = h)
    (overlaps : edge valid entry.irange = true)
    (keeps : max entry.irange.left valid.left ≤
      min entry.irange.right valid.right)
    (kidRep : KidRep (Rep log h) sptr kid here)
    (owns : Owns heap (here + frame))
    (check : Nat) :
    Ensures (pruneEdge check edge valid node before.length left.length)
      (fun result next => ∃ sptr' here',
        result =
          ({ node with
              entries := before ++ entry.trim valid :: after
              subtrees := left ++ sptr' :: right }, before.length + 1) ∧
          KidRep (Rep log h) sptr' (clearKid kid) here' ∧
          Owns next (here' + frame)) heap := by
  have found : node.entries[before.length]? = some entry := by
    rw [entries, List.getElem?_append_right le_rfl, Nat.sub_self]
    rfl
  have slot : node.subtrees.getD left.length nullPtr = sptr := by
    rw [subtrees]
    simp
  have restricted : iRestrictInt entry.irange valid false =
      .ok (entry.trim valid).irange := iRestrictRange_of_le keeps
  unfold pruneEdge
  rw [found]
  dsimp only
  rw [if_pos overlaps, slot, level, restricted, ensures_bind]
  refine (ensures_subtreeClear kidRep owns).mono ?_
  rintro sptr' next ⟨here', kidRep', owns'⟩
  rw [ensures_run_bind (run_lift_ok _ _),
    ensures_run_bind (run_ensure (by simp [entries]) _ _), ensures_pure]
  refine ⟨sptr', here', ?_, kidRep', owns'⟩
  rw [entries, subtrees, List.set_append_right _ _ le_rfl,
    List.set_append_right _ _ le_rfl, Nat.sub_self, Nat.sub_self]
  rfl

theorem run_pruneEdge_miss
    (misses : ∀ entry, node.entries[i]? = some entry →
      edge valid entry.irange = false)
    (check outer : Nat)
    (heap : Heap) :
    (pruneEdge check edge valid node i outer).run heap =
      .ok ((node, i), heap) := by
  unfold pruneEdge
  cases found : node.entries[i]? with
  | none => rfl
  | some entry =>
      dsimp only
      rw [misses entry found]
      rfl

end Edge

/-- A node between two phases of pruning: the children in `gone` will be freed,
`first` and `kept` are done, and `rest` is still to be scanned. -/
structure Pruning
    (log : List LogRecord)
    (node : FtNode)
    (gone : List (Kid (Tree h)))
    (first : Kid (Tree h))
    (kept rest : List (FtEnt × Kid (Tree h)))
    (cells : Part) : Prop where
  level : node.height = h
  entries : ∃ before,
    node.entries = before ++ (kept.map Prod.fst ++ rest.map Prod.fst) ∧
      before.length = gone.length
  subtrees : ∃ freed done todo freedCells doneCells todoCells,
    node.subtrees = freed ++ (done ++ todo) ∧
      cells = freedCells + (doneCells + todoCells) ∧
      RepKids (KidRep (Rep log h)) freed gone freedCells ∧
      RepKids (KidRep (Rep log h)) done (first :: kept.map Prod.snd)
        doneCells ∧
      RepKids (KidRep (Rep log h)) todo (rest.map Prod.snd) todoCells

section Phases

variable {log : List LogRecord} {h : Nat} {heap : Heap} {frame cells : Part}
  {node : FtNode} {valid : Interval} {gone : List (Kid (Tree h))}
  {first : Kid (Tree h)} {kept rest : List (FtEnt × Kid (Tree h))}

/-- The entry at the current index is the first one to be scanned. -/
theorem Pruning.getElem?_entries
    (pruning : Pruning log node gone first kept rest cells) :
    node.entries[gone.length + kept.length]? = (rest.map Prod.fst)[0]? := by
  obtain ⟨before, entries, lengths⟩ := pruning.entries
  rw [entries, ← lengths, ← List.append_assoc,
    List.getElem?_append_right (by simp), List.length_append,
    List.length_map, Nat.sub_self]

theorem Pruning.drop_entries
    (pruning : Pruning log node gone first kept rest cells) :
    node.entries.drop (gone.length + kept.length) = rest.map Prod.fst ∧
      node.entries.length = gone.length + kept.length + rest.length := by
  obtain ⟨before, entries, lengths⟩ := pruning.entries
  rw [entries, ← List.append_assoc]
  constructor
  · rw [List.drop_left' (by simp [lengths])]
  · simp [lengths, Nat.add_assoc]

theorem ensures_pruneEdge_left
    (pruning : Pruning log node gone first [] rest cells)
    (regular : valid.Regular)
    (owns : Owns heap (cells + frame))
    (check : Nat) :
    Ensures
      (pruneEdge check iLeftOverlaps valid node gone.length gone.length)
      (fun result next =>
        let edge := pruneEdgeLeft clearKid valid first rest
        result.2 = gone.length + edge.2.1.length ∧
          result.1.dirty = node.dirty ∧
          ∃ cells', Pruning log result.1 gone edge.1 edge.2.1 edge.2.2
              cells' ∧
            Owns next (cells' + frame)) heap := by
  have found := pruning.getElem?_entries
  by_cases hits : ∃ entry next tail, rest = (entry, next) :: tail ∧
      iLeftOverlaps valid entry.irange = true
  · obtain ⟨entry, next, tail, rfl, overlaps⟩ := hits
    obtain ⟨before, entries, lengths⟩ := pruning.entries
    obtain ⟨freed, done, todo, freedCells, doneCells, todoCells, subtrees,
      rfl, freedRep, doneRep, todoRep⟩ := pruning.subtrees
    obtain ⟨sptr, others, here, none, rfl, rfl, firstRep, othersRep⟩ :=
      repKids_cons.mp doneRep
    obtain ⟨rfl, rfl⟩ := repKids_nil.mp othersRep
    obtain ⟨nextPtr, todo, nextCells, restCells, rfl, rfl, nextRep,
      todoRep⟩ := repKids_cons.mp todoRep
    obtain ⟨validFlag, begins, reaches⟩ := iLeftOverlaps_iff.mp overlaps
    have validEnds := regular.ordered validFlag
    have keeps : max entry.irange.left valid.left ≤
        min entry.irange.right valid.right := by omega
    have edge := (@ensures_pruneEdge_hit _ _ _ (freedCells + (nextCells + restCells) + frame))
      entries
      subtrees pruning.level overlaps keeps firstRep (owns.of_eq (by abel))
      check
    rw [lengths, freedRep.length_eq] at edge
    refine edge.mono ?_
    rintro _ after ⟨sptr', here', rfl, kidRep, owns⟩
    simp only [pruneEdgeLeft, overlaps, if_true]
    refine ⟨by simp, trivial,
      freedCells + ((here' + nextCells) + restCells),
      ⟨pruning.level, ⟨before, rfl, lengths⟩, ?_⟩, owns.of_eq (by abel)⟩
    exact ⟨freed, [sptr', nextPtr], todo, freedCells, here' + nextCells,
      restCells, rfl, rfl, freedRep, repKids_cons.mpr ⟨_, _, _, _, rfl, rfl,
        kidRep, repKids_singleton nextRep⟩, todoRep⟩
  · have misses : pruneEdgeLeft clearKid valid first rest =
        (first, [], rest) := by
      rcases rest with _ | ⟨⟨entry, next⟩, tail⟩
      · rfl
      · rw [pruneEdgeLeft, if_neg fun overlaps =>
          hits ⟨entry, next, tail, rfl, overlaps⟩]
    rw [ensures_of_run (run_pruneEdge_miss ?_ _ _ _), misses]
    · exact ⟨rfl, rfl, cells, pruning, owns⟩
    · intro entry isEntry
      rw [List.length_nil, Nat.add_zero, isEntry] at found
      rcases rest with _ | ⟨⟨other, next⟩, tail⟩
      · cases found
      · cases found
        exact Bool.eq_false_of_not_eq_true fun overlaps =>
          hits ⟨_, next, tail, rfl, overlaps⟩

theorem ensures_pruneEdge_right
    (pruning : Pruning log node gone first kept rest cells)
    (regular : valid.Regular)
    (owns : Owns heap (cells + frame))
    (check : Nat) :
    Ensures
      (pruneEdge check iRightOverlaps valid node
        (gone.length + kept.length) (gone.length + kept.length + 1))
      (fun result next =>
        let edge := pruneEdgeRight clearKid valid rest
        result.2 = gone.length + (kept ++ edge.1).length ∧
          result.1.dirty = node.dirty ∧
          ∃ cells', Pruning log result.1 gone first (kept ++ edge.1) edge.2
              cells' ∧
            Owns next (cells' + frame)) heap := by
  have found := pruning.getElem?_entries
  by_cases hits : ∃ entry next tail, rest = (entry, next) :: tail ∧
      iRightOverlaps valid entry.irange = true
  · obtain ⟨entry, next, tail, rfl, overlaps⟩ := hits
    obtain ⟨before, entries, lengths⟩ := pruning.entries
    obtain ⟨freed, done, todo, freedCells, doneCells, todoCells, subtrees,
      rfl, freedRep, doneRep, todoRep⟩ := pruning.subtrees
    obtain ⟨nextPtr, todo, nextCells, restCells, rfl, rfl, nextRep,
      todoRep⟩ := repKids_cons.mp todoRep
    obtain ⟨validFlag, begins, reaches⟩ := iRightOverlaps_iff.mp overlaps
    have validEnds := regular.ordered validFlag
    have keeps : max entry.irange.left valid.left ≤
        min entry.irange.right valid.right := by omega
    have edge := (@ensures_pruneEdge_hit _ _ _ (freedCells + doneCells + restCells + frame))
      (by rw [entries, List.append_assoc]; rfl)
      (by rw [subtrees, List.append_assoc]) pruning.level overlaps keeps
      nextRep (owns.of_eq (by abel)) check
    rw [List.length_append, List.length_append, lengths, List.length_map,
      freedRep.length_eq, doneRep.length_eq, List.length_cons,
      List.length_map, ← Nat.add_assoc] at edge
    refine edge.mono ?_
    rintro _ after ⟨sptr', here', rfl, kidRep, owns⟩
    simp only [pruneEdgeRight, overlaps, if_true]
    refine ⟨by simp [Nat.add_assoc], trivial,
      freedCells + ((doneCells + here') + restCells),
      ⟨pruning.level, ⟨before, by simp, lengths⟩, ?_⟩,
      owns.of_eq (by abel)⟩
    refine ⟨freed, done ++ [sptr'], todo, freedCells, doneCells + here',
      restCells, by simp, rfl, freedRep, ?_, todoRep⟩
    rw [List.map_append, ← List.cons_append]
    exact repKids_append.mpr ⟨_, _, _, _, rfl, rfl, doneRep,
      repKids_singleton kidRep⟩
  · have misses : pruneEdgeRight clearKid valid rest = ([], rest) := by
      rcases rest with _ | ⟨⟨entry, next⟩, tail⟩
      · rfl
      · rw [pruneEdgeRight, if_neg fun overlaps =>
          hits ⟨entry, next, tail, rfl, overlaps⟩]
    rw [ensures_of_run (run_pruneEdge_miss ?_ _ _ _), misses]
    · simp only [List.append_nil]
      exact ⟨trivial, trivial, cells, pruning, owns⟩
    · intro entry isEntry
      rw [isEntry] at found
      rcases rest with _ | ⟨⟨other, next⟩, tail⟩
      · cases found
      · cases found
        exact Bool.eq_false_of_not_eq_true fun overlaps =>
          hits ⟨_, next, tail, rfl, overlaps⟩

/-- Entries inside the valid interval are passed over. -/
theorem Pruning.keep
    {inside : List (FtEnt × Kid (Tree h))}
    (pruning : Pruning log node gone first kept (inside ++ rest) cells) :
    Pruning log node gone first (kept ++ inside) rest cells := by
  obtain ⟨before, entries, lengths⟩ := pruning.entries
  obtain ⟨freed, done, todo, freedCells, doneCells, todoCells, subtrees,
    rfl, freedRep, doneRep, todoRep⟩ := pruning.subtrees
  rw [List.map_append] at todoRep
  obtain ⟨middle, todo, middleCells, restCells, rfl, rfl, middleRep,
    todoRep⟩ := repKids_append.mp todoRep
  refine ⟨pruning.level, ⟨before, by simp [entries], lengths⟩,
    freed, done ++ middle, todo, freedCells, doneCells + middleCells,
    restCells, by simp [subtrees], by rw [add_assoc doneCells], freedRep,
    ?_, todoRep⟩
  rw [List.map_append, ← List.cons_append]
  exact repKids_append.mpr ⟨_, _, _, _, rfl, rfl, doneRep, middleRep⟩

theorem ensures_prunePerformDeletes
    {dropped : List (FtEnt × Kid (Tree h))}
    (pruning : Pruning log node gone first kept (dropped ++ rest) cells)
    (owns : Owns heap (cell this old + (cells + frame))) :
    Ensures
      (prunePerformDeletes this node gone.length
        (gone.length + kept.length)
        (gone.length + kept.length + dropped.length))
      (fun _ next => Holds
        (Rep log (h + 1) (.memory (some this))
          (⟨node.dirty || decide (0 < gone.length + dropped.length), first,
            kept ++ rest⟩ : Node (Tree h))) frame next) heap := by
  obtain ⟨before, entries, lengths⟩ := pruning.entries
  obtain ⟨freed, done, todo, freedCells, doneCells, todoCells, subtrees,
    rfl, freedRep, doneRep, todoRep⟩ := pruning.subtrees
  rw [List.map_append] at todoRep
  obtain ⟨lost, todo, lostCells, restCells, rfl, rfl, lostRep, todoRep⟩ :=
    repKids_append.mp todoRep
  have freedLength := freedRep.length_eq
  have doneLength := doneRep.length_eq
  have lostLength := lostRep.length_eq
  rw [List.length_cons, List.length_map] at doneLength
  rw [List.length_map] at lostLength
  have freedShape : node.subtrees.take gone.length = freed := by
    rw [subtrees, List.take_left' freedLength]
  have lostShape : (node.subtrees.take
      (gone.length + kept.length + dropped.length + 1)).drop
        (gone.length + kept.length + 1) = lost := by
    rw [subtrees, ← List.append_assoc done, ← List.append_assoc freed,
      List.take_left' (by simp; omega), ← List.append_assoc freed,
      List.drop_left' (by simp; omega)]
  have keptEntries : (node.entries.take (gone.length + kept.length)).drop
      gone.length ++
        node.entries.drop (gone.length + kept.length + dropped.length) =
      (kept ++ rest).map Prod.fst := by
    rw [entries, List.map_append, List.map_append, ← List.append_assoc,
      List.take_left' (by simp [lengths]), List.drop_left' lengths,
      ← List.append_assoc,
      List.drop_left' (by simp [lengths, Nat.add_assoc])]
  have keptSubtrees :
      (node.subtrees.take (gone.length + kept.length + 1)).drop
        gone.length ++
          node.subtrees.drop
            (gone.length + kept.length + dropped.length + 1) =
      done ++ todo := by
    rw [subtrees, ← List.append_assoc freed, List.take_left' (by simp; omega),
      List.drop_left' freedLength, ← List.append_assoc,
      List.drop_left' (by simp; omega)]
  unfold prunePerformDeletes
  rw [freedShape, lostShape, keptEntries, keptSubtrees]
  refine Ensures.bind ((@ensures_forM_subtreeFree _ _ _ (cell this old + (doneCells + (lostCells + restCells) + frame))) freedRep
    (owns.of_eq (by abel))) fun _ heap owns => ?_
  refine Ensures.bind ((@ensures_forM_subtreeFree _ _ _ (cell this old + (doneCells + restCells + frame))) lostRep
    (owns.of_eq (by abel))) fun _ heap owns => ?_
  dsimp only
  rw [ensures_run_bind (run_storeNode owns _),
    ensures_of_run (run_ensure (by
      have todoLength := todoRep.length_eq
      simp only [List.length_map] at todoLength
      simp [doneLength, todoLength]
      omega) _ _)]
  refine holds_node ?_ (owns.write _)
  refine ⟨rfl, pruning.level, ?_, ?_⟩
  · dsimp only
    rw [Bool.or_assoc, ← Bool.decide_or]
    congr 1
    exact decide_eq_decide.mpr (by omega)
  · have both :=
      repKids_append.mpr ⟨_, _, _, _, rfl, rfl, doneRep, todoRep⟩
    rw [List.cons_append, ← List.map_append] at both
    exact both

end Phases

/-! ## The whole function -/

section Sequence

variable {log : List LogRecord} {h : Nat} {heap : Heap} {frame cells : Part}
  {node old : FtNode} {valid : Interval} {gone : List (Kid (Tree h))}
  {first : Kid (Tree h)} {rest : List (FtEnt × Kid (Tree h))}

theorem length_pruneEdgeLeft
    (clear : Kid C → Kid C)
    (valid : Interval)
    (kid : Kid C)
    (rest : List (FtEnt × Kid C)) :
    (pruneEdgeLeft clear valid kid rest).2.1.length +
      (pruneEdgeLeft clear valid kid rest).2.2.length = rest.length := by
  rcases rest with _ | ⟨⟨entry, next⟩, rest⟩
  · rfl
  · unfold pruneEdgeLeft
    dsimp only
    split <;> simp [Nat.add_comm]

theorem length_pruneEdgeRight
    (clear : Kid C → Kid C)
    (valid : Interval)
    (rest : List (FtEnt × Kid C)) :
    (pruneEdgeRight clear valid rest).1.length +
      (pruneEdgeRight clear valid rest).2.length = rest.length := by
  rcases rest with _ | ⟨⟨entry, next⟩, rest⟩
  · rfl
  · unfold pruneEdgeRight
    dsimp only
    split <;> simp [Nat.add_comm]

/-- The phases after the first one, in sequence. -/
theorem ensures_prunePhases
    (start : Pruning log node gone first [] rest cells)
    (regular : valid.Regular)
    (owns : Owns heap (cell this old + (cells + frame))) :
    Ensures
      (do
        let (node, i) ←
          pruneEdge 2 iLeftOverlaps valid node gone.length gone.length
        let i ← pruneWhile 3 (iContainsInt valid ·)
          (gone.length + rest.length) (node.entries.drop i) i
        let (node, keepTo) ←
          pruneEdge 4 iRightOverlaps valid node i (i + 1)
        let stop ← pruneWhile 5 (iRightOfInt · valid)
          (gone.length + rest.length) (node.entries.drop keepTo) keepTo
        prunePerformDeletes this node gone.length keepTo stop)
      (fun _ next => Holds
        (Rep log (h + 1) (.memory (some this))
          (⟨node.dirty || decide ((pruneLeft clearKid valid first
              rest).2.length < gone.length + rest.length),
            (pruneLeft clearKid valid first rest).1,
            (pruneLeft clearKid valid first rest).2⟩ : Node (Tree h)))
        frame next) heap := by
  have leftLength := length_pruneEdgeLeft clearKid valid first rest
  refine Ensures.bind ((@ensures_pruneEdge_left _ _ _ (cell this old + frame)) start regular
    (owns.of_eq (by abel)) 2) ?_
  rw [pruneLeft_eq]
  generalize pruneEdgeLeft clearKid valid first rest = left at *
  obtain ⟨first, kept, todo⟩ := left
  rintro ⟨node1, _⟩ heap ⟨rfl, dirty1, cells, pruning, owns⟩
  dsimp only at dirty1 pruning leftLength ⊢
  obtain ⟨inside, tail, rfl, passed, stops, result⟩ :=
    pruneRight_split clearKid valid todo
  rw [result, pruning.drop_entries.1, List.map_append,
    pruneWhile_append (by simpa using passed) ?_ ?_,
    ensures_run_bind (run_lift_ok _ _)]
  · have pruning := pruning.keep
    rw [List.length_map, Nat.add_assoc, ← List.length_append]
    have rightLength := length_pruneEdgeRight clearKid valid tail
    refine Ensures.bind (ensures_pruneEdge_right pruning regular owns 4) ?_
    generalize pruneEdgeRight clearKid valid tail = edge at *
    obtain ⟨trimmed, todo⟩ := edge
    rintro ⟨node2, _⟩ heap ⟨rfl, dirty2, cells, pruning, owns⟩
    dsimp only at dirty2 pruning rightLength ⊢
    obtain ⟨dropped, shape, passed, stops⟩ := pruneAfter_split valid todo
    generalize pruneAfter valid todo = remaining at *
    subst shape
    rw [pruning.drop_entries.1, List.map_append,
      pruneWhile_append (by simpa using passed) ?_ ?_,
      ensures_run_bind (run_lift_ok _ _), List.length_map]
    · refine ((@ensures_prunePerformDeletes _ _ _ frame) pruning
        (owns.of_eq (by abel))).mono fun _ next holds => ?_
      have marked : decide (0 < gone.length + dropped.length) =
          decide ((kept ++ (inside ++ trimmed ++ remaining)).length <
            gone.length + rest.length) := by
        simp only [List.length_append] at leftLength rightLength ⊢
        exact decide_eq_decide.mpr (by omega)
      rw [dirty2, dirty1, marked] at holds
      simpa only [List.append_assoc] using holds
    · intro entry more same
      rcases remaining with _ | ⟨pair, remaining⟩
      · cases same
      · cases same
        exact stops pair remaining rfl
    · simp only [List.length_append, List.length_map] at *
      omega
  · intro entry more same
    rcases tail with _ | ⟨pair, tail⟩
    · cases same
    · cases same
      exact stops pair tail rfl
  · simp only [List.length_append, List.length_map] at *
    omega

end Sequence

section Whole

variable {log : List LogRecord} {h : Nat} {heap : Heap} {frame cells : Part}
  {tree : Node (Tree h)} {valid : Interval}

/-- `ftn_pruneTo` does to the heap what `Node.prune` does to a node. -/
theorem ensures_ftnPruneTo
    (rep : Rep log (h + 1) (.memory (some this)) tree cells)
    (regular : valid.Regular)
    (owns : Owns heap (cells + frame)) :
    Ensures (ftnPruneTo this valid)
      (fun _ next => Holds
        (Rep log (h + 1) (.memory (some this)) (tree.prune valid)) frame
        next) heap := by
  have whole := rep
  obtain ⟨_, node, below, same, rfl, nodeRep⟩ := rep
  cases same
  have owned := owns.of_eq (add_assoc _ _ _)
  rw [ftnPruneTo, ensures_run_bind (run_loadNode owned), Node.prune]
  by_cases validFlag : valid.nonempty = true
  · rw [if_neg (by simp [validFlag]), if_pos validFlag]
    obtain ⟨before, gone, entriesShape, kidsShape, lengths, passed,
      stops⟩ := pruneBefore_split valid tree.first tree.rest
    have lostLength : (pruneBefore valid tree.first tree.rest).2.length +
        gone.length = tree.rest.length := by
      rw [lengths, Nat.add_comm, ← List.length_append, ← entriesShape]
    generalize pruneBefore valid tree.first tree.rest = inside at *
    obtain ⟨first, rest⟩ := inside
    dsimp only at entriesShape kidsShape stops lostLength ⊢
    have start : Pruning log node gone first [] rest below := by
      have kids := nodeRep.kids
      rw [Node.kids, kidsShape] at kids
      obtain ⟨freed, others, freedCells, othersCells, subtrees, rfl,
        freedRep, othersRep⟩ := repKids_append.mp kids
      obtain ⟨sptr, todo, here, there, rfl, rfl, firstRep, todoRep⟩ :=
        repKids_cons.mp othersRep
      refine ⟨nodeRep.height, ⟨before.map Prod.fst, ?_, by simp [lengths]⟩,
        freed, [sptr], todo, freedCells, here, there, subtrees, rfl,
        freedRep, repKids_singleton firstRep, todoRep⟩
      rw [nodeRep.entries, Node.entries, entriesShape]
      simp
    have entriesLen : node.entries.length = gone.length + rest.length := by
      simpa using start.drop_entries.2
    have restLength : tree.rest.length = gone.length + rest.length := by
      omega
    rw [restLength]
    by_cases empty : node.entries.length = 0
    · rw [if_pos (by simp [empty]), ensures_pure]
      have goneNil : gone = [] := List.length_eq_zero_iff.mp (by omega)
      have restNil : rest = [] := List.length_eq_zero_iff.mp (by omega)
      have treeNil : tree.rest = [] := List.length_eq_zero_iff.mp (by omega)
      rw [goneNil, restNil, treeNil] at kidsShape
      refine ⟨_, ?_, owns⟩
      obtain ⟨dirty, treeFirst, treeRest⟩ := tree
      cases treeNil
      cases kidsShape
      rw [restNil, goneNil]
      simpa [pruneLeft] using whole
    · rw [if_neg (by simpa using empty)]
      have scan : pruneWhile 1 (iLeftOfInt · valid) node.entries.length
          node.entries 0 = .ok gone.length := by
        have shape : node.entries =
            before.map Prod.fst ++ rest.map Prod.fst := by
          rw [nodeRep.entries, Node.entries, entriesShape, List.map_append]
        have result := (@pruneWhile_append 0 node.entries.length (fun irange => iLeftOfInt irange valid) (before.map Prod.fst) (rest.map Prod.fst))
          ?_ ?_ ?_ 1
        · rw [← shape] at result
          rw [result, lengths]
          simp
        · simpa using passed
        · intro entry tail shape
          rcases rest with _ | ⟨pair, rest⟩
          · cases shape
          · cases shape
            exact stops pair rest rfl
        · simp
          omega
      rw [scan, ensures_run_bind (run_lift_ok _ _), ← nodeRep.dirty,
        entriesLen]
      exact ensures_prunePhases start regular owned
  · rw [if_pos (by simpa using validFlag), if_neg validFlag]
    exact ensures_ftnClear whole owns

end Whole

end FigTree
end Gdpfs
