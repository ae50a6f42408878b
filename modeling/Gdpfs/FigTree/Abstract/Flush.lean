import Gdpfs.FigTree.Abstract.Context
import Gdpfs.Log.Record

/-!
# Checkpoints of tree values

What `get_dirty` does to a tree: the nodes that are dirty together with all
their ancestors become clean, and their parents learn where the copies will be.
A copy can be written only if every child pointer that is not in memory was
followed before.
-/

namespace Gdpfs
namespace FigTree

open Log

/-- Whether `get_dirty_helper` accepts a pointer in a copied node. -/
def Kid.writable : Kid C → Bool
  | .loaded _ _ => true
  | .unloaded _ seen _ => seen

/-- A clean node with other children. -/
def Node.withKids (node : Node C) : List (Kid C) → Node C
  | [] => node
  | first :: others =>
      { dirty := false, first := first, rest := node.entries.zip others }

section WithKids

variable {node : Node C} {kids : List (Kid C)}

theorem Node.kids_withKids
    (length : kids.length = node.kids.length) :
    (node.withKids kids).kids = kids := by
  cases kids with
  | nil => cases length
  | cons first others =>
      have lengths : others.length = node.entries.length := by
        simpa [Node.kids, Node.entries] using length
      simp only [Node.withKids, Node.kids, List.map_snd_zip (Nat.le_of_eq lengths)]

theorem Node.entries_withKids
    (length : kids.length = node.kids.length) :
    (node.withKids kids).entries = node.entries := by
  cases kids with
  | nil => cases length
  | cons first others =>
      have lengths : others.length = node.entries.length := by
        simpa [Node.kids, Node.entries] using length
      simp only [Node.withKids, Node.entries]
      exact List.map_fst_zip (Nat.le_of_eq lengths.symm)

theorem Node.dirty_withKids
    (length : kids.length = node.kids.length) :
    (node.withKids kids).dirty = false := by
  cases kids with
  | nil => cases length
  | cons first others => rfl

end WithKids

/-- The loop of `get_dirty_helper` over the children of a node. -/
def flushKids (flush : Kid C → Nat → Option (Kid C × Nat)) :
    List (Kid C) → Nat → Option (List (Kid C) × Nat)
  | [], count => some ([], count)
  | kid :: kids, count => do
      let (kid, count) ← flush kid count
      let (kids, count) ← flushKids flush kids count
      pure (kid :: kids, count)

/-- `get_dirty_helper` when `count` nodes were copied before; the number of
copies afterwards is handed back. -/
def flush (recno : Nat) :
    (h : Nat) → Kid (Tree h) → Nat → Option (Kid (Tree h) × Nat)
  | 0, kid, count => some (kid, count)
  | _ + 1, .unloaded saved seen stored, count =>
      some (.unloaded saved seen stored, count)
  | h + 1, .loaded saved child, count =>
      if Node.dirty (C := Tree h) child then do
        let (kids, count) ← flushKids (flush recno h)
          (Node.kids (C := Tree h) child) count
        if kids.all Kid.writable then
          some (.loaded (some (recno, count * sizeofFtNode))
            (Node.withKids (C := Tree h) child kids), count + 1)
        else none
      else some (.loaded saved child, count)

/-- Every child pointer in a node that is dirty together with its ancestors is
in memory or was followed. -/
def flushable : (h : Nat) → Kid (Tree h) → Bool
  | 0, _ => true
  | _ + 1, .unloaded _ _ _ => true
  | h + 1, .loaded _ child =>
      !Node.dirty (C := Tree h) child ||
        (Node.kids (C := Tree h) child).all fun kid =>
          kid.writable && flushable h kid

section Flush

variable {recno h count : Nat}

/-- What a successful flush of a child in memory does. -/
theorem flush_loaded
    {child : Node (Tree h)}
    {kid' : Kid (Tree (h + 1))} :
    flush recno (h + 1) (.loaded saved child) count = some (kid', count') ↔
      (child.dirty = false ∧ kid' = .loaded saved child ∧ count' = count) ∨
      (child.dirty = true ∧ ∃ kids last,
        flushKids (flush recno h) child.kids count = some (kids, last) ∧
        kids.all Kid.writable = true ∧
        kid' = .loaded (some (recno, last * sizeofFtNode))
          (child.withKids kids) ∧
        count' = last + 1) := by
  simp only [flush]
  cases dirty : child.dirty with
  | false =>
      simp only [Bool.false_eq_true, if_false, Option.some.injEq,
        Prod.mk.injEq, true_and, false_and, or_false]
      exact and_congr eq_comm eq_comm
  | true =>
      simp only [if_true, Option.bind_eq_bind, Option.bind_eq_some_iff,
        Prod.exists, Option.ite_none_right_eq_some, Option.some.injEq,
        Prod.mk.injEq, true_and, Bool.true_eq_false, false_and, false_or]
      refine exists_congr fun kids => exists_congr fun last => ?_
      exact and_congr_right fun _ => and_congr_right fun _ =>
        and_congr eq_comm eq_comm

theorem writable_flush
    {kid kid' : Kid (Tree h)}
    (flushed : flush recno h kid count = some (kid', count')) :
    kid'.writable = kid.writable := by
  cases h with
  | zero =>
      cases flushed
      rfl
  | succ h =>
      cases kid with
      | unloaded saved seen stored =>
          cases flushed
          rfl
      | loaded saved child =>
          rcases flush_loaded.mp flushed with
            ⟨_, rfl, _⟩ | ⟨_, kids, last, _, _, rfl, _⟩
          · rfl
          · rfl

theorem flushKids_cons
    {flush : Kid C → Nat → Option (Kid C × Nat)}
    {kid : Kid C}
    {kids kids' : List (Kid C)} :
    flushKids flush (kid :: kids) count = some (kids', count') ↔
      ∃ first middle others, flush kid count = some (first, middle) ∧
        flushKids flush kids middle = some (others, count') ∧
        kids' = first :: others := by
  simp only [flushKids, Option.bind_eq_bind, Option.bind_eq_some_iff,
    Prod.exists, Option.pure_def, Option.some.injEq, Prod.mk.injEq]
  constructor
  · rintro ⟨first, middle, isFirst, others, last, isOthers, rfl, rfl⟩
    exact ⟨first, middle, others, isFirst, isOthers, rfl⟩
  · rintro ⟨first, middle, others, isFirst, isOthers, rfl⟩
    exact ⟨first, middle, isFirst, others, count', isOthers, rfl, rfl⟩

theorem length_flushKids
    {flush : Kid C → Nat → Option (Kid C × Nat)}
    {kids kids' : List (Kid C)}
    (flushed : flushKids flush kids count = some (kids', count')) :
    kids'.length = kids.length := by
  induction kids generalizing kids' count with
  | nil =>
      cases flushed
      rfl
  | cons kid kids inductionHypothesis =>
      obtain ⟨first, middle, others, _, isOthers, rfl⟩ :=
        flushKids_cons.mp flushed
      rw [List.length_cons, List.length_cons, inductionHypothesis isOthers]

theorem all_writable_flushKids
    {kids kids' : List (Kid (Tree h))}
    (flushed : flushKids (flush recno h) kids count = some (kids', count')) :
    kids'.all Kid.writable = kids.all Kid.writable := by
  induction kids generalizing kids' count with
  | nil =>
      cases flushed
      rfl
  | cons kid kids inductionHypothesis =>
      obtain ⟨first, middle, others, isFirst, isOthers, rfl⟩ :=
        flushKids_cons.mp flushed
      rw [List.all_cons, List.all_cons, writable_flush isFirst,
        inductionHypothesis isOthers]

theorem flushKids_isSome
    {flush : Kid C → Nat → Option (Kid C × Nat)}
    {able : Kid C → Bool}
    (each : ∀ kid count, (flush kid count).isSome = able kid)
    (kids : List (Kid C))
    (count : Nat) :
    (flushKids flush kids count).isSome = kids.all able := by
  induction kids generalizing count with
  | nil => rfl
  | cons kid kids inductionHypothesis =>
      rw [List.all_cons, ← each kid count]
      simp only [flushKids]
      cases flush kid count with
      | none => rfl
      | some result =>
          obtain ⟨first, middle⟩ := result
          simp only [Option.bind_eq_bind, Option.bind_some,
            Option.isSome_some, Bool.true_and]
          rw [← inductionHypothesis middle]
          cases flushKids flush kids middle <;> rfl

theorem all_and_eq (first second : α → Bool) (list : List α) :
    (list.all fun item => first item && second item) =
      (list.all first && list.all second) := by
  induction list with
  | nil => rfl
  | cons item list inductionHypothesis =>
      rw [List.all_cons, List.all_cons, List.all_cons, inductionHypothesis]
      ac_rfl

/-- Copies can be written exactly if the pointers allow it. -/
theorem flush_isSome (kid : Kid (Tree h)) (count : Nat) :
    (flush recno h kid count).isSome = flushable h kid := by
  induction h generalizing count with
  | zero => rfl
  | succ h inductionHypothesis =>
      cases kid with
      | unloaded saved seen stored => rfl
      | loaded saved child =>
          rw [flush, flushable]
          cases dirty : Node.dirty (C := Tree h) child with
          | false => rfl
          | true =>
              have able := flushKids_isSome inductionHypothesis
                (Node.kids (C := Tree h) child) count
              rw [Bool.not_true, Bool.false_or, if_pos rfl, all_and_eq,
                ← able]
              cases flushed : flushKids (flush recno h)
                  (Node.kids (C := Tree h) child) count with
              | none => simp
              | some result =>
                  obtain ⟨kids, last⟩ := result
                  rw [← all_writable_flushKids flushed]
                  simp only [Option.bind_eq_bind, Option.bind_some,
                    Option.isSome_some, Bool.and_true]
                  cases kids.all Kid.writable <;> rfl

end Flush

end FigTree
end Gdpfs
