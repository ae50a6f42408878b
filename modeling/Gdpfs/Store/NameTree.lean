import Mathlib.Data.List.Infix
import Mathlib.Data.List.Induction

/-!
# Trees of names

Nodes with children under names, given by a function that looks up a name in a
node.  A path resolves to the node that its names lead to.  If every node is the
child of at most one node under one name, then no two paths lead to one node, and
changing one entry changes only the paths through it.
-/

namespace Gdpfs
namespace NameTree

variable {D N : Type} {look look' : D → N → Option D} {root : D}

/-- The node that the names of a path lead to. -/
def resolve (look : D → N → Option D) : D → List N → Option D
  | node, [] => some node
  | node, name :: rest => (look node name).bind fun child =>
      resolve look child rest

theorem resolve_append
    (node : D)
    (first rest : List N) :
    resolve look node (first ++ rest) =
      (resolve look node first).bind fun middle => resolve look middle rest := by
  induction first generalizing node with
  | nil => rfl
  | cons name more inductionHypothesis =>
      rw [List.cons_append, resolve, resolve, Option.bind_assoc]
      congr 1
      funext child
      exact inductionHypothesis child

theorem resolve_concat
    (node : D)
    (path : List N)
    (name : N) :
    resolve look node (path ++ [name]) =
      (resolve look node path).bind fun middle => look middle name := by
  rw [resolve_append]
  congr 1
  funext middle
  rw [resolve]
  cases look middle name with
  | none => rfl
  | some child => rfl

/-- Every node is a child at most once, and the root is none. -/
structure Forest (look : D → N → Option D) (root : D) : Prop where
  once : ∀ parent other name name' child, look parent name = some child →
    look other name' = some child → parent = other ∧ name = name'
  top : ∀ parent name, look parent name ≠ some root

/-- A path that resolves, split at its last name. -/
theorem resolve_concat_some
    {node target : D}
    {path : List N}
    (resolved : resolve look node (path ++ [name]) = some target) :
    ∃ parent, resolve look node path = some parent ∧
      look parent name = some target := by
  rw [resolve_concat] at resolved
  exact Option.bind_eq_some_iff.mp resolved

/-- No two paths lead to one node. -/
theorem Forest.resolve_unique
    (forest : Forest look root)
    {first second : List N}
    (leads : resolve look root first = some node)
    (leads' : resolve look root second = some node) :
    first = second := by
  induction first using List.reverseRecOn generalizing second node with
  | nil =>
      cases Option.some.inj leads
      cases second using List.reverseRecOn with
      | nil => rfl
      | append_singleton path name =>
          obtain ⟨parent, _, isRoot⟩ := resolve_concat_some leads'
          exact absurd isRoot (forest.top parent name)
  | append_singleton path name inductionHypothesis =>
      obtain ⟨parent, toParent, child⟩ := resolve_concat_some leads
      cases second using List.reverseRecOn with
      | nil =>
          cases Option.some.inj leads'
          exact absurd child (forest.top parent name)
      | append_singleton other name' =>
          obtain ⟨parent', toParent', child'⟩ := resolve_concat_some leads'
          obtain ⟨sameParent, sameName⟩ :=
            forest.once parent parent' name name' node child child'
          rw [← sameParent] at toParent'
          rw [inductionHypothesis toParent toParent', sameName]

/-! ## Paths that avoid some entries -/

/-- A path resolves as before if no part of it leads to an entry that was
changed. -/
theorem resolve_congr
    {node : D}
    {path : List N}
    (same : ∀ first name rest parent, path = first ++ name :: rest →
      resolve look node first = some parent →
      look' parent name = look parent name) :
    resolve look' node path = resolve look node path := by
  induction path generalizing node with
  | nil => rfl
  | cons name rest inductionHypothesis =>
      rw [resolve, resolve, same [] name rest node rfl rfl]
      cases child : look node name with
      | none => rfl
      | some next =>
          rw [Option.bind_some, Option.bind_some]
          refine inductionHypothesis fun first other more parent split leads => ?_
          refine same (name :: first) other more parent ?_ ?_
          · rw [split, List.cons_append]
          · rw [resolve, child, Option.bind_some]
            exact leads

/-- A node without children has no paths. -/
theorem resolve_childless
    {child : D}
    (childless : ∀ name, look child name = none)
    (next : N)
    (rest : List N) :
    resolve look child (next :: rest) = none := by
  rw [resolve, childless]
  rfl

/-! ## One entry -/

/-- The entry of a name in a node is replaced. -/
def setEntry [DecidableEq D] [DecidableEq N] (look : D → N → Option D)
    (node : D) (name : N) (child : Option D) : D → N → Option D :=
  fun other name' =>
    if other = node ∧ name' = name then child else look other name'

section Entry

variable [DecidableEq D] [DecidableEq N] {node : D} {name : N}
  {parent path : List N}

theorem setEntry_self (child : Option D) :
    setEntry look node name child node name = child :=
  if_pos ⟨rfl, rfl⟩

/-- Paths that do not pass the entry resolve as before. -/
theorem resolve_setEntry_avoiding
    (forest : Forest look root)
    (leads : resolve look root parent = some node)
    (child : Option D)
    (avoids : ¬parent ++ [name] <+: path) :
    resolve (setEntry look node name child) root path =
      resolve look root path := by
  refine resolve_congr fun first other rest middle split toMiddle => ?_
  refine if_neg ?_
  rintro ⟨sameNode, sameName⟩
  rw [sameNode] at toMiddle
  refine avoids ⟨rest, ?_⟩
  rw [split, sameName, forest.resolve_unique leads toMiddle, List.append_assoc]
  rfl

/-- Paths through the entry. -/
theorem resolve_setEntry_through
    (forest : Forest look root)
    (leads : resolve look root parent = some node)
    (child : Option D)
    (rest : List N) :
    resolve (setEntry look node name child) root (parent ++ name :: rest) =
      child.bind fun next =>
        resolve (setEntry look node name child) next rest := by
  have toNode : resolve (setEntry look node name child) root parent =
      some node := by
    rw [resolve_setEntry_avoiding forest leads child, leads]
    intro longer
    have length := longer.length_le
    rw [List.length_append, List.length_singleton] at length
    omega
  rw [resolve_append, toNode, Option.bind_some, resolve, setEntry_self]

/-- Replacing a node without children, if any, by another one or by none changes
what one path leads to. -/
theorem resolve_setEntry_leaf
    {child : Option D}
    (forest : Forest look root)
    (leads : resolve look root parent = some node)
    (before : ∀ old, look node name = some old →
      ∀ other, look old other = none)
    (after : ∀ new, child = some new → new ≠ node ∧
      ∀ other, look new other = none)
    (path : List N) :
    resolve (setEntry look node name child) root path =
      if path = parent ++ [name] then child else resolve look root path := by
  by_cases through : parent ++ [name] <+: path
  · obtain ⟨rest, rfl⟩ := through
    rw [List.append_assoc, List.singleton_append,
      resolve_setEntry_through forest leads]
    cases rest with
    | nil =>
        rw [if_pos rfl]
        cases child with
        | none => rfl
        | some new => rfl
    | cons next more =>
        have longer : parent ++ name :: next :: more ≠ parent ++ [name] := by
          intro same
          cases List.append_cancel_left same
        have gone : child.bind (fun new => resolve
            (setEntry look node name child) new (next :: more)) = none := by
          cases child with
          | none => rfl
          | some new =>
              obtain ⟨differ, childless⟩ := after new rfl
              refine resolve_childless (fun other => ?_) next more
              rw [setEntry, if_neg fun both => differ both.1]
              exact childless other
        rw [if_neg longer, gone, resolve_append, leads, Option.bind_some, resolve]
        cases old : look node name with
        | none => rfl
        | some child' =>
            exact (resolve_childless (before child' old) next more).symm
  · rw [resolve_setEntry_avoiding forest leads _ through, if_neg]
    rintro rfl
    exact through (List.prefix_refl _)

/-! ## Forests -/

/-- Removing an entry. -/
theorem Forest.setEntry_none
    (forest : Forest look root) :
    Forest (setEntry look node name none) root := by
  have older : ∀ parent other child,
      setEntry look node name none parent other = some child →
      look parent other = some child := by
    intro parent other child found
    rw [setEntry] at found
    split at found
    · cases found
    · exact found
  refine ⟨?_, ?_⟩
  · intro parent other first second child found found'
    exact forest.once parent other first second child (older _ _ _ found)
      (older _ _ _ found')
  · intro parent other found
    exact forest.top parent other (older _ _ _ found)

/-- An entry for a node that is a child nowhere else. -/
theorem Forest.setEntry_some
    {child : D}
    (forest : Forest look root)
    (notRoot : child ≠ root)
    (nowhere : ∀ parent other, look parent other = some child →
      parent = node ∧ other = name) :
    Forest (setEntry look node name (some child)) root := by
  have cases : ∀ parent other found,
      setEntry look node name (some child) parent other = some found →
      (parent = node ∧ other = name ∧ found = child) ∨
        (¬(parent = node ∧ other = name) ∧
          look parent other = some found) := by
    intro parent other found isFound
    rw [setEntry] at isFound
    split at isFound
    · next here =>
        exact Or.inl ⟨here.1, here.2, (Option.some.inj isFound).symm⟩
    · next elsewhere => exact Or.inr ⟨elsewhere, isFound⟩
  refine ⟨?_, ?_⟩
  · intro parent other first second found isFound isFound'
    rcases cases _ _ _ isFound with ⟨here, named, isChild⟩ | ⟨there, old⟩
    · rcases cases _ _ _ isFound' with ⟨here', named', _⟩ | ⟨there', old'⟩
      · exact ⟨here.trans here'.symm, named.trans named'.symm⟩
      · rw [isChild] at old'
        exact absurd (nowhere _ _ old') there'
    · rcases cases _ _ _ isFound' with ⟨_, _, isChild'⟩ | ⟨_, old'⟩
      · rw [isChild'] at old
        exact absurd (nowhere _ _ old) there
      · exact forest.once parent other first second found old old'
  · intro parent other isRoot
    rcases cases _ _ _ isRoot with ⟨_, _, isChild⟩ | ⟨_, old⟩
    · exact notRoot isChild.symm
    · exact forest.top parent other old

/-! ## Moving an entry -/

/-- What the paths lead to after what is at one path was moved to another. -/
def moved {E : Type} (tree : List N → Option E) (source target path : List N) :
    Option E :=
  if target <+: path then tree (source ++ path.drop target.length)
  else if source <+: path then none
  else tree path

/-- The entry of one name is moved to another one. -/
def moveEntry (look : D → N → Option D) (origin : D) (name : N) (place : D)
    (name' : N) (child : D) : D → N → Option D :=
  setEntry (setEntry look place name' (some child)) origin name none

end Entry

section Move

/-- A part of the tree may be moved to where it is not below itself. -/
structure Moves (look : D → N → Option D) (root : D)
    (source : List N) (origin : D) (name : N)
    (target : List N) (place : D) (name' : N) (child : D) : Prop where
  forest : Forest look root
  toSource : resolve look root source = some origin
  toTarget : resolve look root target = some place
  entry : look origin name = some child
  differ : source ++ [name] ≠ target ++ [name']
  notBelow : ¬source ++ [name] <+: target ++ [name']

theorem Moves.apart
    (moves : Moves look root source origin name target place name' child) :
    ¬(place = origin ∧ name' = name) := by
  rintro ⟨sameNode, sameName⟩
  have toTarget := moves.toTarget
  rw [sameNode] at toTarget
  refine moves.differ ?_
  rw [moves.forest.resolve_unique moves.toSource toTarget, sameName]

variable [DecidableEq D] [DecidableEq N] {origin place child : D}
  {name name' : N} {source target : List N}

/-- Entries other than the two. -/
theorem moveEntry_of_ne
    {parent : D}
    {other : N}
    (notSource : ¬(parent = origin ∧ other = name))
    (notTarget : ¬(parent = place ∧ other = name')) :
    moveEntry look origin name place name' child parent other =
      look parent other := by
  rw [moveEntry, setEntry, if_neg notSource, setEntry, if_neg notTarget]

theorem moveEntry_source :
    moveEntry look origin name place name' child origin name = none :=
  setEntry_self none

theorem Moves.entry_target
    (moves : Moves look root source origin name target place name' child) :
    moveEntry look origin name place name' child place name' = some child := by
  rw [moveEntry, setEntry, if_neg moves.apart, setEntry_self]

/-- Paths that pass neither of the two entries. -/
theorem Moves.resolve_avoiding
    {path : List N}
    (moves : Moves look root source origin name target place name' child)
    (notSource : ¬source ++ [name] <+: path)
    (notTarget : ¬target ++ [name'] <+: path) :
    resolve (moveEntry look origin name place name' child) root path =
      resolve look root path := by
  refine resolve_congr fun first other rest middle split toMiddle => ?_
  refine moveEntry_of_ne ?_ ?_
  · rintro ⟨sameNode, sameName⟩
    rw [sameNode] at toMiddle
    refine notSource ⟨rest, ?_⟩
    rw [split, sameName,
      moves.forest.resolve_unique moves.toSource toMiddle, List.append_assoc]
    rfl
  · rintro ⟨sameNode, sameName⟩
    rw [sameNode] at toMiddle
    refine notTarget ⟨rest, ?_⟩
    rw [split, sameName,
      moves.forest.resolve_unique moves.toTarget toMiddle, List.append_assoc]
    rfl

/-- Below what is moved, nothing changes. -/
theorem Moves.resolve_child
    (moves : Moves look root source origin name target place name' child)
    (path : List N) :
    resolve (moveEntry look origin name place name' child) child path =
      resolve look child path := by
  have toChild : resolve look root (source ++ [name]) = some child := by
    rw [resolve_concat, moves.toSource, Option.bind_some, moves.entry]
  refine resolve_congr fun first other rest middle split toMiddle => ?_
  have below : resolve look root (source ++ [name] ++ first) = some middle := by
    rw [resolve_append, toChild, Option.bind_some, toMiddle]
  refine moveEntry_of_ne ?_ ?_
  · rintro ⟨sameNode, _⟩
    rw [sameNode] at below
    have same := moves.forest.resolve_unique moves.toSource below
    have length := congrArg List.length same
    rw [List.length_append, List.length_append, List.length_singleton] at length
    omega
  · rintro ⟨sameNode, _⟩
    rw [sameNode] at below
    have same := moves.forest.resolve_unique moves.toTarget below
    refine moves.notBelow ?_
    rw [same, List.append_assoc]
    exact List.prefix_append _ _

/-- Moving an entry moves all paths through it. -/
theorem Moves.resolve_moveEntry
    (moves : Moves look root source origin name target place name' child)
    (path : List N) :
    resolve (moveEntry look origin name place name' child) root path =
      moved (resolve look root) (source ++ [name]) (target ++ [name']) path := by
  rw [moved]
  by_cases throughTarget : target ++ [name'] <+: path
  · rw [if_pos throughTarget]
    obtain ⟨rest, rfl⟩ := throughTarget
    have toTarget : resolve (moveEntry look origin name place name' child) root
        target = some place := by
      rw [moves.resolve_avoiding, moves.toTarget]
      · exact fun early => moves.notBelow (early.trans (List.prefix_append _ _))
      · intro longer
        have length := longer.length_le
        rw [List.length_append, List.length_singleton] at length
        omega
    rw [List.drop_left, resolve_append, resolve_concat, toTarget,
      Option.bind_some, moves.entry_target, Option.bind_some,
      moves.resolve_child, resolve_append, resolve_concat, moves.toSource,
      Option.bind_some, moves.entry, Option.bind_some]
  · rw [if_neg throughTarget]
    by_cases throughSource : source ++ [name] <+: path
    · rw [if_pos throughSource]
      obtain ⟨rest, rfl⟩ := throughSource
      have toSource : resolve (moveEntry look origin name place name' child) root
          source = some origin := by
        rw [moves.resolve_avoiding, moves.toSource]
        · intro longer
          have length := longer.length_le
          rw [List.length_append, List.length_singleton] at length
          omega
        · intro early
          refine throughTarget (early.trans ?_)
          rw [List.append_assoc]
          exact List.prefix_append _ _
      rw [resolve_append, resolve_concat, toSource, Option.bind_some,
        moveEntry_source, Option.bind_none]
    · rw [if_neg throughSource]
      exact moves.resolve_avoiding throughSource throughTarget

theorem Moves.forest_moveEntry
    (moves : Moves look root source origin name target place name' child) :
    Forest (moveEntry look origin name place name' child) root := by
  have cases : ∀ parent other found,
      moveEntry look origin name place name' child parent other = some found →
      (parent = place ∧ other = name' ∧ found = child) ∨
        (¬(parent = origin ∧ other = name) ∧
          look parent other = some found) := by
    intro parent other found isFound
    rw [moveEntry, setEntry] at isFound
    split at isFound
    · cases isFound
    · next notSource =>
        rw [setEntry] at isFound
        split at isFound
        · next here =>
            exact Or.inl ⟨here.1, here.2, (Option.some.inj isFound).symm⟩
        · exact Or.inr ⟨notSource, isFound⟩
  have onlySource : ∀ parent other, look parent other = some child →
      parent = origin ∧ other = name := fun parent other found =>
    moves.forest.once parent origin other name child found moves.entry
  refine ⟨?_, ?_⟩
  · intro parent other first second found isFound isFound'
    rcases cases _ _ _ isFound with ⟨here, named, isChild⟩ | ⟨there, old⟩
    · rcases cases _ _ _ isFound' with ⟨here', named', _⟩ | ⟨there', old'⟩
      · exact ⟨here.trans here'.symm, named.trans named'.symm⟩
      · rw [isChild] at old'
        exact absurd (onlySource _ _ old') there'
    · rcases cases _ _ _ isFound' with ⟨_, _, isChild'⟩ | ⟨_, old'⟩
      · rw [isChild'] at old
        exact absurd (onlySource _ _ old) there
      · exact moves.forest.once parent other first second found old old'
  · intro parent other isRoot
    rcases cases _ _ _ isRoot with ⟨_, _, isChild⟩ | ⟨_, old⟩
    · have entry := moves.entry
      rw [← isChild] at entry
      exact moves.forest.top origin name entry
    · exact moves.forest.top parent other old

end Move

end NameTree
end Gdpfs
