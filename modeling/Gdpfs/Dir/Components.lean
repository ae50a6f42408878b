import Gdpfs.Dir.Ops

/-!
# Components of a path

A path is read as the list of its parts between slashes that are not empty.
-/

namespace Gdpfs
namespace Dir

open Log File Effect

theorem component_slash (rest : List UInt8) :
    component (slash :: rest) = [] := by
  rw [component, List.takeWhile_cons_of_neg]
  exact fun differs => of_decide_eq_true differs rfl

theorem component_cons
    (differs : byte ≠ slash)
    (rest : List UInt8) :
    component (byte :: rest) = byte :: component rest := by
  rw [component, List.takeWhile_cons_of_pos]
  · rfl
  · exact decide_eq_true differs

theorem afterComponent_slash (rest : List UInt8) :
    afterComponent (slash :: rest) = slash :: rest := by
  rw [afterComponent, List.dropWhile_cons_of_neg]
  exact fun differs => of_decide_eq_true differs rfl

theorem afterComponent_cons
    (differs : byte ≠ slash)
    (rest : List UInt8) :
    afterComponent (byte :: rest) = afterComponent rest := by
  rw [afterComponent, List.dropWhile_cons_of_pos]
  · rfl
  · exact decide_eq_true differs

/-- Put a component in front of others unless it is empty. -/
def flush (parts : List UInt8 × List (List UInt8)) : List (List UInt8) :=
  if parts.1.isEmpty then parts.2 else parts.1 :: parts.2

/-- The bytes of a path before its first slash, and the components behind. -/
def splitPath : List UInt8 → List UInt8 × List (List UInt8)
  | [] => ([], [])
  | byte :: rest =>
      if byte = slash then ([], flush (splitPath rest))
      else (byte :: (splitPath rest).1, (splitPath rest).2)

/-- The components of a path. -/
def components (path : List UInt8) : List (List UInt8) :=
  flush (splitPath path)

@[simp] theorem components_nil : components [] = [] := rfl

@[simp] theorem components_slash (rest : List UInt8) :
    components (slash :: rest) = components rest := by
  rw [components, splitPath, if_pos rfl]
  rfl

theorem splitPath_fst (path : List UInt8) :
    (splitPath path).1 = component path := by
  induction path with
  | nil => rfl
  | cons byte rest inductionHypothesis =>
      rw [splitPath]
      by_cases isSlash : byte = slash
      · rw [if_pos isSlash, isSlash, component_slash]
      · rw [if_neg isSlash, component_cons isSlash, inductionHypothesis]

theorem splitPath_snd (path : List UInt8) :
    (splitPath path).2 = components (afterComponent path) := by
  induction path with
  | nil => rfl
  | cons byte rest inductionHypothesis =>
      rw [splitPath]
      by_cases isSlash : byte = slash
      · rw [if_pos isSlash, isSlash, afterComponent_slash, components_slash]
        rfl
      · rw [if_neg isSlash, afterComponent_cons isSlash, inductionHypothesis]

/-- A path that starts with a component. -/
theorem components_cons
    (differs : byte ≠ slash)
    (rest : List UInt8) :
    components (byte :: rest) =
      component (byte :: rest) :: components (afterComponent (byte :: rest)) := by
  rw [components, flush, splitPath_fst, splitPath_snd, component_cons differs]
  rfl

theorem length_afterComponent (path : List UInt8) :
    (afterComponent path).length ≤ path.length :=
  (List.dropWhile_suffix _).length_le

/-! ## Names and their spelling -/

/-- A name that a path may have as a component. -/
structure Name where
  bytes : List UInt8
  nonempty : bytes ≠ []
  short : bytes.length ≤ nameMaxGdpfs
  noNul : 0 ∉ bytes
  noSlash : slash ∉ bytes
  deriving DecidableEq

/-- The names of a path, each behind a slash. -/
def spellNames : List Name → List UInt8
  | [] => []
  | name :: rest => slash :: (name.bytes ++ spellNames rest)

/-- The path with the given names. -/
def spell (path : List Name) : List UInt8 :=
  if path = [] then [slash] else spellNames path

theorem component_append
    {name : List UInt8}
    (noSlash : slash ∉ name)
    (rest : List Name) :
    component (name ++ spellNames rest) = name := by
  have whole : ∀ byte ∈ name, decide (byte ≠ slash) = true :=
    fun byte member => decide_eq_true fun isSlash => noSlash (isSlash ▸ member)
  rw [component, List.takeWhile_append_of_pos whole]
  cases rest with
  | nil => exact List.append_nil name
  | cons next more =>
      have ends : (spellNames (next :: more)).takeWhile (· ≠ slash) = [] :=
        component_slash _
      rw [ends, List.append_nil]

theorem afterComponent_append
    {name : List UInt8}
    (noSlash : slash ∉ name)
    (rest : List Name) :
    afterComponent (name ++ spellNames rest) = spellNames rest := by
  have whole : ∀ byte ∈ name, decide (byte ≠ slash) = true :=
    fun byte member => decide_eq_true fun isSlash => noSlash (isSlash ▸ member)
  rw [afterComponent, List.dropWhile_append_of_pos whole]
  cases rest with
  | nil => rfl
  | cons next more => exact afterComponent_slash _

/-- Reading a path gives its names back. -/
theorem components_spellNames (path : List Name) :
    components (spellNames path) = path.map Name.bytes := by
  induction path with
  | nil => rfl
  | cons name rest inductionHypothesis =>
      rw [spellNames, components_slash, List.map_cons]
      cases isBytes : name.bytes with
      | nil => exact absurd isBytes name.nonempty
      | cons byte more =>
          have differs : byte ≠ slash := by
            intro isSlash
            refine name.noSlash ?_
            rw [isBytes, isSlash]
            exact List.mem_cons_self
          have noSlash := name.noSlash
          rw [isBytes] at noSlash
          rw [List.cons_append, components_cons differs, ← List.cons_append,
            component_append noSlash, afterComponent_append noSlash,
            inductionHypothesis]

theorem components_spell (path : List Name) :
    components (spell path) = path.map Name.bytes := by
  rw [spell]
  split
  · next isRoot =>
      rw [isRoot]
      rfl
  · exact components_spellNames path

theorem spellNames_append (first second : List Name) :
    spellNames (first ++ second) = spellNames first ++ spellNames second := by
  induction first with
  | nil => rfl
  | cons name rest inductionHypothesis =>
      rw [List.cons_append, spellNames, spellNames, inductionHypothesis,
        List.cons_append, List.append_assoc]

theorem spell_concat (path : List Name) (name : Name) :
    spell (path ++ [name]) = spellNames path ++ slash :: name.bytes := by
  rw [spell, if_neg (List.append_ne_nil_of_right_ne_nil _
    (List.cons_ne_nil name [])), spellNames_append, spellNames, spellNames,
    List.append_nil]

/-- Every path starts with a slash. -/
theorem spell_head (path : List Name) : ∃ rest, spell path = slash :: rest := by
  cases path with
  | nil => exact ⟨[], rfl⟩
  | cons name more => exact ⟨name.bytes ++ spellNames more, rfl⟩

/-- The last byte of a name. -/
theorem Name.ends (name : Name) :
    ∃ front byte, name.bytes = front ++ [byte] ∧ byte ≠ slash := by
  have isLast := List.dropLast_concat_getLast name.nonempty
  refine ⟨_, _, isLast.symm, fun isSlash => name.noSlash ?_⟩
  rw [← isSlash]
  exact List.getLast_mem name.nonempty

theorem rdropWhile_slash_concat
    (front : List UInt8)
    (differs : byte ≠ slash) :
    (front ++ [byte]).rdropWhile (· = slash) = front ++ [byte] :=
  List.rdropWhile_concat_neg _ _ _
    fun isSlash => differs (of_decide_eq_true isSlash)

/-- A spelled path has no slash at its end, unless it is the root. -/
theorem rdropWhile_slash_spellNames (path : List Name) :
    (spellNames path).rdropWhile (· = slash) = spellNames path := by
  cases path using List.reverseRecOn with
  | nil => rfl
  | append_singleton path name =>
      obtain ⟨front, byte, isBytes, differs⟩ := name.ends
      rw [spellNames_append, spellNames, spellNames, List.append_nil, isBytes,
        ← List.cons_append, ← List.append_assoc,
        rdropWhile_slash_concat _ differs]

/-- A path read from its end. -/
theorem reverse_name
    (front : List UInt8)
    (name : Name) :
    (front ++ slash :: name.bytes).reverse =
      name.bytes.reverse ++ slash :: front.reverse := by
  rw [List.reverse_append, List.reverse_cons, List.append_assoc,
    List.singleton_append]

theorem Name.reverse_noSlash (name : Name) :
    ∀ byte ∈ name.bytes.reverse, decide (byte ≠ slash) = true := by
  intro byte member
  refine decide_eq_true fun isSlash => name.noSlash ?_
  rw [← isSlash]
  exact List.mem_reverse.mp member

theorem rdropWhile_name
    (front : List UInt8)
    (name : Name) :
    (front ++ slash :: name.bytes).rdropWhile (· ≠ slash) =
      front ++ [slash] := by
  rw [List.rdropWhile, reverse_name,
    List.dropWhile_append_of_pos name.reverse_noSlash,
    List.dropWhile_cons_of_neg (by decide), List.reverse_cons,
    List.reverse_reverse]

theorem rtakeWhile_name
    (front : List UInt8)
    (name : Name) :
    (front ++ slash :: name.bytes).rtakeWhile (· ≠ slash) = name.bytes := by
  rw [List.rtakeWhile, reverse_name,
    List.takeWhile_append_of_pos name.reverse_noSlash,
    List.takeWhile_cons_of_neg (by decide), List.append_nil,
    List.reverse_reverse]

theorem rdropWhile_slash_spell (path : List Name) (name : Name) :
    (spell (path ++ [name])).rdropWhile (· = slash) =
      spellNames path ++ slash :: name.bytes := by
  have ends := rdropWhile_slash_spellNames (path ++ [name])
  rw [spellNames_append, spellNames, spellNames, List.append_nil] at ends
  rw [spell_concat, ends]

theorem basename_spell (path : List Name) (name : Name) :
    basename (spell (path ++ [name])) = name.bytes := by
  rw [basename, rdropWhile_slash_spell, rtakeWhile_name]
  refine if_neg ?_
  rw [List.isEmpty_iff]
  exact List.append_ne_nil_of_right_ne_nil _ (List.cons_ne_nil _ _)

theorem dirname_spell (path : List Name) (name : Name) :
    dirname (spell (path ++ [name])) = spell path := by
  rw [dirname, rdropWhile_slash_spell, rdropWhile_name,
    List.rdropWhile_concat_pos _ _ _ (by decide), rdropWhile_slash_spellNames]
  cases path with
  | nil => rfl
  | cons first rest => rfl

/-- The last byte of a path with a name. -/
theorem getLast?_spell (path : List Name) (name : Name) :
    (spell (path ++ [name])).getLast? ≠ some slash := by
  obtain ⟨front, byte, isBytes, differs⟩ := name.ends
  rw [spell_concat, isBytes, ← List.cons_append, ← List.append_assoc,
    List.getLast?_concat]
  exact fun isSlash => differs (Option.some.inj isSlash)

end Dir
end Gdpfs
