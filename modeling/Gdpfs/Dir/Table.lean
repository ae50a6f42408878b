import Gdpfs.Dir.Frame

/-!
# Tables of names

What adding and removing names does to the slots of a directory file, and what
the functions report about it.
-/

namespace Gdpfs
namespace Dir

open Log File Effect

/-- Reads and writes succeed. -/
structure Serves (env : DirEnv) : Prop where
  reads : ∀ tick, env.chance .read tick = true
  writes : ∀ tick, env.chance .write tick = true

/-- A directory in the root position with the given contents, and a handle on
it. -/
def oneDirectory (contents : List UInt8) : Fs where
  store :=
    { nodes := fun _ => some ⟨.dir, rootDefaultPerm, contents⟩
      fhs := fun _ => some DirEnv.calm.rootLogGname
      created := 0 }
  tick := 0
  copies := []

theorem serves_calm : Serves DirEnv.calm :=
  ⟨fun _ => rfl, fun _ => rfl⟩

/-- A name is in a directory file. -/
def InUse (contents name : List UInt8) : Prop :=
  ∃ ent ∈ slots contents, ent.isNamed name = true

/-- A search finds the first entry with a name, or the first free slot of a file
of whole entries. -/
theorem findIn_cases (contents name : List UInt8) :
    (∃ before ent after, slots contents = before ++ ent :: after ∧
      ent.isNamed name = true ∧
      (∀ other ∈ before, other.isNamed name = false) ∧
      findIn contents name = .fileExists (physSize * before.length) ent) ∨
    (¬InUse contents name ∧ contents.length % physSize ≠ 0 ∧
      findIn contents name = .corrupt) ∨
    (¬InUse contents name ∧ contents.length % physSize = 0 ∧
      findIn contents name =
        .free (physSize * (slots contents).findIdx PhysEnt.isFree)) := by
  rcases scanOf_findIn contents name with
    ⟨before, ent, after, split, named, others, found⟩ | ⟨others, found⟩
  · rw [Nat.zero_add] at found
    exact Or.inl ⟨before, ent, after, split, named, others, found⟩
  · have absent : ¬InUse contents name := by
      rintro ⟨ent, member, named⟩
      rw [others ent member] at named
      cases named
    refine Or.inr ?_
    by_cases whole : contents.length % physSize = 0
    · rw [decide_eq_true whole, if_pos rfl, Nat.zero_add] at found
      exact Or.inr ⟨absent, whole, found⟩
    · rw [decide_eq_false whole, if_neg Bool.false_ne_true] at found
      exact Or.inl ⟨absent, whole, found⟩

/-- Writing an entry over one that was found. -/
theorem slots_replace
    {contents : List UInt8}
    (split : slots contents = before ++ ent :: after)
    (new : PhysEnt) :
    slots (overwrite contents (physSize * before.length) new.bytes) =
      before ++ new :: after := by
  have within : before.length < contents.length / physSize := by
    rw [← length_slots, split, List.length_append, List.length_cons]
    omega
  rw [slots_overwrite contents new (Or.inl within), split, List.take_left,
    List.drop_append, List.drop_eq_nil_of_le (Nat.le_succ _),
    Nat.add_sub_cancel_left]
  rfl

/-- Writing an entry over the first free slot, or behind the last entry. -/
theorem slots_insert
    {contents : List UInt8}
    (whole : contents.length % physSize = 0)
    (new : PhysEnt) :
    slots (overwrite contents
        (physSize * (slots contents).findIdx PhysEnt.isFree) new.bytes) =
      (slots contents).take ((slots contents).findIdx PhysEnt.isFree) ++
        new :: (slots contents).drop
          ((slots contents).findIdx PhysEnt.isFree + 1) := by
  have most : (slots contents).findIdx PhysEnt.isFree ≤
      (slots contents).length := List.findIdx_le_length
  refine slots_overwrite contents new ?_
  rw [length_slots] at most
  rw [physSize] at whole most ⊢
  omega

theorem whole_overwrite
    {contents : List UInt8}
    (whole : contents.length % physSize = 0)
    (index : Nat)
    (new : PhysEnt) :
    (overwrite contents (physSize * index) new.bytes).length % physSize = 0 := by
  rw [length_overwrite_slot]
  rw [physSize] at whole ⊢
  omega

/-- The entry after its removal. -/
def PhysEnt.unused (ent : PhysEnt) : PhysEnt := { ent with inUse := false }

theorem PhysEnt.unused_ne
    {ent : PhysEnt}
    {name : List UInt8}
    (named : ent.isNamed name = true) :
    ent ≠ ent.unused := by
  intro same
  rw [same] at named
  cases named

theorem isOk_emptyStat
    (passed : (emptyStat contents).isOk = true) :
    emptyStat contents = .ok := by
  rw [emptyStat] at passed ⊢
  cases first : firstIn contents with
  | eof => rfl
  | ok name offset =>
      rw [first] at passed
      exact absurd passed Bool.false_ne_true
  | corrupt =>
      rw [first] at passed
      exact absurd passed Bool.false_ne_true

/-- The check before a removal has one status that is OK. -/
theorem isOk_removeStat
    (passed : (removeStat stored type).isOk = true) :
    removeStat stored type = .ok := by
  rw [removeStat.eq_def] at passed ⊢
  split
  · rfl
  · next known =>
      rw [if_neg known] at passed
      cases stored with
      | none => exact absurd passed Bool.false_ne_true
      | some node =>
          dsimp only at passed ⊢
          split
          · next differs =>
              rw [if_pos differs] at passed
              exact absurd passed Bool.false_ne_true
          · next typed =>
              rw [if_neg typed] at passed
              split
              · next isDir =>
                  rw [if_pos isDir] at passed
                  exact isOk_emptyStat passed
              · rfl

theorem Checks.of_isOk
    (checks : Checks env store expected stat)
    (passed : stat.isOk = true) :
    stat = expected := by
  rcases checks with same | ⟨fails, _⟩
  · exact same
  · rw [passed] at fails
    cases fails

section Functions

variable {env : DirEnv} {fs : Fs} {fh : Nat} {gname : GdpName} {node : Node}
  {name : List UInt8} {type : FileType}

/-- `gdpfs_dir_remove` of a name that is not in the directory returns OK. -/
theorem ensures_gdpfsDirRemove_free
    (reads : ∀ tick, env.chance .read tick = true)
    (opened : OpenOn fs fh gname node)
    (absent : findIn node.contents name = .free offset) :
    Ensures (gdpfsDirRemove env fh name type)
      (fun stat next => stat = .ok ∧ next.store = fs.store) fs := by
  rw [gdpfsDirRemove]
  refine (ensures_findInsertOffset reads opened name).bind ?_
  rintro _ next ⟨rfl, store, _⟩
  rw [absent]
  exact ensures_pure.mpr ⟨rfl, store⟩

theorem ensures_gdpfsDirRemove_corrupt
    (reads : ∀ tick, env.chance .read tick = true)
    (opened : OpenOn fs fh gname node)
    (corrupt : findIn node.contents name = .corrupt) :
    Ensures (gdpfsDirRemove env fh name type)
      (fun stat next => stat = .corrupt ∧ next.store = fs.store) fs := by
  rw [gdpfsDirRemove]
  refine (ensures_findInsertOffset reads opened name).bind ?_
  rintro _ next ⟨rfl, store, _⟩
  rw [corrupt]
  exact ensures_pure.mpr ⟨rfl, store⟩

/-- `gdpfs_dir_remove` of a name in the directory: the entry is marked unused if
the check of the file succeeds. -/
theorem ensures_gdpfsDirRemove_exists
    (reads : ∀ tick, env.chance .read tick = true)
    (writes : ∀ tick, env.chance .write tick = true)
    (opened : OpenOn fs fh gname node)
    (found : findIn node.contents name = .fileExists offset ent) :
    Ensures (gdpfsDirRemove env fh name type)
      (fun stat next =>
        Checks env fs.store (removeStat (fs.store.nodes ent.gname) type) stat ∧
        next.store =
          if stat.isOk then
            fs.store.setNode gname (node.withContents
              (overwrite node.contents offset ent.unused.bytes))
          else fs.store) fs := by
  rw [gdpfsDirRemove]
  refine (ensures_findInsertOffset reads opened name).bind ?_
  rintro _ between ⟨rfl, store, _⟩
  rw [found]
  refine (ensures_removable reads between ent.gname type).bind ?_
  rintro check next ⟨same, checks⟩
  rw [store] at same checks
  split
  · next passed =>
      have stays := opened.congr same
      rw [ensures_run_bind (stays.run_gdpfsFileWrite writes _ _), same]
      refine ensures_pure.mpr ⟨?_, ?_⟩
      · rw [PhysEnt.length_bytes]
        have expected := checks.of_isOk passed
        rw [expected] at passed
        exact Or.inl (isOk_removeStat passed).symm
      · rw [PhysEnt.length_bytes]
        exact rfl
  · next refused =>
      rw [Bool.not_eq_true] at refused
      refine ensures_pure.mpr ⟨checks, ?_⟩
      rw [refused, if_neg Bool.false_ne_true]
      exact same

end Functions

end Dir
end Gdpfs
