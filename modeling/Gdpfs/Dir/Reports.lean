import Gdpfs.Dir.Fuse
import Gdpfs.Dir.Paths

/-!
# What directory operations report

A removal should return OK exactly if it removed an entry, and a creation exactly
if it added one.
-/

namespace Gdpfs
namespace Dir

open Log File Effect

/-- An entry with the name was in the first file and is unused in the second,
which has the same other entries. -/
def Removed (before after name : List UInt8) : Prop :=
  ∃ first ent rest, slots before = first ++ ent :: rest ∧
    ent.isNamed name = true ∧ slots after = first ++ ent.unused :: rest

/-- `gdpfs_dir_remove` returns OK exactly if it removed an entry, and otherwise
changes nothing. -/
def RemoveReports (env : DirEnv) (fs : Fs) (fh : Nat) (dir : GdpName)
    (node : Node) (name : List UInt8) (type : FileType) : Prop :=
  Ensures (gdpfsDirRemove env fh name type)
    (fun stat next => ∃ after, next.store.nodes dir = some after ∧
      (stat.isOk = true ↔ Removed node.contents after.contents name) ∧
      (stat.isOk = false → next.store = fs.store)) fs

/-- The name is in the directory, or the directory is found to be corrupt. -/
def Removable (contents name : List UInt8) : Prop :=
  InUse contents name ∨ contents.length % physSize ≠ 0

theorem Removed.inUse
    (removed : Removed before after name) :
    InUse before name := by
  obtain ⟨first, ent, rest, split, named, _⟩ := removed
  refine ⟨ent, ?_, named⟩
  rw [split]
  exact List.mem_append_right _ List.mem_cons_self

theorem not_removed_self (contents name : List UInt8) :
    ¬Removed contents contents name := by
  rintro ⟨first, ent, rest, split, named, same⟩
  rw [split] at same
  have heads := List.cons.inj (List.append_cancel_left same)
  exact PhysEnt.unused_ne named heads.1

section Remove

variable {env : DirEnv} {fs : Fs} {fh : Nat} {dir : GdpName} {node : Node}
  {name : List UInt8} {type : FileType}

theorem nodes_setNode (store : Store) (gname : GdpName) (node : Node) :
    (store.setNode gname node).nodes gname = some node :=
  Function.update_self _ _ _

/-- `gdpfs_dir_remove` of a name that it finds, or in a corrupt directory. -/
theorem removeReports_of_removable
    (serves : Serves env)
    (opened : OpenOn fs fh dir node)
    (removable : Removable node.contents name) :
    RemoveReports env fs fh dir node name type := by
  rcases findIn_cases node.contents name with
    ⟨before, ent, after, split, named, _, found⟩ | ⟨_, _, corrupt⟩ |
    ⟨absent, whole, _⟩
  · refine (ensures_gdpfsDirRemove_exists serves.reads serves.writes opened
      found).mono ?_
    rintro stat next ⟨_, store⟩
    cases passed : stat.isOk with
    | false =>
        rw [passed, if_neg Bool.false_ne_true] at store
        refine ⟨node, ?_, ?_, fun _ => store⟩
        · rw [store]
          exact opened.node
        · exact iff_of_false Bool.false_ne_true (not_removed_self _ _)
    | true =>
        rw [passed, if_pos rfl] at store
        refine ⟨node.withContents (overwrite node.contents
            (physSize * before.length) ent.unused.bytes), ?_, ?_,
          fun fails => absurd fails.symm Bool.false_ne_true⟩
        · rw [store]
          exact nodes_setNode _ _ _
        · exact iff_of_true rfl
            ⟨before, ent, after, split, named, slots_replace split _⟩
  · refine (ensures_gdpfsDirRemove_corrupt serves.reads opened corrupt).mono ?_
    rintro _ next ⟨rfl, store⟩
    refine ⟨node, ?_, ?_, fun _ => store⟩
    · rw [store]
      exact opened.node
    · exact iff_of_false Bool.false_ne_true (not_removed_self _ _)
  · rcases removable with present | torn
    · exact absurd present absent
    · exact absurd whole torn

/-- A removal reports what it did exactly if the name is in the directory or the
directory is corrupt. -/
theorem removeReports_iff
    (serves : Serves env)
    (opened : OpenOn fs fh dir node) :
    RemoveReports env fs fh dir node name type ↔
      Removable node.contents name := by
  refine ⟨fun reports => ?_, removeReports_of_removable serves opened⟩
  by_contra absent
  obtain ⟨notInUse, whole⟩ := not_or.mp absent
  rcases findIn_cases node.contents name with
    ⟨before, ent, after, split, named, _, _⟩ | ⟨_, torn, _⟩ | ⟨_, _, free⟩
  · refine notInUse ⟨ent, ?_, named⟩
    rw [split]
    exact List.mem_append_right _ List.mem_cons_self
  · exact whole torn
  · have removes : Ensures (gdpfsDirRemove env fh name type) _ fs :=
      ensures_gdpfsDirRemove_free serves.reads opened free
    obtain ⟨stat, next, run, isOk, _⟩ := removes
    obtain ⟨_, _, reported, _⟩ := (ensures_of_run run).mp reports
    exact notInUse (reported.mp (by rw [isOk]; rfl)).inUse

end Remove

/-! ## Operations on paths -/

/-- An operation returns 0 only if it removed an entry from the parent. -/
def RemovesOnSuccess (action : DirM (Except Errno Unit)) (fs : Fs)
    (filepath : List UInt8) (dir : GdpName) (node : Node) : Prop :=
  Ensures action
    (fun result next => result = .ok () →
      ∃ after, next.store.nodes dir = some after ∧
        Removed node.contents after.contents (basename filepath)) fs

section Parent

variable {env : DirEnv} {fs between : Fs} {filepath : List UInt8} {dirfh : Nat}
  {dir : GdpName} {node : Node}

/-- A removal by path, if the name is found or the parent is corrupt. -/
theorem removes_of_removable
    {type : FileType}
    (serves : Serves env)
    (parent : ParentOpened env fs filepath dirfh between dir node)
    (removable : Removable node.contents (basename filepath)) :
    Ensures (gdpfsDirRemoveFileAtPath env filepath type)
      (fun stat next => stat.isOk = true →
        ∃ after, next.store.nodes dir = some after ∧
          Removed node.contents after.contents (basename filepath)) fs := by
  refine (parent.ensures_gdpfsDirRemoveFileAtPath
    (removeReports_of_removable serves parent.opened removable)).mono ?_
  rintro stat _ ⟨middle, ⟨after, stored, reported, _⟩, rfl⟩ isOk
  exact ⟨after, stored, reported.mp isOk⟩

/-- A removal by path of a name that is not in the parent returns OK. -/
theorem remove_absent_isOk
    {type : FileType}
    (serves : Serves env)
    (parent : ParentOpened env fs filepath dirfh between dir node)
    (absent : ¬Removable node.contents (basename filepath)) :
    Ensures (gdpfsDirRemoveFileAtPath env filepath type)
      (fun stat _ => stat = .ok) fs := by
  obtain ⟨notInUse, whole⟩ := not_or.mp absent
  rcases findIn_cases node.contents (basename filepath) with
    ⟨before, ent, after, split, named, _, _⟩ | ⟨_, torn, _⟩ | ⟨_, _, free⟩
  · refine absurd ⟨ent, ?_, named⟩ notInUse
    rw [split]
    exact List.mem_append_right _ List.mem_cons_self
  · exact absurd torn whole
  · refine (parent.ensures_gdpfsDirRemoveFileAtPath
      (ensures_gdpfsDirRemove_free serves.reads parent.opened free)).mono ?_
    rintro stat _ ⟨middle, ⟨isOk, _⟩, rfl⟩
    exact isOk

/-- A removal by path whose status becomes the result of an operation. -/
theorem removesOnSuccess_iff
    {type : FileType}
    {finish : Stat → DirM (Except Errno Unit)}
    (serves : Serves env)
    (parent : ParentOpened env fs filepath dirfh between dir node)
    (finishes : ∀ stat last, Ensures (finish stat) (fun result next =>
      next = last ∧ (result = .ok () ↔ stat.isOk = true)) last) :
    RemovesOnSuccess (gdpfsDirRemoveFileAtPath env filepath type >>= finish) fs
        filepath dir node ↔
      Removable node.contents (basename filepath) := by
  constructor
  · intro removes
    by_contra absent
    have succeeds : Ensures
        (gdpfsDirRemoveFileAtPath env filepath type >>= finish)
        (fun result _ => result = .ok ()) fs := by
      refine (remove_absent_isOk serves parent absent).bind ?_
      rintro _ last rfl
      exact (finishes .ok last).mono fun result _ done => done.2.mpr rfl
    obtain ⟨result, next, run, isOk⟩ := succeeds
    obtain ⟨_, _, removed⟩ := (ensures_of_run run).mp removes isOk
    exact absent (Or.inl removed.inUse)
  · intro removable
    refine (removes_of_removable serves parent removable).bind ?_
    intro stat last removed
    refine (finishes stat last).mono ?_
    rintro result _ ⟨rfl, isOk⟩ returned
    exact removed (isOk.mp returned)

theorem gdpfsUnlink_removes_iff
    (serves : Serves env)
    (parent : ParentOpened env fs filepath dirfh between dir node) :
    RemovesOnSuccess (gdpfsUnlink env filepath) fs filepath dir node ↔
      Removable node.contents (basename filepath) := by
  rw [gdpfsUnlink, parent.nonempty, if_neg Bool.false_ne_true]
  refine removesOnSuccess_iff serves parent fun stat last => ?_
  cases passed : stat.isOk with
  | true => exact ensures_pure.mpr ⟨rfl, iff_of_true rfl rfl⟩
  | false =>
      refine ensures_pure.mpr ⟨rfl, iff_of_false ?_ Bool.false_ne_true⟩
      rintro ⟨⟩

theorem gdpfsRmdir_removes_iff
    (serves : Serves env)
    (parent : ParentOpened env fs filepath dirfh between dir node) :
    RemovesOnSuccess (gdpfsRmdir env filepath) fs filepath dir node ↔
      Removable node.contents (basename filepath) := by
  rw [gdpfsRmdir, parent.nonempty, if_neg Bool.false_ne_true]
  refine removesOnSuccess_iff serves parent fun stat last => ?_
  split
  · next notEmpty =>
      rw [notEmpty]
      refine ensures_pure.mpr ⟨rfl, iff_of_false ?_ Bool.false_ne_true⟩
      rintro ⟨⟩
  · cases passed : stat.isOk with
    | true => exact ensures_pure.mpr ⟨rfl, iff_of_true rfl rfl⟩
    | false =>
        refine ensures_pure.mpr ⟨rfl, iff_of_false ?_ Bool.false_ne_true⟩
        rintro ⟨⟩

end Parent

/-! ## Creation -/

/-- `gdpfs_dir_create_file_at_path` returns OK exactly if the name was not in the
parent and is there now, and otherwise leaves the parent alone.  It stores the
name of an existing file only where it was given a place for it. -/
def CreateReports (env : DirEnv) (fs : Fs) (filepath : List UInt8)
    (type : FileType) (stores : Bool) (perm : Nat) (dir : GdpName)
    (node : Node) : Prop :=
  Ensures (gdpfsDirCreateFileAtPath env filepath type stores perm)
    (fun created next => ∃ after, next.store.nodes dir = some after ∧
      (created.stat.isOk = true ↔
        ¬InUse node.contents (basename filepath) ∧
          InUse after.contents (basename filepath)) ∧
      (created.stat.isOk = false → after = node) ∧
      ∀ gname, created.existing = some gname → stores = true ∧
        ∃ ent ∈ slots node.contents,
          ent.isNamed (basename filepath) = true ∧ ent.gname = gname) fs

/-- If the name is in the directory then there is a place to store the name of
its file, and if it is not then it is not too long. -/
def Creatable (contents name : List UInt8) (stores : Bool) : Prop :=
  (InUse contents name → stores = true) ∧
    (¬InUse contents name → contents.length % physSize = 0 →
      (cstr name).length ≤ nameMaxGdpfs)

/-- A name that was not in a directory is there after it was added unless it was
too long. -/
theorem inUse_added
    {contents name : List UInt8}
    (whole : contents.length % physSize = 0)
    (absent : ¬InUse contents name)
    (gname : GdpName) :
    InUse (overwrite contents
        (physSize * (slots contents).findIdx PhysEnt.isFree)
        (PhysEnt.named name gname).bytes) name ↔
      (cstr name).length ≤ nameMaxGdpfs := by
  rw [InUse, slots_insert whole, ← List.take_eq_self_iff,
    ← PhysEnt.isNamed_named name name gname]
  constructor
  · rintro ⟨ent, member, named⟩
    rcases List.mem_append.mp member with early | late
    · exact absurd ⟨ent, List.mem_of_mem_take early, named⟩ absent
    · rcases List.mem_cons.mp late with isNew | later
      · rw [← isNew]
        exact named
      · exact absurd ⟨ent, List.mem_of_mem_drop later, named⟩ absent
  · intro named
    exact ⟨_, List.mem_append_right _ List.mem_cons_self, named⟩

section Create

variable {env : DirEnv} {fs between : Fs} {filepath : List UInt8} {dirfh : Nat}
  {dir : GdpName} {node : Node} {type : FileType} {stores : Bool} {perm : Nat}

/-- A creation in a parent that was opened, if the name is free. -/
theorem createReports_free
    (serves : Serves env)
    (parent : ParentOpened env fs filepath dirfh between dir node)
    (absent : ¬InUse node.contents (basename filepath))
    (whole : node.contents.length % physSize = 0)
    (short : (cstr (basename filepath)).length ≤ nameMaxGdpfs)
    (free : findIn node.contents (basename filepath) =
      .free (physSize * (slots node.contents).findIdx PhysEnt.isFree)) :
    CreateReports env fs filepath type stores perm dir node := by
  refine (parent.ensures_create_free serves.reads serves.writes free).mono ?_
  intro created next outcome
  generalize next.store = store at outcome ⊢
  cases outcome with
  | fails kept notOk _ =>
      refine ⟨node, ?_, ?_, fun _ => rfl, ?_⟩
      · rcases kept with same | taken
        · rw [same]
          exact parent.opened.node
        · rw [taken]
          exact parent.opened.node
      · rw [notOk]
        exact iff_of_false Bool.false_ne_true fun both => absent both.2
      · rintro _ ⟨⟩
  | creates new unused below =>
      refine ⟨_, nodes_setNode _ _ _, ?_, ?_, ?_⟩
      · exact iff_of_true rfl
          ⟨absent, (inUse_added whole absent _).mpr short⟩
      · rintro ⟨⟩
      · rintro _ ⟨⟩

/-- A creation reports what it did if there is a place for the name of an
existing file and the name is not too long. -/
theorem createReports_of_creatable
    (serves : Serves env)
    (parent : ParentOpened env fs filepath dirfh between dir node)
    (creatable : Creatable node.contents (basename filepath) stores) :
    CreateReports env fs filepath type stores perm dir node := by
  rcases findIn_cases node.contents (basename filepath) with
    ⟨before, ent, after, split, named, _, found⟩ | ⟨absent, _, corrupt⟩ |
    ⟨absent, whole, free⟩
  · have member : ent ∈ slots node.contents := by
      rw [split]
      exact List.mem_append_right _ List.mem_cons_self
    have present : InUse node.contents (basename filepath) :=
      ⟨ent, member, named⟩
    have given := creatable.1 present
    subst given
    refine (parent.ensures_create_exists serves.reads found).mono ?_
    rintro _ next ⟨rfl, store⟩
    refine ⟨node, ?_, ?_, fun _ => rfl, ?_⟩
    · rw [store]
      exact parent.opened.node
    · exact iff_of_false Bool.false_ne_true fun both => both.1 present
    · rintro _ ⟨⟩
      exact ⟨rfl, ent, member, named, rfl⟩
  · refine (parent.ensures_create_corrupt serves.reads corrupt).mono ?_
    rintro _ next ⟨rfl, store⟩
    refine ⟨node, ?_, ?_, fun _ => rfl, ?_⟩
    · rw [store]
      exact parent.opened.node
    · exact iff_of_false Bool.false_ne_true fun both => absent both.2
    · rintro _ ⟨⟩
  · exact createReports_free serves parent absent whole
      (creatable.2 absent whole) free

/-- If no call fails, that is the only case. -/
theorem creatable_of_createReports
    (smooth : Smooth env)
    (parent : ParentOpened env fs filepath dirfh between dir node)
    (spare : between.store.nextFree ≠ none)
    (new : between.store.nodes (env.newNames between.store.created) = none)
    (reports : CreateReports env fs filepath type stores perm dir node) :
    Creatable node.contents (basename filepath) stores := by
  have reads := smooth .read
  rcases findIn_cases node.contents (basename filepath) with
    ⟨before, ent, after, split, named, _, found⟩ | ⟨absent, torn, _⟩ |
    ⟨absent, whole, free⟩
  · have present : InUse node.contents (basename filepath) := by
      refine ⟨ent, ?_, named⟩
      rw [split]
      exact List.mem_append_right _ List.mem_cons_self
    refine ⟨fun _ => ?_, fun absent => absurd present absent⟩
    cases stores with
    | true => rfl
    | false =>
        exact absurd reports (parent.not_ensures_create_null reads found)
  · exact ⟨fun present => absurd present absent,
      fun _ whole => absurd whole torn⟩
  · refine ⟨fun present => absurd present absent, fun _ _ => ?_⟩
    have creates : Ensures
        (gdpfsDirCreateFileAtPath env filepath type stores perm) _ fs :=
      parent.ensures_create_free reads (smooth .write) free
    obtain ⟨created, next, run, outcome⟩ := creates
    obtain ⟨last, stored, reported, _⟩ := (ensures_of_run run).mp reports
    generalize next.store = store at outcome stored
    cases outcome with
    | fails _ _ reason => exact absurd new (reason smooth spare)
    | creates _ _ _ =>
        rw [Store.closed] at stored
        have contents := Option.some.inj
          (stored.symm.trans (nodes_setNode _ _ _))
        have bound := (reported.mp rfl).2
        rw [contents] at bound
        exact (inUse_added whole absent _).mp bound

end Create

/-- Directory operations report what they did: a removal (by name, or by
`gdpfs_unlink` or `gdpfs_rmdir`) exactly if the name is in the directory or the
directory is corrupt, and a creation if an existing name has a place to be
stored and a new name is not too long. -/
theorem directory_operations_report
    (serves : Serves env) :
    (∀ fs fh dir node name type, OpenOn fs fh dir node →
      (RemoveReports env fs fh dir node name type ↔
        Removable node.contents name)) ∧
    (∀ fs filepath dirfh between dir node,
      ParentOpened env fs filepath dirfh between dir node →
      (RemovesOnSuccess (gdpfsUnlink env filepath) fs filepath dir node ↔
        Removable node.contents (basename filepath)) ∧
      (RemovesOnSuccess (gdpfsRmdir env filepath) fs filepath dir node ↔
        Removable node.contents (basename filepath))) ∧
    ∀ fs filepath dirfh between dir node type stores perm,
      ParentOpened env fs filepath dirfh between dir node →
      (Creatable node.contents (basename filepath) stores →
        CreateReports env fs filepath type stores perm dir node) ∧
      (Smooth env → between.store.nextFree ≠ none →
        between.store.nodes (env.newNames between.store.created) = none →
        CreateReports env fs filepath type stores perm dir node →
        Creatable node.contents (basename filepath) stores) := by
  refine ⟨?_, ?_, ?_⟩
  · intro fs fh dir node name type opened
    exact removeReports_iff serves opened
  · intro fs filepath dirfh between dir node parent
    exact ⟨gdpfsUnlink_removes_iff serves parent,
      gdpfsRmdir_removes_iff serves parent⟩
  · intro fs filepath dirfh between dir node type stores perm parent
    refine ⟨createReports_of_creatable serves parent, ?_⟩
    intro smooth spare new
    exact creatable_of_createReports smooth parent spare new

/-- The file with one entry. -/
def oneEntry : List UInt8 :=
  (PhysEnt.named [97] (Vector.replicate 32 1)).bytes

/-- A root directory with that entry, of a regular file, and a handle on it. -/
def oneRemovable : Fs where
  store :=
    { nodes := fun gname =>
        if gname = DirEnv.calm.rootLogGname then
          some ⟨.dir, rootDefaultPerm, oneEntry⟩
        else some ⟨.regular, 0o644, []⟩
      fhs := fun fh => if fh = 0 then some DirEnv.calm.rootLogGname else none
      created := 0 }
  tick := 0
  copies := []

/-- The entry is removed. -/
theorem directory_operations_report_found :
    (outcome (gdpfsDirRemove DirEnv.calm 0 [97] .regular)
        oneRemovable).map Stat.isOk = some true ∧
      RemoveReports DirEnv.calm oneRemovable 0
        DirEnv.calm.rootLogGname ⟨.dir, rootDefaultPerm, oneEntry⟩ [97]
        .regular := by
  have inUse : InUse oneEntry [97] := by
    rw [InUse]
    decide +kernel
  refine ⟨by decide +kernel, ?_⟩
  exact ((directory_operations_report serves_calm).1 _ _ _ _ _ _
    ⟨rfl, rfl⟩).mpr (Or.inl inUse)

/-- Removing a name from an empty directory returns OK. -/
theorem absent_name_reported_removed :
    ¬∀ env, Serves env → ∀ fs fh dir node name type, OpenOn fs fh dir node →
      RemoveReports env fs fh dir node name type := by
  intro reports
  have opened : OpenOn (oneDirectory []) 0 DirEnv.calm.rootLogGname
      ⟨.dir, rootDefaultPerm, []⟩ := ⟨rfl, rfl⟩
  have removable := (removeReports_iff serves_calm opened).mp
    (reports _ serves_calm _ _ _ _ [97] .regular opened)
  rcases removable with ⟨ent, member, _⟩ | torn
  · exact absurd member List.not_mem_nil
  · exact torn rfl

end Dir
end Gdpfs
