import Gdpfs.Dir.Fuse
import Gdpfs.Dir.Tree

/-!
# FUSE operations on the tree of names

An abstract file system is a map from paths to logs.  The operations that change
the directories change this map as they should, or leave it alone.
-/

namespace Gdpfs
namespace Dir

open Log File Effect NameTree

/-! ## Abstract operations -/

/-- What the paths lead to. -/
abbrev Tree := List Name → Option (GdpName × FileType)

/-- An operation that changes the directories, or the release of a handle. -/
inductive TreeOp
  | create (path : List Name) (mode : Nat)
  | mkdir (path : List Name) (mode : Nat)
  | unlink (path : List Name)
  | rmdir (path : List Name)
  | rename (source target : List Name)
  | release (fh : Nat)
  deriving DecidableEq

/-- A directory has no names in it. -/
def Tree.EmptyAt (tree : Tree) (path : List Name) : Prop :=
  ∀ name, tree (path ++ [name]) = none

/-- A file of a type may be put at a path: nothing is there, or a file for a
file, or an empty directory for a directory. -/
def Tree.Accepts (tree : Tree) (path : List Name) (type : FileType) : Prop :=
  tree path = none ∨
    (∃ gname, tree path = some (gname, .regular) ∧ type = .regular) ∨
    (∃ gname, tree path = some (gname, .dir) ∧ type = .dir ∧ tree.EmptyAt path)

/-- No path leads to a log. -/
def Tree.Unused (tree : Tree) (gname : GdpName) : Prop :=
  ∀ path type, tree path ≠ some (gname, type)

/-- What an operation does to a tree.  The root cannot be removed. -/
inductive TreeStep : TreeOp → Tree → Tree → Prop
  | create
      (parent : tree path = some (dir, .dir))
      (absent : tree (path ++ [name]) = none)
      (unused : Tree.Unused tree gname) :
      TreeStep (.create (path ++ [name]) mode) tree
        (Function.update tree (path ++ [name]) (some (gname, .regular)))
  | mkdir
      (parent : tree path = some (dir, .dir))
      (absent : tree (path ++ [name]) = none)
      (unused : Tree.Unused tree gname) :
      TreeStep (.mkdir (path ++ [name]) mode) tree
        (Function.update tree (path ++ [name]) (some (gname, .dir)))
  | unlink
      (file : tree (path ++ [name]) = some (gname, .regular)) :
      TreeStep (.unlink (path ++ [name])) tree
        (Function.update tree (path ++ [name]) none)
  | unlinkRoot : TreeStep (.unlink []) tree tree
  | rmdir
      (file : tree (path ++ [name]) = some (gname, .dir))
      (empty : Tree.EmptyAt tree (path ++ [name])) :
      TreeStep (.rmdir (path ++ [name])) tree
        (Function.update tree (path ++ [name]) none)
  | rmdirRoot : TreeStep (.rmdir []) tree tree
  | rename
      (file : tree source = some (gname, type))
      (accepts : Tree.Accepts tree target type) :
      TreeStep (.rename source target) tree (moved tree source target)
  | release : TreeStep (.release fh) tree tree

/-! ## Operations of the code -/

/-- Whether an operation returned 0. -/
def isZero (result : Except Errno α) : Bool :=
  match result with
  | .ok _ => true
  | .error _ => false

/-- Run an operation. -/
def TreeOp.run (env : DirEnv) : TreeOp → DirM Bool
  | .create path mode => isZero <$> gdpfsCreate env (spell path) mode
  | .mkdir path mode => isZero <$> gdpfsMkdir env (spell path) mode
  | .unlink path => isZero <$> gdpfsUnlink env (spell path)
  | .rmdir path => isZero <$> gdpfsRmdir env (spell path)
  | .rename source target =>
      isZero <$> gdpfsRename env (spell source) (spell target)
  | .release fh => isZero <$> gdpfsRelease fh

/-- Some handles are not reserved. -/
def Spare (count : Nat) (store : Store) : Prop :=
  ∃ free : List Nat, free.Nodup ∧ count ≤ free.length ∧
    ∀ fh ∈ free, fh < maxFhs ∧ store.fhs fh = none

/-- What the kernel promises of an operation: the files that it removes or moves
exist, those that it creates do not, the root is not moved or replaced, and
nothing is moved to or below itself.  New logs have new names, and three handles
are not reserved. -/
def TreeOp.Promised (env : DirEnv) (op : TreeOp) (fs : Fs) : Prop :=
  match op with
  | .create path _ | .mkdir path _ =>
      treeOf fs.store env.rootLogGname path = none ∧
        fs.store.nodes (env.newNames fs.store.created) = none ∧
        Spare 3 fs.store
  | .unlink path | .rmdir path =>
      treeOf fs.store env.rootLogGname path ≠ none ∧ Spare 3 fs.store
  | .rename source target =>
      treeOf fs.store env.rootLogGname source ≠ none ∧ source ≠ [] ∧
        target ≠ [] ∧ ¬source <+: target ∧ Spare 3 fs.store
  | .release fh => ∃ gname, fs.store.fhs fh = some gname

section Handles

variable {store : Store}

theorem Spare.nextFree
    (spare : Spare (count + 1) store) :
    store.nextFree ≠ none := by
  obtain ⟨free, _, enough, unused⟩ := spare
  cases free with
  | nil => exact absurd enough (Nat.not_succ_le_zero count)
  | cons fh rest =>
      obtain ⟨below, isFree⟩ := unused fh List.mem_cons_self
      exact nextFree_ne_none isFree below

theorem Spare.withHandle
    (spare : Spare (count + 1) store)
    (fh : Nat)
    (gname : GdpName) :
    Spare count (store.withHandle fh gname) := by
  obtain ⟨free, distinct, enough, unused⟩ := spare
  refine ⟨free.erase fh, distinct.erase fh, ?_, ?_⟩
  · have fewer : free.length - 1 ≤ (free.erase fh).length :=
      List.le_length_erase
    omega
  · intro other member
    obtain ⟨differs, isFree⟩ := distinct.mem_erase_iff.mp member
    obtain ⟨below, free⟩ := unused other isFree
    exact ⟨below, (Function.update_of_ne differs _ _).trans free⟩

/-- Closing a handle makes it available. -/
theorem Spare.close
    (spare : Spare count store)
    (reserved : store.fhs fh = some gname)
    (below : fh < maxFhs) :
    Spare (count + 1) (store.closed fh) := by
  obtain ⟨free, distinct, enough, unused⟩ := spare
  have isNew : fh ∉ free := by
    intro member
    rw [(unused fh member).2] at reserved
    cases reserved
  refine ⟨fh :: free, List.nodup_cons.mpr ⟨isNew, distinct⟩,
    Nat.succ_le_succ enough, List.forall_mem_cons.mpr ⟨⟨below, ?_⟩, ?_⟩⟩
  · exact Function.update_self _ _ _
  · intro other member
    obtain ⟨isBelow, isFree⟩ := unused other member
    have differs : other ≠ fh := fun same => isNew (same ▸ member)
    exact ⟨isBelow, (Function.update_of_ne differs _ _).trans isFree⟩

theorem Spare.of_fhs
    {next : Store}
    (spare : Spare count store)
    (same : next.fhs = store.fhs) :
    Spare count next := by
  rw [Spare, same]
  exact spare

end Handles

/-! ## Creating -/

/-- The state after an operation: the tree has changed as it should, or not at
all. -/
structure Refines (env : DirEnv) (op : TreeOp) (fs : Fs) (zero : Bool)
    (next : Fs) : Prop where
  sound : Sound next.store env.rootLogGname
  done : zero = true →
    TreeStep op (treeOf fs.store env.rootLogGname)
      (treeOf next.store env.rootLogGname)
  kept : zero = false →
    treeOf next.store env.rootLogGname = treeOf fs.store env.rootLogGname

/-- What creating a file at a path does. -/
inductive CreateDone (env : DirEnv) (fs : Fs) (path : List Name) (name : Name)
    (type : FileType) : Created → Fs → Prop
  | creates
      (sound : Sound next.store env.rootLogGname)
      (parent : treeOf fs.store env.rootLogGname path = some (dir, .dir))
      (unused : Tree.Unused (treeOf fs.store env.rootLogGname) gname)
      (tree : treeOf next.store env.rootLogGname =
        Function.update (treeOf fs.store env.rootLogGname) (path ++ [name])
          (some (gname, type))) :
      CreateDone env fs path name type ⟨.ok, some fh, none⟩ next
  | fails
      (same : next.store.nodes = fs.store.nodes)
      (notOk : stat.isOk = false) :
      CreateDone env fs path name type ⟨stat, none, none⟩ next

section Operations

variable {env : DirEnv} {fs : Fs} {path : List Name} {name : Name}

theorem treeOf_some
    {store : Store}
    (leads : treeOf store root path = some (gname, type)) :
    resolve (look store) root path = some gname ∧
      kindOf store gname = type := by
  rw [treeOf, Option.map_eq_some_iff] at leads
  obtain ⟨_, resolved, same⟩ := leads
  cases same
  exact ⟨resolved, rfl⟩

theorem treeOf_none
    {store : Store} :
    treeOf store root path = none ↔
      resolve (look store) root path = none := by
  rw [treeOf, Option.map_eq_none_iff]

/-- The parent of a path. -/
theorem parentOf_spell
    {store : Store}
    (top : hasType store env.rootLogGname .dir = true)
    (path : List Name)
    (name : Name) :
    parentOf env store (spell (path ++ [name])) =
      (resolve (look store) env.rootLogGname path).filter
        fun gname => hasType store gname .dir := by
  rw [parentOf, dirname_spell, components_spell,
    walkTo_eq_resolve (Or.inr rfl) top]

/-- The parent of a path that can be opened. -/
theorem parentOf_some
    {store : Store}
    (top : hasType store env.rootLogGname .dir = true)
    (leads : parentOf env store (spell (path ++ [name])) = some dir) :
    resolve (look store) env.rootLogGname path = some dir ∧
      ∃ node, store.nodes dir = some node ∧ node.fileType = .dir := by
  rw [parentOf_spell top, Option.filter_eq_some_iff] at leads
  exact ⟨leads.1, hasType_dir leads.2⟩

theorem Sound.unused
    {store : Store}
    (sound : Sound store root)
    (new : store.nodes gname = none) :
    Tree.Unused (treeOf store root) gname := by
  intro path type leads
  obtain ⟨resolved, _⟩ := treeOf_some leads
  obtain ⟨node, stored⟩ := sound.stored_of_resolve resolved
  rw [new] at stored
  cases stored

/-- Creating a file that does not exist. -/
theorem ensures_create
    (smooth : Smooth env)
    (sound : Sound fs.store env.rootLogGname)
    (absent : treeOf fs.store env.rootLogGname (path ++ [name]) = none)
    (new : fs.store.nodes (env.newNames fs.store.created) = none)
    (spare : Spare 3 fs.store)
    (kind : type = .regular ∨ type = .dir)
    (stores : Bool)
    (perm : Nat) :
    Ensures (gdpfsDirCreateFileAtPath env (spell (path ++ [name])) type stores
        perm)
      (fun created next => CreateDone env fs path name type created next)
      fs := by
  obtain ⟨rest, spelled⟩ := spell_head (path ++ [name])
  cases leads : parentOf env fs.store (spell (path ++ [name])) with
  | none =>
      rw [gdpfsDirCreateFileAtPath]
      rw [spelled] at leads ⊢
      refine (ensures_openParentDir smooth spare.nextFree sound.top rest).bind ?_
      intro result next arrives
      rw [ParentArrives, leads] at arrives
      obtain ⟨stat, rfl, fails, same⟩ := arrives
      exact ensures_pure.mpr (.fails (congrArg Store.nodes same) fails)
  | some dir =>
      obtain ⟨resolved, node, stored, isDir⟩ := parentOf_some sound.top leads
      have base := basename_spell path name
      rw [spelled] at leads base ⊢
      obtain ⟨dirfh, between, parent⟩ := parentOpened_of_leads smooth
        spare.nextFree sound.top leads stored
      obtain ⟨_, _, reserved⟩ := parent.reserved
      have unnamed : (findIn node.contents name.bytes).file = none := by
        rw [treeOf_none, resolve_concat, resolved, Option.bind_some,
          look_of_dir stored isDir] at absent
        exact absent
      obtain ⟨book, table⟩ := sound.tables dir node stored isDir
      cases found : findIn node.contents name.bytes with
      | fileExists offset ent =>
          rw [found] at unnamed
          cases unnamed
      | corrupt => exact absurd found (table.findIn_ne_corrupt name.bytes)
      | free offset =>
          rw [← base] at found
          refine (parent.ensures_create_free (smooth .read) (smooth .write)
            found).mono ?_
          intro created next outcome
          have spareLater : between.store.nextFree ≠ none := by
            rw [reserved]
            exact (spare.withHandle dirfh dir).nextFree
          have newLater :
              between.store.nodes (env.newNames between.store.created) =
                none := by
            rw [reserved]
            exact new
          generalize isNext : next.store = after at outcome
          cases outcome with
          | fails kept notOk reason =>
              exact absurd newLater (reason smooth spareLater)
          | creates _ unused below =>
              rw [base] at found isNext
              have nodes : next.store.nodes = Function.update
                  (Function.update fs.store.nodes
                    (env.newNames fs.store.created) (some ⟨type, perm, []⟩)) dir
                  (some (node.withContents (overwrite node.contents offset
                    (PhysEnt.named name.bytes
                      (env.newNames fs.store.created)).bytes))) := by
                rw [isNext, reserved]
                rfl
              obtain ⟨soundNext, tree⟩ :=
                sound.create resolved stored isDir found new kind nodes
              have inDir : treeOf fs.store env.rootLogGname path =
                  some (dir, .dir) := by
                rw [treeOf, resolved, Option.map_some, kindOf_stored stored,
                  isDir]
              exact .creates soundNext inDir (sound.unused new) tree

/-! ## Removing -/

/-- A name that leads to a file has an entry in a directory. -/
theorem look_some
    {store : Store}
    (child : look store dir name = some gname) :
    ∃ node offset ent, store.nodes dir = some node ∧ node.fileType = .dir ∧
      findIn node.contents name.bytes = .fileExists offset ent ∧
      ent.gname = gname := by
  cases isDir : hasType store dir .dir with
  | false =>
      rw [look_of_not_dir isDir] at child
      cases child
  | true =>
      obtain ⟨node, stored, fileType⟩ := hasType_dir isDir
      rw [look_of_dir stored fileType] at child
      cases found : findIn node.contents name.bytes with
      | fileExists offset ent =>
          rw [found] at child
          exact ⟨node, offset, ent, stored, fileType, found,
            Option.some.inj child⟩
      | free offset =>
          rw [found] at child
          cases child
      | corrupt =>
          rw [found] at child
          cases child

theorem parentOf_of_resolve
    {store : Store}
    {node : Node}
    (top : hasType store env.rootLogGname .dir = true)
    (leads : resolve (look store) env.rootLogGname path = some dir)
    (stored : store.nodes dir = some node)
    (isDir : node.fileType = .dir) :
    parentOf env store (spell (path ++ [name])) = some dir := by
  rw [parentOf_spell top, leads, Option.filter_some, hasType_of_stored stored,
    isDir]
  rfl

/-- Removing a name from the directory it is in. -/
theorem ensures_removeAt
    {node : Node}
    (smooth : Smooth env)
    (top : hasType fs.store env.rootLogGname .dir = true)
    (leads : resolve (look fs.store) env.rootLogGname path = some dir)
    (stored : fs.store.nodes dir = some node)
    (isDir : node.fileType = .dir)
    (found : findIn node.contents name.bytes = .fileExists offset ent)
    (spare : Spare 2 fs.store)
    (type : FileType) :
    Ensures (gdpfsDirRemoveFileAtPath env (spell (path ++ [name])) type)
      (fun stat next =>
        stat = removeStat (fs.store.nodes ent.gname) type ∧
        next.store.nodes =
          if stat.isOk then
            Function.update fs.store.nodes dir (some (node.withContents
              (overwrite node.contents offset ent.unused.bytes)))
          else fs.store.nodes) fs := by
  have parentLeads : parentOf env fs.store (spell (path ++ [name])) = some dir :=
    parentOf_of_resolve top leads stored isDir
  obtain ⟨rest, spelled⟩ := spell_head (path ++ [name])
  rw [← basename_spell path name] at found
  rw [spelled] at parentLeads found ⊢
  obtain ⟨dirfh, between, parent⟩ := parentOpened_of_leads smooth
    spare.nextFree top parentLeads stored
  obtain ⟨_, _, reserved⟩ := parent.reserved
  have spareLater : between.store.nextFree ≠ none := by
    rw [reserved]
    exact (spare.withHandle dirfh dir).nextFree
  refine (parent.ensures_gdpfsDirRemoveFileAtPath
    (ensures_gdpfsDirRemove_exists (smooth .read) (smooth .write) parent.opened
      found)).mono ?_
  rintro stat next ⟨middle, ⟨checks, after⟩, rfl⟩
  have expected : stat = removeStat (fs.store.nodes ent.gname) type := by
    rcases checks with same | ⟨_, rough⟩
    · rw [same, reserved]
      rfl
    · exact absurd ⟨smooth, spareLater⟩ rough
  refine ⟨expected, ?_⟩
  change middle.store.nodes = _
  rw [after]
  split
  · rw [reserved]
    rfl
  · rw [reserved]
    rfl

/-- A file that passed the check before its removal. -/
theorem removeStat_isOk
    (known : type = .regular ∨ type = .dir)
    (passed : (removeStat (some file) type).isOk = true) :
    file.fileType = type ∧ (type = .dir → firstIn file.contents = .eof) := by
  have notUnknown : type ≠ .unknown := by
    rcases known with isFile | isDir
    · rw [isFile]
      decide
    · rw [isDir]
      decide
  rw [removeStat, if_neg notUnknown] at passed
  split at passed
  · cases passed
  · next typed =>
      refine ⟨not_not.mp typed, fun isDir => ?_⟩
      rw [if_pos isDir, emptyStat] at passed
      cases first : firstIn file.contents with
      | eof => rfl
      | ok _ _ =>
          rw [first] at passed
          cases passed
      | corrupt =>
          rw [first] at passed
          cases passed

/-- Files and empty directories have no names in them. -/
theorem childless_of_kind
    {store : Store}
    (stored : store.nodes gname = some file)
    (empty : file.fileType = .dir → firstIn file.contents = .eof)
    (name : Name) :
    look store gname name = none := by
  by_cases isDir : file.fileType = .dir
  · rw [look_of_dir stored isDir]
    exact file_of_empty (empty isDir) name.bytes
  · refine look_of_not_dir ?_ name
    rw [hasType_of_stored stored, decide_eq_false isDir]
    rfl

theorem emptyAt_of_childless
    {store : Store}
    (leads : resolve (look store) root path = some gname)
    (childless : ∀ name, look store gname name = none) :
    Tree.EmptyAt (treeOf store root) path := by
  intro name
  rw [treeOf_none, resolve_concat, leads, Option.bind_some, childless]

/-- What removing a file at a path does. -/
inductive RemoveDone (env : DirEnv) (fs : Fs) (path : List Name)
    (type : FileType) : Stat → Fs → Prop
  | removes
      (sound : Sound next.store env.rootLogGname)
      (file : treeOf fs.store env.rootLogGname path = some (gname, type))
      (empty : type = .dir →
        Tree.EmptyAt (treeOf fs.store env.rootLogGname) path)
      (tree : treeOf next.store env.rootLogGname =
        Function.update (treeOf fs.store env.rootLogGname) path none) :
      RemoveDone env fs path type .ok next
  | fails
      (same : next.store.nodes = fs.store.nodes)
      (notOk : stat.isOk = false) :
      RemoveDone env fs path type stat next

/-- Removing a file that exists. -/
theorem ensures_remove_file
    (smooth : Smooth env)
    (sound : Sound fs.store env.rootLogGname)
    (present : treeOf fs.store env.rootLogGname (path ++ [name]) ≠ none)
    (spare : Spare 3 fs.store)
    (known : type = .regular ∨ type = .dir) :
    Ensures (gdpfsDirRemoveFileAtPath env (spell (path ++ [name])) type)
      (fun stat next => RemoveDone env fs (path ++ [name]) type stat next)
      fs := by
  obtain ⟨pair, leads⟩ := Option.ne_none_iff_exists'.mp present
  obtain ⟨gname, kind⟩ := pair
  obtain ⟨resolved, isKind⟩ := treeOf_some leads
  obtain ⟨dir, toDir, child⟩ := resolve_concat_some resolved
  obtain ⟨node, offset, ent, stored, isDir, found, isEnt⟩ := look_some child
  obtain ⟨file, fileStored⟩ := sound.stored_of_resolve resolved
  have spareTwo : Spare 2 fs.store := by
    obtain ⟨free, distinct, enough, unused⟩ := spare
    exact ⟨free, distinct, Nat.le_of_succ_le enough, unused⟩
  refine (ensures_removeAt smooth sound.top toDir stored isDir found spareTwo
    type).mono ?_
  rintro stat next ⟨isStat, nodes⟩
  rw [isEnt, fileStored] at isStat
  cases passed : stat.isOk with
  | false =>
      rw [passed, if_neg Bool.false_ne_true] at nodes
      exact .fails nodes passed
  | true =>
      rw [passed, if_pos rfl] at nodes
      rw [isStat] at passed
      obtain ⟨typed, empty⟩ := removeStat_isOk known passed
      rw [isOk_removeStat passed] at isStat
      have childless : ∀ other, look fs.store gname other = none :=
        childless_of_kind fileStored fun isDir => empty (typed.symm.trans isDir)
      have childlessEnt : ∀ other, look fs.store ent.gname other = none := by
        rw [isEnt]
        exact childless
      obtain ⟨soundNext, tree⟩ :=
        sound.remove toDir stored isDir found childlessEnt nodes
      have isFile : treeOf fs.store env.rootLogGname (path ++ [name]) =
          some (gname, type) := by
        rw [leads, ← isKind, kindOf_stored fileStored, typed]
      rw [isStat]
      exact .removes soundNext isFile
        (fun _ => emptyAt_of_childless resolved childless) tree

/-- The name of the root is not found in the root. -/
theorem ensures_remove_root
    (smooth : Smooth env)
    (sound : Sound fs.store env.rootLogGname)
    (spare : Spare 3 fs.store)
    (type : FileType) :
    Ensures (gdpfsDirRemoveFileAtPath env (spell []) type)
      (fun stat next => stat = .ok ∧ next.store.nodes = fs.store.nodes)
      fs := by
  obtain ⟨node, stored, isDir⟩ := hasType_dir sound.top
  obtain ⟨book, table⟩ := sound.tables _ node stored isDir
  obtain ⟨offset, free⟩ := table.slash_free
  have leads : parentOf env fs.store [slash] = some env.rootLogGname := by
    have noComponents : components (dirname [slash]) = [] := by decide
    rw [parentOf, noComponents, walkTo]
  have base : basename [slash] = [slash] := by decide
  rw [← base] at free
  obtain ⟨dirfh, between, parent⟩ := parentOpened_of_leads smooth
    spare.nextFree sound.top leads stored
  obtain ⟨_, _, reserved⟩ := parent.reserved
  refine (parent.ensures_gdpfsDirRemoveFileAtPath
    (ensures_gdpfsDirRemove_free (smooth .read) parent.opened free)).mono ?_
  rintro stat next ⟨middle, ⟨isOk, same⟩, rfl⟩
  refine ⟨isOk, ?_⟩
  change middle.store.nodes = _
  rw [same, reserved]
  rfl

/-! ## Renaming -/

/-- What the part of `gdpfs_dir_replace_file_at_path` on the parent does. -/
inductive ReplaceDone (fs : Fs) (dir : GdpName) (node : Node)
    (name : List UInt8) (gname : GdpName) (f1type : FileType) :
    Stat → Fs → Prop
  | replaces
      (found : (findIn node.contents name).offset = some offset)
      (passed : ∀ place ent,
        findIn node.contents name = .fileExists place ent →
        (replaceStat (fs.store.nodes ent.gname) f1type).isOk = true)
      (store : next.store = fs.store.setNode dir (node.withContents
        (overwrite node.contents offset (PhysEnt.named name gname).bytes))) :
      ReplaceDone fs dir node name gname f1type .ok next
  | fails
      (same : next.store = fs.store)
      (notOk : stat.isOk = false) :
      ReplaceDone fs dir node name gname f1type stat next

theorem ensures_replaceIn
    {node : Node}
    (smooth : Smooth env)
    (opened : OpenOn fs dirfh dir node)
    (spare : fs.store.nextFree ≠ none)
    (name : List UInt8)
    (gname : GdpName)
    (f1type : FileType) :
    Ensures (replaceIn env dirfh name gname f1type)
      (fun stat next => ReplaceDone fs dir node name gname f1type stat next)
      fs := by
  rw [replaceIn]
  refine (ensures_findInsertOffset (smooth .read) opened name).bind ?_
  rintro _ between ⟨rfl, same, _⟩
  have stays := opened.congr same
  cases found : findIn node.contents name with
  | corrupt => exact ensures_pure.mpr (.fails same rfl)
  | free offset =>
      refine (ensures_of_run (stays.run_addAtOffset (smooth .write) offset name
        gname)).mpr ?_
      refine .replaces (by rw [found]; rfl) ?_ (by rw [same])
      intro place ent isFound
      rw [found] at isFound
      cases isFound
  | fileExists offset ent =>
      refine (ensures_replaceable (smooth .read) between ent.gname f1type).bind ?_
      rintro stat next ⟨unchanged, checks⟩
      rw [same] at unchanged checks
      have expected : stat =
          replaceStat (fs.store.nodes ent.gname) f1type := by
        rcases checks with isStat | ⟨_, rough⟩
        · exact isStat
        · exact absurd ⟨smooth, spare⟩ rough
      split
      · next passed =>
          have later := opened.congr unchanged
          refine (ensures_of_run (later.run_addAtOffset (smooth .write) offset
            name gname)).mpr ?_
          refine .replaces (by rw [found]; rfl) ?_ (by rw [unchanged])
          intro place other isFound
          rw [found] at isFound
          cases isFound
          rw [← expected]
          exact passed
      · next refused =>
          rw [Bool.not_eq_true] at refused
          exact ensures_pure.mpr (.fails unchanged refused)

theorem renameErrno_of_not_ok
    {stat : Stat}
    (notOk : stat.isOk = false) :
    ∃ errno, renameErrno stat = some errno := by
  cases stat with
  | ok => cases notOk
  | eof => cases notOk
  | _ => exact ⟨_, rfl⟩

/-- A file that passed the check before it is replaced. -/
theorem replaceStat_isOk
    (passed : (replaceStat (some file) f1type).isOk = true) :
    file.fileType = f1type ∧
      (file.fileType = .dir → firstIn file.contents = .eof) := by
  rw [replaceStat] at passed
  split at passed
  · split at passed
    · cases passed
    · cases passed
  · next typed =>
      refine ⟨(not_not.mp typed).symm, fun isDir => ?_⟩
      rw [if_pos isDir, emptyStat] at passed
      cases first : firstIn file.contents with
      | eof => rfl
      | ok _ _ =>
          rw [first] at passed
          cases passed
      | corrupt =>
          rw [first] at passed
          cases passed

/-- What may be replaced has no names in it. -/
theorem Tree.Accepts.emptyAt
    {store : Store}
    (accepts : Tree.Accepts (treeOf store root) path type) :
    Tree.EmptyAt (treeOf store root) path := by
  intro name
  rcases accepts with absent | ⟨gname, file, _⟩ | ⟨_, _, _, empty⟩
  · rw [treeOf_none] at absent ⊢
    rw [resolve_concat, absent, Option.bind_none]
  · obtain ⟨resolved, isKind⟩ := treeOf_some file
    have notDir : hasType store gname .dir = false := by
      cases stored : store.nodes gname with
      | none => rw [hasType, stored]
      | some node =>
          rw [kindOf_stored stored] at isKind
          rw [hasType_of_stored stored, isKind]
          rfl
    rw [treeOf_none, resolve_concat, resolved, Option.bind_some,
      look_of_not_dir notDir]
  · exact empty name

/-- What exists is not below what may be replaced. -/
theorem Tree.Accepts.not_above
    {store : Store}
    {target : List Name}
    (accepts : Tree.Accepts (treeOf store root) target type)
    (leads : resolve (look store) root (path ++ [name]) = some gname) :
    ¬target <+: path := by
  rintro ⟨rest, rfl⟩
  have split : ∃ first more, rest ++ [name] = first :: more := by
    cases rest with
    | nil => exact ⟨name, [], rfl⟩
    | cons first more => exact ⟨first, more ++ [name], rfl⟩
  obtain ⟨first, more, isSplit⟩ := split
  have gone := accepts.emptyAt first
  rw [treeOf_none] at gone
  rw [List.append_assoc, isSplit, ← List.singleton_append, ← List.append_assoc,
    resolve_append, gone] at leads
  cases leads

/-- The target of a renaming accepts the file. -/
theorem Sound.accepts
    {store : Store}
    {node : Node}
    (sound : Sound store root)
    (leads : resolve (look store) root path = some dir)
    (stored : store.nodes dir = some node)
    (isDir : node.fileType = .dir)
    (passed : ∀ place ent,
      findIn node.contents name.bytes = .fileExists place ent →
      (replaceStat (store.nodes ent.gname) type).isOk = true) :
    Tree.Accepts (treeOf store root) (path ++ [name]) type := by
  have entry := look_of_dir stored isDir name
  cases child : look store dir name with
  | none =>
      refine Or.inl ?_
      rw [treeOf_none, resolve_concat, leads, Option.bind_some, child]
  | some gname =>
      have resolved : resolve (look store) root (path ++ [name]) =
          some gname := by
        rw [resolve_concat, leads, Option.bind_some, child]
      obtain ⟨_, offset, ent, stored', _, found, isEnt⟩ := look_some child
      rw [stored] at stored'
      cases stored'
      have passes := passed offset ent found
      obtain ⟨file, fileStored⟩ := sound.stored_of_resolve resolved
      rw [isEnt, fileStored] at passes
      obtain ⟨typed, empty⟩ := replaceStat_isOk passes
      have tree : treeOf store root (path ++ [name]) = some (gname, type) := by
        rw [treeOf, resolved, Option.map_some, kindOf_stored fileStored, typed]
      rcases sound.kinds gname file fileStored with regular | directory
      · have isRegular : type = .regular := typed.symm.trans regular
        rw [isRegular] at tree
        exact Or.inr (Or.inl ⟨gname, tree, isRegular⟩)
      · have isDirectory : type = .dir := typed.symm.trans directory
        rw [isDirectory] at tree
        refine Or.inr (Or.inr ⟨gname, tree, isDirectory, ?_⟩)
        exact emptyAt_of_childless resolved
          (childless_of_kind fileStored empty)

/-- The source of a renaming is opened. -/
theorem ensures_openPath_spell
    (smooth : Smooth env)
    (sound : Sound fs.store env.rootLogGname)
    (spare : fs.store.nextFree ≠ none)
    (path : List Name)
    (name : Name) :
    Ensures (gdpfsDirOpenFileAtPath env (spell (path ++ [name])) .unknown)
      (fun result next => Arrives fs.store
        (resolve (look fs.store) env.rootLogGname (path ++ [name])) next.store
        result) fs := by
  obtain ⟨rest, spelled⟩ := spell_head (path ++ [name])
  have final : finalType (spell (path ++ [name])) .unknown = .unknown :=
    if_neg (getLast?_spell path name)
  have parts := components_spell (path ++ [name])
  rw [spelled] at final parts ⊢
  rw [components_slash] at parts
  refine (ensures_gdpfsDirOpenFileAtPath smooth spare sound.top rest
    .unknown).mono ?_
  rintro result next ⟨arrives, _⟩
  rw [final, parts, sound.walkTo_unknown] at arrives
  exact arrives

/-- What `gdpfs_dir_replace_file_at_path` does on a handle of a file. -/
inductive MoveDone (env : DirEnv) (fs : Fs) (path : List Name) (name : Name)
    (gname : GdpName) (type : FileType) : Stat → Fs → Prop
  | replaces
      (leads : resolve (look fs.store) env.rootLogGname path = some dir)
      (stored : fs.store.nodes dir = some node)
      (isDir : node.fileType = .dir)
      (found : (findIn node.contents name.bytes).offset = some offset)
      (passed : ∀ place ent,
        findIn node.contents name.bytes = .fileExists place ent →
        (replaceStat (fs.store.nodes ent.gname) type).isOk = true)
      (handle : ∃ dirfh, fs.store.fhs dirfh = none ∧
        next.store = (fs.store.withHandle dirfh dir).setNode dir
          (node.withContents (overwrite node.contents offset
            (PhysEnt.named name.bytes gname).bytes))) :
      MoveDone env fs path name gname type .ok next
  | fails
      (same : next.store = fs.store ∨ ∃ dirfh dir,
        fs.store.fhs dirfh = none ∧ next.store = fs.store.withHandle dirfh dir)
      (notOk : stat.isOk = false) :
      MoveDone env fs path name gname type stat next

theorem ensures_replaceAt
    {file : Node}
    (smooth : Smooth env)
    (sound : Sound fs.store env.rootLogGname)
    (opened : OpenOn fs fh gname file)
    (spare : Spare 2 fs.store)
    (path : List Name)
    (name : Name) :
    Ensures (gdpfsDirReplaceFileAtPath env fh (spell (path ++ [name])))
      (fun stat next => MoveDone env fs path name gname file.fileType stat
        next) fs := by
  have later := opened.later 1
  have spareLater : (fs.later 1).store.nextFree ≠ none := spare.nextFree
  have topLater : hasType (fs.later 1).store env.rootLogGname .dir = true :=
    sound.top
  obtain ⟨rest, spelled⟩ := spell_head (path ++ [name])
  have base := basename_spell path name
  rw [gdpfsDirReplaceFileAtPath, ensures_run_bind opened.run_lookupFh,
    ensures_run_bind opened.run_gdpfsFileGetInfo, smooth .info fs.tick,
    if_pos rfl]
  dsimp only
  cases leads : parentOf env fs.store (spell (path ++ [name])) with
  | none =>
      rw [spelled] at leads ⊢
      refine (ensures_openParentDir smooth spareLater topLater rest).bind ?_
      intro result next arrives
      change ParentArrives env fs.store (slash :: rest) next.store result
        at arrives
      rw [ParentArrives, leads] at arrives
      obtain ⟨stat, rfl, fails, same⟩ := arrives
      exact ensures_pure.mpr (.fails (Or.inl same) fails)
  | some dir =>
      obtain ⟨resolved, node, stored, isDir⟩ := parentOf_some sound.top leads
      rw [spelled] at leads base ⊢
      refine (ensures_openParentDir smooth spareLater topLater rest).bind ?_
      intro result next arrives
      change ParentArrives env fs.store (slash :: rest) next.store result
        at arrives
      rw [ParentArrives, leads] at arrives
      obtain ⟨dirfh, rfl, unused, below, reserved⟩ := arrives
      have inDir : OpenOn next dirfh dir node :=
        openOn_withHandle stored reserved
      have spareNext : next.store.nextFree ≠ none := by
        rw [reserved]
        exact (spare.withHandle dirfh dir).nextFree
      rw [base]
      refine (ensures_replaceIn smooth inDir spareNext name.bytes gname
        file.fileType).mono ?_
      intro stat last outcome
      cases outcome with
      | fails same notOk =>
          rw [reserved] at same
          exact .fails (Or.inr ⟨dirfh, dir, unused, same⟩) notOk
      | replaces found passed store =>
          rw [reserved] at passed store
          exact .replaces resolved stored isDir found passed
            ⟨dirfh, unused, store⟩

theorem MoveDone.handle
    {stat : Stat}
    {next : Fs}
    (done : MoveDone env fs path name gname type stat next)
    (open' : fs.store.fhs fh = some file) :
    next.store.fhs fh = some file := by
  have apart : ∀ dirfh, fs.store.fhs dirfh = none → fh ≠ dirfh := by
    intro dirfh unused same
    rw [← same, open'] at unused
    cases unused
  cases done with
  | replaces leads stored isDir found passed handle =>
      obtain ⟨dirfh, unused, store⟩ := handle
      rw [store]
      exact (Function.update_of_ne (apart dirfh unused) _ _).trans open'
  | fails same notOk =>
      rcases same with same | ⟨dirfh, dir, unused, store⟩
      · rw [same]
        exact open'
      · rw [store]
        exact (Function.update_of_ne (apart dirfh unused) _ _).trans open'

/-- The source of a renaming is removed after the file was added at the
target. -/
theorem ensures_removeSource
    {middle : Fs}
    {node : Node}
    {target : List Name}
    {name' : Name}
    (smooth : Smooth env)
    (sound : Sound fs.store env.rootLogGname)
    (resolved : resolve (look fs.store) env.rootLogGname (path ++ [name]) =
      some gname)
    (leads : resolve (look fs.store) env.rootLogGname target = some place)
    (stored : fs.store.nodes place = some node)
    (isDir : node.fileType = .dir)
    (found : (findIn node.contents name'.bytes).offset = some offset)
    (accepts : Tree.Accepts (treeOf fs.store env.rootLogGname)
      (target ++ [name']) type)
    (notBelow : ¬path ++ [name] <+: target ++ [name'])
    (nodes : middle.store.nodes = Function.update fs.store.nodes place
      (some (node.withContents (overwrite node.contents offset
        (PhysEnt.named name'.bytes gname).bytes))))
    (spare : Spare 2 middle.store) :
    Ensures (gdpfsDirRemoveFileAtPath env (spell (path ++ [name])) .unknown)
      (fun stat next => stat = .ok ∧ Sound next.store env.rootLogGname ∧
        treeOf next.store env.rootLogGname =
          moved (treeOf fs.store env.rootLogGname) (path ++ [name])
            (target ++ [name'])) middle := by
  obtain ⟨dir, toDir, entry⟩ := resolve_concat_some resolved
  have moves : Moves (look fs.store) env.rootLogGname path dir name target place
      name' gname := by
    refine ⟨sound.forest, toDir, leads, entry, ?_, notBelow⟩
    intro same
    exact notBelow (same ▸ List.prefix_refl _)
  obtain ⟨sane, added, sameKinds, sameFiles⟩ :=
    sound.toSane.add stored isDir found nodes
  have toSource : resolve (look middle.store) env.rootLogGname path =
      some dir := by
    rw [added, resolve_setEntry_avoiding sound.forest leads, toDir]
    exact accepts.not_above resolved
  have stays : look middle.store dir name = some gname := by
    rw [added, setEntry, if_neg, entry]
    exact fun both => moves.apart ⟨both.1.symm, both.2.symm⟩
  obtain ⟨table, offset', ent, isStored, isTable, isFound, _⟩ := look_some stays
  refine (ensures_removeAt smooth sane.top toSource isStored isTable isFound
    spare .unknown).mono ?_
  rintro stat next ⟨isStat, removed⟩
  have isOk : stat = .ok := isStat
  have passed : stat.isOk = true := by
    rw [isOk]
    rfl
  rw [if_pos passed] at removed
  obtain ⟨soundNext, tree⟩ := sound.move moves sane added sameKinds sameFiles
    isStored isTable isFound removed
  exact ⟨isOk, soundNext, tree⟩

/-- Renaming a file. -/
theorem ensures_rename
    {target : List Name}
    {name' : Name}
    (smooth : Smooth env)
    (sound : Sound fs.store env.rootLogGname)
    (present : treeOf fs.store env.rootLogGname (path ++ [name]) ≠ none)
    (notBelow : ¬path ++ [name] <+: target ++ [name'])
    (spare : Spare 3 fs.store) :
    Ensures (gdpfsRename env (spell (path ++ [name]))
        (spell (target ++ [name'])))
      (fun result next => Refines env
        (.rename (path ++ [name]) (target ++ [name'])) fs (isZero result)
        next) fs := by
  obtain ⟨pair, tree⟩ := Option.ne_none_iff_exists'.mp present
  obtain ⟨gname, kind⟩ := pair
  obtain ⟨resolved, isKind⟩ := treeOf_some tree
  obtain ⟨file, fileStored⟩ := sound.stored_of_resolve resolved
  rw [kindOf_stored fileStored] at isKind
  rw [gdpfsRename, openPath, bind_assoc]
  refine (ensures_openPath_spell smooth sound spare.nextFree path name).bind ?_
  intro result opened arrives
  rw [resolved] at arrives
  obtain ⟨fh, rfl, unused, below, reserved⟩ := arrives
  have onFile : OpenOn opened fh gname file :=
    openOn_withHandle fileStored reserved
  have soundOpened : Sound opened.store env.rootLogGname := by
    rw [reserved]
    exact sound.of_nodes rfl
  have spareOpened : Spare 2 opened.store := by
    rw [reserved]
    exact spare.withHandle fh gname
  dsimp only
  rw [ensures_bind, ensures_pure]
  refine (ensures_replaceAt smooth soundOpened onFile spareOpened target
    name').bind ?_
  intro stat replaced outcome
  have handle : replaced.store.fhs fh = some gname :=
    outcome.handle onFile.handle
  rw [ensures_run_bind (run_gdpfsFileClose handle)]
  cases outcome with
  | fails same notOk =>
      obtain ⟨errno, isErrno⟩ := renameErrno_of_not_ok notOk
      have nodes : (replaced.store.closed fh).nodes = fs.store.nodes := by
        change replaced.store.nodes = _
        rcases same with same | ⟨_, _, _, same⟩
        · rw [same, reserved]
          rfl
        · rw [same, reserved]
          rfl
      rw [isErrno]
      refine ensures_pure.mpr ⟨sound.of_nodes nodes, ?_, ?_⟩
      · rintro ⟨⟩
      · exact fun _ => treeOf_of_nodes nodes
  | @replaces dir node offset _ leads stored isDir found passed handle' =>
      obtain ⟨dirfh, unusedDir, store⟩ := handle'
      have looks : look opened.store = look fs.store := by
        rw [reserved]
        rfl
      have sameNodes : opened.store.nodes = fs.store.nodes := by
        rw [reserved]
        rfl
      rw [looks] at leads
      rw [sameNodes] at stored passed
      have accepts := sound.accepts leads stored isDir passed
      generalize isClosed : ({ replaced with
        store := replaced.store.closed fh } : Fs) = closed
      have nodes : closed.store.nodes =
          Function.update fs.store.nodes dir (some (node.withContents
            (overwrite node.contents offset
              (PhysEnt.named name'.bytes gname).bytes))) := by
        rw [← isClosed]
        change replaced.store.nodes = _
        rw [store, reserved]
        rfl
      have spareLater : Spare 2 closed.store := by
        rw [← isClosed]
        refine Spare.close ?_ handle below
        refine (spareOpened.withHandle dirfh dir).of_fhs ?_
        rw [store]
        rfl
      refine (ensures_removeSource smooth sound resolved leads stored isDir found
        accepts notBelow nodes spareLater).bind ?_
      rintro _ next ⟨rfl, soundNext, moved⟩
      refine ensures_pure.mpr ⟨soundNext, fun _ => ?_, ?_⟩
      · rw [← isKind] at tree
        rw [moved]
        exact .rename tree accepts
      · rintro ⟨⟩

/-! ## Operations and runs -/

/-- The last name of a path that is not the root. -/
theorem exists_concat
    {path : List Name}
    (notRoot : path ≠ []) :
    ∃ parent name, path = parent ++ [name] := by
  cases path using List.reverseRecOn with
  | nil => exact absurd rfl notRoot
  | append_singleton parent name => exact ⟨parent, name, rfl⟩

theorem spell_isEmpty (path : List Name) : (spell path).isEmpty = false := by
  obtain ⟨rest, spelled⟩ := spell_head path
  rw [spelled]
  rfl

/-- A path that does not exist is not the root. -/
theorem exists_concat_of_absent
    {store : Store}
    (absent : treeOf store root path = none) :
    ∃ parent name, path = parent ++ [name] := by
  refine exists_concat ?_
  rintro rfl
  cases absent

theorem CreateDone.refines
    {created : Created}
    {next : Fs}
    (op : TreeOp)
    (done : CreateDone env fs path name type created next)
    (sound : Sound fs.store env.rootLogGname)
    (steps : ∀ dir gname tree,
      treeOf fs.store env.rootLogGname path = some (dir, .dir) →
      Tree.Unused (treeOf fs.store env.rootLogGname) gname →
      tree = Function.update (treeOf fs.store env.rootLogGname) (path ++ [name])
        (some (gname, type)) →
      TreeStep op (treeOf fs.store env.rootLogGname) tree) :
    Refines env op fs created.stat.isOk next := by
  cases done with
  | creates soundNext parent unused tree =>
      refine ⟨soundNext, fun _ => steps _ _ _ parent unused tree, ?_⟩
      rintro ⟨⟩
  | fails same notOk =>
      dsimp only
      rw [notOk]
      refine ⟨sound.of_nodes same, ?_, fun _ => treeOf_of_nodes same⟩
      rintro ⟨⟩

theorem ensures_treeCreate
    (smooth : Smooth env)
    (sound : Sound fs.store env.rootLogGname)
    (promised : (TreeOp.create path mode).Promised env fs) :
    Ensures ((TreeOp.create path mode).run env)
      (Refines env (.create path mode) fs) fs := by
  obtain ⟨absent, new, spare⟩ := promised
  obtain ⟨parent, name, rfl⟩ := exists_concat_of_absent absent
  refine ensures_map.mpr ?_
  rw [gdpfsCreate, spell_isEmpty, if_neg Bool.false_ne_true,
    if_neg (getLast?_spell parent name)]
  refine (ensures_create smooth sound absent new spare (Or.inl rfl) true
    _).bind ?_
  intro created next done
  have refines := done.refines (.create (parent ++ [name]) mode) sound
    fun dir gname tree inDir unused isTree => isTree ▸ .create inDir absent unused
  cases done with
  | creates _ _ _ _ => exact ensures_pure.mpr refines
  | fails _ notOk =>
      dsimp only at refines
      rw [notOk] at refines
      exact ensures_pure.mpr refines

theorem ensures_treeMkdir
    (smooth : Smooth env)
    (sound : Sound fs.store env.rootLogGname)
    (promised : (TreeOp.mkdir path mode).Promised env fs) :
    Ensures ((TreeOp.mkdir path mode).run env)
      (Refines env (.mkdir path mode) fs) fs := by
  obtain ⟨absent, new, spare⟩ := promised
  obtain ⟨parent, name, rfl⟩ := exists_concat_of_absent absent
  refine ensures_map.mpr ?_
  rw [gdpfsMkdir, spell_isEmpty, if_neg Bool.false_ne_true]
  refine (ensures_create smooth sound absent new spare (Or.inr rfl) false
    _).bind ?_
  intro created next done
  have refines := done.refines (.mkdir (parent ++ [name]) mode) sound
    fun dir gname tree inDir unused isTree => isTree ▸ .mkdir inDir absent unused
  cases passed : created.stat.isOk with
  | true =>
      rw [passed] at refines
      rw [if_pos rfl]
      exact ensures_pure.mpr refines
  | false =>
      rw [passed] at refines
      rw [if_neg Bool.false_ne_true]
      exact ensures_pure.mpr refines

theorem ensures_treeUnlink
    (smooth : Smooth env)
    (sound : Sound fs.store env.rootLogGname)
    (promised : (TreeOp.unlink path).Promised env fs) :
    Ensures ((TreeOp.unlink path).run env) (Refines env (.unlink path) fs)
      fs := by
  obtain ⟨present, spare⟩ := promised
  refine ensures_map.mpr ?_
  rw [gdpfsUnlink, spell_isEmpty, if_neg Bool.false_ne_true]
  cases path using List.reverseRecOn with
  | nil =>
      refine (ensures_remove_root smooth sound spare .regular).bind ?_
      rintro _ next ⟨rfl, same⟩
      refine ensures_pure.mpr ⟨sound.of_nodes same, fun _ => ?_, ?_⟩
      · rw [treeOf_of_nodes same]
        exact .unlinkRoot
      · rintro ⟨⟩
  | append_singleton parent name =>
      refine (ensures_remove_file smooth sound present spare (Or.inl rfl)).bind ?_
      intro stat next done
      cases done with
      | removes soundNext file empty tree =>
          refine ensures_pure.mpr ⟨soundNext, fun _ => ?_, ?_⟩
          · rw [tree]
            exact .unlink file
          · rintro ⟨⟩
      | fails same notOk =>
          rw [notOk, if_neg Bool.false_ne_true]
          refine ensures_pure.mpr ⟨sound.of_nodes same, ?_, ?_⟩
          · rintro ⟨⟩
          · exact fun _ => treeOf_of_nodes same

theorem ensures_treeRmdir
    (smooth : Smooth env)
    (sound : Sound fs.store env.rootLogGname)
    (promised : (TreeOp.rmdir path).Promised env fs) :
    Ensures ((TreeOp.rmdir path).run env) (Refines env (.rmdir path) fs)
      fs := by
  obtain ⟨present, spare⟩ := promised
  refine ensures_map.mpr ?_
  rw [gdpfsRmdir, spell_isEmpty, if_neg Bool.false_ne_true]
  cases path using List.reverseRecOn with
  | nil =>
      refine (ensures_remove_root smooth sound spare .dir).bind ?_
      rintro _ next ⟨rfl, same⟩
      refine ensures_pure.mpr ⟨sound.of_nodes same, fun _ => ?_, ?_⟩
      · rw [treeOf_of_nodes same]
        exact .rmdirRoot
      · rintro ⟨⟩
  | append_singleton parent name =>
      refine (ensures_remove_file smooth sound present spare (Or.inr rfl)).bind ?_
      intro stat next done
      cases done with
      | removes soundNext file empty tree =>
          refine ensures_pure.mpr ⟨soundNext, fun _ => ?_, ?_⟩
          · rw [tree]
            exact .rmdir file (empty rfl)
          · rintro ⟨⟩
      | fails same notOk =>
          have kept : Refines env (.rmdir (parent ++ [name])) fs false next := by
            refine ⟨sound.of_nodes same, ?_, fun _ => treeOf_of_nodes same⟩
            rintro ⟨⟩
          split
          · exact ensures_pure.mpr kept
          · rw [notOk, if_neg Bool.false_ne_true]
            exact ensures_pure.mpr kept

/-- One operation. -/
theorem ensures_treeOp
    (smooth : Smooth env)
    (sound : Sound fs.store env.rootLogGname)
    (op : TreeOp)
    (promised : op.Promised env fs) :
    Ensures (op.run env) (Refines env op fs) fs := by
  cases op with
  | create path mode => exact ensures_treeCreate smooth sound promised
  | mkdir path mode => exact ensures_treeMkdir smooth sound promised
  | unlink path => exact ensures_treeUnlink smooth sound promised
  | rmdir path => exact ensures_treeRmdir smooth sound promised
  | rename source target =>
      obtain ⟨present, notRoot, notRoot', notBelow, spare⟩ := promised
      obtain ⟨parent, name, rfl⟩ := exists_concat notRoot
      obtain ⟨parent', name', rfl⟩ := exists_concat notRoot'
      exact ensures_map.mpr
        (ensures_rename smooth sound present notBelow spare)
  | release fh =>
      obtain ⟨gname, reserved⟩ := promised
      refine ensures_map.mpr ?_
      rw [gdpfsRelease, ensures_run_bind (run_gdpfsFileClose reserved)]
      refine ensures_pure.mpr ⟨sound.of_nodes rfl, fun _ => .release, ?_⟩
      rintro ⟨⟩

end Operations

theorem sound_initial (env : DirEnv) :
    Sound (Fs.initial env).store env.rootLogGname := by
  have stored : (Fs.initial env).store.nodes env.rootLogGname =
      some ⟨.dir, rootDefaultPerm, []⟩ := if_pos rfl
  have only : ∀ gname node,
      (Fs.initial env).store.nodes gname = some node →
      node = ⟨.dir, rootDefaultPerm, []⟩ := by
    intro gname node isStored
    change (if gname = env.rootLogGname then _ else none) = _ at isStored
    split at isStored
    · exact (Option.some.inj isStored).symm
    · cases isStored
  have unnamed : ∀ dir name, look (Fs.initial env).store dir name = none := by
    intro dir name
    cases isStored : (Fs.initial env).store.nodes dir with
    | none =>
        refine look_of_not_dir ?_ name
        rw [hasType, isStored]
    | some node =>
        refine childless_of_kind isStored (fun _ => ?_) name
        rw [only dir node isStored]
        rfl
  refine ⟨⟨?_, ?_, ?_⟩, ?_, ?_, ?_⟩
  · rw [hasType_of_stored stored]
    rfl
  · intro dir node isStored _
    rw [only dir node isStored]
    exact ⟨Book.empty, table_empty⟩
  · intro gname node isStored
    rw [only gname node isStored]
    exact Or.inr rfl
  · intro dir name gname child
    rw [unnamed] at child
    cases child
  · intro parent other first second child found
    rw [unnamed] at found
    cases found
  · intro parent name found
    rw [unnamed] at found
    cases found

/-- In every state that a run from a new file system reaches, the tree is what
paths are resolved by; and every operation that returns 0 changes it as the
abstract operation does, and every other one leaves it as it is. -/
theorem directory_refines_tree
    (smooth : Smooth env)
    (reached : Reached (TreeOp.run env) (fun op fs => op.Promised env fs)
      (Fs.initial env) fs) :
    (fs.store.nextFree ≠ none → ∀ path,
      Ensures (gdpfsDirOpenFileAtPath env (spell path) .unknown)
        (fun result next => Arrives fs.store
          ((treeOf fs.store env.rootLogGname path).map Prod.fst) next.store
          result) fs) ∧
      ∀ op : TreeOp, op.Promised env fs → Ensures (op.run env)
        (fun zero next =>
          if zero then
            TreeStep op (treeOf fs.store env.rootLogGname)
              (treeOf next.store env.rootLogGname)
          else
            treeOf next.store env.rootLogGname =
              treeOf fs.store env.rootLogGname) fs := by
  have sound : Sound fs.store env.rootLogGname := by
    refine Reached.invariant (fun fs => Sound fs.store env.rootLogGname)
      (sound_initial env) ?_ reached
    intro op fs promised sound
    exact (ensures_treeOp smooth sound op promised).allows.mono
      fun _ _ refines => refines.sound
  refine ⟨?_, ?_⟩
  · intro spare path
    have targets : (treeOf fs.store env.rootLogGname path).map Prod.fst =
        resolve (look fs.store) env.rootLogGname path := by
      rw [treeOf, Option.map_map]
      exact Option.map_id'
    rw [targets]
    cases path using List.reverseRecOn with
    | nil =>
        exact (ensures_gdpfsDirOpenFileAtPath smooth spare sound.top []
          .unknown).mono fun _ _ arrives => arrives.1
    | append_singleton parent name =>
        exact ensures_openPath_spell smooth sound spare parent name
  · intro op promised
    refine (ensures_treeOp smooth sound op promised).mono ?_
    intro zero next refines
    cases zero with
    | true => exact refines.done rfl
    | false => exact refines.kept rfl

/-- A check of what the kernel promises, with three fixed handles. -/
def TreeOp.promised (env : DirEnv) (op : TreeOp) (fs : Fs) : Bool :=
  [1021, 1022, 1023].all (fun fh => (fs.store.fhs fh).isNone) &&
    match op with
    | .create path _ | .mkdir path _ =>
        (treeOf fs.store env.rootLogGname path).isNone &&
          (fs.store.nodes (env.newNames fs.store.created)).isNone
    | .unlink path | .rmdir path =>
        (treeOf fs.store env.rootLogGname path).isSome
    | .rename source target =>
        (treeOf fs.store env.rootLogGname source).isSome && source ≠ [] &&
          target ≠ [] && !source.isPrefixOf target
    | .release _ => false

theorem promised_of_check
    {env : DirEnv}
    {op : TreeOp}
    {fs : Fs}
    (checked : op.promised env fs = true) :
    op.Promised env fs := by
  rw [TreeOp.promised.eq_def, Bool.and_eq_true] at checked
  obtain ⟨handles, checked⟩ := checked
  have spare : Spare 3 fs.store := by
    refine ⟨[1021, 1022, 1023], by decide, by decide, ?_⟩
    intro fh member
    refine ⟨?_, ?_⟩
    · have small : ∀ fh ∈ [1021, 1022, 1023], fh < maxFhs := by decide
      exact small fh member
    · exact Option.isNone_iff_eq_none.mp (List.all_eq_true.mp handles fh member)
  cases op with
  | create path mode =>
      rw [Bool.and_eq_true, Option.isNone_iff_eq_none,
        Option.isNone_iff_eq_none] at checked
      exact ⟨checked.1, checked.2, spare⟩
  | mkdir path mode =>
      rw [Bool.and_eq_true, Option.isNone_iff_eq_none,
        Option.isNone_iff_eq_none] at checked
      exact ⟨checked.1, checked.2, spare⟩
  | unlink path => exact ⟨Option.isSome_iff_ne_none.mp checked, spare⟩
  | rmdir path => exact ⟨Option.isSome_iff_ne_none.mp checked, spare⟩
  | rename source target =>
      rw [Bool.and_eq_true, Bool.and_eq_true, Bool.and_eq_true,
        Option.isSome_iff_ne_none, decide_eq_true_iff, decide_eq_true_iff,
        Bool.not_eq_true', ← Bool.not_eq_true, List.isPrefixOf_iff_prefix]
        at checked
      obtain ⟨⟨⟨present, notRoot⟩, notRoot'⟩, notBelow⟩ := checked
      exact ⟨present, notRoot, notRoot', notBelow, spare⟩
  | release fh => cases checked

/-- A name of one byte. -/
def letter (byte : UInt8) (noNul : byte ≠ 0) (noSlash : byte ≠ slash) :
    Name where
  bytes := [byte]
  nonempty := List.cons_ne_nil byte []
  short := (by decide : 1 ≤ 255)
  noNul := fun member => noNul (List.mem_singleton.mp member).symm
  noSlash := fun member => noSlash (List.mem_singleton.mp member).symm

/-- The name `a`. -/
def letterA : Name := letter 97 (by decide) (by decide)

/-- The name `b`. -/
def letterB : Name := letter 98 (by decide) (by decide)

/-- A directory is made and renamed, and may then be removed. -/
theorem directory_refines_tree_renamed :
    ∃ fs, Reached (TreeOp.run DirEnv.calm)
        (fun op fs => op.Promised DirEnv.calm fs) (Fs.initial DirEnv.calm)
        fs ∧
      treeOf fs.store DirEnv.calm.rootLogGname [letterB] =
        some (DirEnv.calm.newNames 0, .dir) ∧
      Ensures ((TreeOp.rmdir [letterB]).run DirEnv.calm)
        (fun zero next =>
          if zero then
            TreeStep (.rmdir [letterB])
              (treeOf fs.store DirEnv.calm.rootLogGname)
              (treeOf next.store DirEnv.calm.rootLogGname)
          else
            treeOf next.store DirEnv.calm.rootLogGname =
              treeOf fs.store DirEnv.calm.rootLogGname) fs := by
  have replays : (replay (TreeOp.run DirEnv.calm)
      (fun op fs => op.promised DirEnv.calm fs)
      [.mkdir [letterA] 0o755, .rename [letterA] [letterB]]
      (Fs.initial DirEnv.calm)).any
      (fun fs => treeOf fs.store DirEnv.calm.rootLogGname [letterB] ==
          some (DirEnv.calm.newNames 0, .dir) &&
        (TreeOp.rmdir [letterB]).promised DirEnv.calm fs) = true := by
    decide +kernel
  obtain ⟨fs, replayed, tested⟩ := (Option.any_eq_true _ _).mp replays
  rw [Bool.and_eq_true, beq_iff_eq] at tested
  have reached : Reached (TreeOp.run DirEnv.calm)
      (fun op fs => op.Promised DirEnv.calm fs) (Fs.initial DirEnv.calm) fs :=
    reached_of_replay (fun _ _ checked => promised_of_check checked) replayed
  refine ⟨fs, reached, tested.1, ?_⟩
  exact (directory_refines_tree (fun _ _ => rfl) reached).2 _
    (promised_of_check tested.2)

end Dir
end Gdpfs
