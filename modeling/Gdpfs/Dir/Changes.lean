import Gdpfs.Dir.Balance
import Gdpfs.Dir.Table

/-!
# What creating and removing files does to open directories

Whatever files are created, removed or renamed, a handle stays open on its file,
and a directory file stays one of whole entries.
-/

namespace Gdpfs
namespace Dir

open Log File Effect

/-- Handles stay open on their files, and files of whole entries stay such
files. -/
structure TablesKept (before after : Store) : Prop where
  handles : ∀ fh gname, before.fhs fh = some gname →
    after.fhs fh = some gname
  tables : ∀ gname node, before.nodes gname = some node →
    ∃ node', after.nodes gname = some node' ∧
      (node.contents.length % physSize = 0 →
        node'.contents.length % physSize = 0)

section Kept

variable {env : DirEnv} {store next last : Store} {fh : Nat}

theorem TablesKept.refl (store : Store) : TablesKept store store :=
  ⟨fun _ _ => id, fun _ node stored => ⟨node, stored, id⟩⟩

theorem TablesKept.trans
    (first : TablesKept store next)
    (second : TablesKept next last) :
    TablesKept store last := by
  refine ⟨fun fh gname handle => ?_, fun gname node stored => ?_⟩
  · exact second.handles fh gname (first.handles fh gname handle)
  · obtain ⟨between, isBetween, whole⟩ := first.tables gname node stored
    obtain ⟨final, isFinal, still⟩ := second.tables gname between isBetween
    exact ⟨final, isFinal, fun was => still (whole was)⟩

theorem TablesKept.withHandle
    (unused : store.fhs fh = none)
    (gname : GdpName) :
    TablesKept store (store.withHandle fh gname) := by
  refine ⟨fun other file handle => ?_, fun _ node stored =>
    ⟨node, stored, id⟩⟩
  have differ : other ≠ fh := by
    rintro rfl
    rw [unused] at handle
    cases handle
  exact (Function.update_of_ne differ _ _).trans handle

/-- A handle that was opened in between is closed. -/
theorem TablesKept.closed
    (kept : TablesKept store next)
    (unused : store.fhs fh = none) :
    TablesKept store (next.closed fh) := by
  refine ⟨fun other file handle => ?_, kept.tables⟩
  have differ : other ≠ fh := by
    rintro rfl
    rw [unused] at handle
    cases handle
  exact (Function.update_of_ne differ _ _).trans
    (kept.handles other file handle)

theorem TablesKept.setNode
    {node node' : Node}
    (stored : store.nodes gname = some node)
    (whole : node.contents.length % physSize = 0 →
      node'.contents.length % physSize = 0) :
    TablesKept store (store.setNode gname node') := by
  refine ⟨fun _ _ => id, fun other file isFile => ?_⟩
  by_cases same : other = gname
  · subst same
    cases stored.symm.trans isFile
    exact ⟨node', Function.update_self _ _ _, whole⟩
  · exact ⟨file, (Function.update_of_ne same _ _).trans isFile, id⟩

theorem Reserves.tablesKept
    (reserves : Reserves store next result) :
    TablesKept store next := by
  cases result with
  | error stat =>
      rw [reserves.1]
      exact TablesKept.refl store
  | ok fh =>
      obtain ⟨unused, _, gname, _, reserved⟩ := reserves
      rw [reserved]
      exact TablesKept.withHandle unused gname

theorem ReservesParent.tablesKept
    (reserves : ReservesParent store next filepath parent) :
    TablesKept store next := by
  cases parent with
  | error stat =>
      have opened : Reserves store next (.error stat) := reserves
      exact opened.tablesKept
  | ok result => exact reserves.1.tablesKept

theorem Creates.tablesKept
    (creates : Creates env store type perm next made) :
    TablesKept store next := by
  cases made with
  | error stat =>
      obtain ⟨rfl | rfl, _⟩ := creates
      · exact TablesKept.refl _
      · exact ⟨fun _ _ => id, fun _ node stored => ⟨node, stored, id⟩⟩
  | ok result =>
      obtain ⟨fh, gname⟩ := result
      obtain ⟨_, new, unused, _, rfl⟩ := creates
      have opened := (@TablesKept.withHandle store fh) unused gname
      refine ⟨opened.handles, fun other node stored => ?_⟩
      have differ : other ≠ gname := by
        rintro rfl
        cases new.symm.trans stored
      exact ⟨node, (Function.update_of_ne differ _ _).trans stored, id⟩

end Kept

/-! ## Writing to a slot -/

section Slots

variable {env : DirEnv} {fs : Fs} {fh : Nat} {gname : GdpName} {node : Node}

theorem tablesKept_overwrite
    (stored : fs.store.nodes gname = some node)
    (index : Nat)
    (ent : PhysEnt) :
    TablesKept fs.store (fs.store.setNode gname (node.withContents
      (overwrite node.contents (physSize * index) ent.bytes))) :=
  TablesKept.setNode stored fun whole => whole_overwrite whole index ent

/-- What a search finds is a slot. -/
theorem findIn_offset
    {contents : List UInt8}
    (found : (∃ ent, findIn contents name = .fileExists offset ent) ∨
      findIn contents name = .free offset) :
    ∃ index, offset = physSize * index := by
  rcases findIn_cases contents name with
    ⟨before, _, _, _, _, _, isFound⟩ | ⟨_, _, isFound⟩ | ⟨_, _, isFound⟩
  · rw [isFound] at found
    rcases found with ⟨_, same⟩ | impossible
    · cases same
      exact ⟨_, rfl⟩
    · cases impossible
  · rw [isFound] at found
    rcases found with ⟨_, impossible⟩ | impossible
    · cases impossible
    · cases impossible
  · rw [isFound] at found
    rcases found with ⟨_, impossible⟩ | same
    · cases impossible
    · cases same
      exact ⟨_, rfl⟩

/-- An entry is written to a slot. -/
theorem allows_write_slot
    (serves : Serves env)
    (opened : OpenOn fs fh gname node)
    (index : Nat)
    (ent : PhysEnt) :
    Allows (gdpfsFileWrite env fh ent.bytes (physSize * index))
      (fun _ next => TablesKept fs.store next.store) fs := by
  refine (allows_of_run (opened.run_gdpfsFileWrite serves.writes _ _)).mpr ?_
  exact tablesKept_overwrite opened.node index ent

theorem allows_add_slot
    (serves : Serves env)
    (opened : OpenOn fs fh gname node)
    (index : Nat)
    (name : List UInt8)
    (file : GdpName) :
    Allows (addAtOffset env fh (physSize * index) name file)
      (fun _ next => TablesKept fs.store next.store) fs := by
  refine (allows_of_run (opened.run_addAtOffset serves.writes _ _ _)).mpr ?_
  exact tablesKept_overwrite opened.node index _

theorem allows_remove_tables
    (serves : Serves env)
    (opened : OpenOn fs fh gname node)
    (name : List UInt8)
    (type : FileType) :
    Allows (gdpfsDirRemove env fh name type)
      (fun _ next => TablesKept fs.store next.store) fs := by
  rw [gdpfsDirRemove]
  refine (ensures_findInsertOffset serves.reads opened name).allows.bind ?_
  rintro found next ⟨isFound, same, _⟩
  rw [← same]
  cases found with
  | free offset => exact allows_pure.mpr (TablesKept.refl _)
  | corrupt => exact allows_pure.mpr (TablesKept.refl _)
  | fileExists offset ent =>
      obtain ⟨index, rfl⟩ := findIn_offset (Or.inl ⟨ent, isFound.symm⟩)
      refine (allows_removable ent.gname type).bind ?_
      intro stat after unchanged
      rw [← unchanged]
      split
      · refine (allows_write_slot serves
          ((opened.congr same).congr unchanged) index _).bind ?_
        exact fun _ _ kept => allows_pure.mpr kept
      · exact allows_pure.mpr (TablesKept.refl _)

theorem allows_replace_tables
    (serves : Serves env)
    (opened : OpenOn fs fh gname node)
    (name : List UInt8)
    (file : GdpName)
    (type : FileType) :
    Allows (replaceIn env fh name file type)
      (fun _ next => TablesKept fs.store next.store) fs := by
  rw [replaceIn]
  refine (ensures_findInsertOffset serves.reads opened name).allows.bind ?_
  rintro found next ⟨isFound, same, _⟩
  rw [← same]
  cases found with
  | corrupt => exact allows_pure.mpr (TablesKept.refl _)
  | free offset =>
      obtain ⟨index, rfl⟩ := findIn_offset (Or.inr isFound.symm)
      exact allows_add_slot serves (opened.congr same) index name file
  | fileExists offset ent =>
      obtain ⟨index, rfl⟩ := findIn_offset (Or.inl ⟨ent, isFound.symm⟩)
      refine (allows_replaceable ent.gname type).bind ?_
      intro stat after unchanged
      rw [← unchanged]
      split
      · exact allows_add_slot serves ((opened.congr same).congr unchanged)
          index name file
      · exact allows_pure.mpr (TablesKept.refl _)

end Slots

/-! ## Operations -/

/-- The operations that create, remove or rename files. -/
def FuseOp.changesNames : FuseOp → Bool
  | .create _ _ | .unlink _ | .mkdir _ _ | .rmdir _ | .rename _ _ => true
  | _ => false

section Operations

variable {env : DirEnv} {fs : Fs}

theorem Reserves.openOn
    {next : Fs}
    (reserves : Reserves fs.store next.store (.ok fh)) :
    ∃ gname node, OpenOn next fh gname node := by
  obtain ⟨_, _, gname, ⟨node, stored⟩, reserved⟩ := reserves
  refine ⟨gname, node, ?_, ?_⟩
  · rw [reserved]
    exact Function.update_self _ _ _
  · rw [reserved]
    exact stored

theorem allows_removeAt_tables
    (serves : Serves env)
    (filepath : List UInt8)
    (type : FileType) :
    Allows (gdpfsDirRemoveFileAtPath env filepath type)
      (fun _ next => TablesKept fs.store next.store) fs := by
  rw [gdpfsDirRemoveFileAtPath]
  refine (allows_openParentDir filepath).bind ?_
  intro parent next reserves
  cases parent with
  | error stat => exact allows_pure.mpr reserves.tablesKept
  | ok result =>
      obtain ⟨fh, name⟩ := result
      obtain ⟨gname, node, opened⟩ := reserves.1.openOn
      refine (allows_remove_tables serves opened name type).bind ?_
      intro stat last kept
      refine (allows_gdpfsFileClose fh).bind ?_
      rintro _ _ rfl
      refine allows_pure.mpr ?_
      exact (reserves.tablesKept.trans kept).closed reserves.1.1

theorem allows_createAt_tables
    (serves : Serves env)
    (filepath : List UInt8)
    (type : FileType)
    (stores : Bool)
    (perm : Nat) :
    Allows (gdpfsDirCreateFileAtPath env filepath type stores perm)
      (fun _ next => TablesKept fs.store next.store) fs := by
  rw [gdpfsDirCreateFileAtPath]
  refine (allows_openParentDir filepath).bind ?_
  intro parent next reserves
  cases parent with
  | error stat => exact allows_pure.mpr reserves.tablesKept
  | ok result =>
      obtain ⟨dirfh, name⟩ := result
      have first := reserves.tablesKept
      obtain ⟨gname, node, opened⟩ := reserves.1.openOn
      refine (ensures_findInsertOffset serves.reads opened name).allows.bind ?_
      rintro found searched ⟨isFound, same, _⟩
      rw [← same] at first
      cases found with
      | corrupt => exact allows_pure.mpr first
      | fileExists offset ent =>
          dsimp only
          split
          · exact allows_pure.mpr first
          · exact allows_throw
      | free offset =>
          obtain ⟨index, rfl⟩ := findIn_offset (Or.inr isFound.symm)
          refine (ensures_gdpfsFileCreate type perm).allows.bind ?_
          rintro made created ⟨creates, _⟩
          have second := first.trans creates.tablesKept
          cases made with
          | error stat => exact allows_pure.mpr second
          | ok result =>
              obtain ⟨fh, file⟩ := result
              obtain ⟨still, isStill, _⟩ := creates.tablesKept.tables gname
                node (opened.congr same).node
              have kept : OpenOn created dirfh gname still :=
                ⟨creates.tablesKept.handles dirfh gname
                  (opened.congr same).handle, isStill⟩
              refine (allows_add_slot serves kept index name file).bind ?_
              intro stat last added
              refine (allows_gdpfsFileClose dirfh).bind ?_
              rintro _ _ rfl
              refine allows_pure.mpr ?_
              exact (second.trans added).closed reserves.1.1

theorem allows_create_tables
    (serves : Serves env)
    (filepath : List UInt8)
    (mode : Nat) :
    Allows (gdpfsCreate env filepath mode)
      (fun _ next => TablesKept fs.store next.store) fs := by
  rw [gdpfsCreate]
  split
  · exact allows_pure.mpr (TablesKept.refl _)
  · split
    · exact allows_pure.mpr (TablesKept.refl _)
    · refine (allows_createAt_tables serves filepath .regular true _).bind ?_
      intro created next kept
      cases created.existing with
      | none =>
          cases created.fh with
          | none => exact allows_pure.mpr kept
          | some fh => exact allows_pure.mpr kept
      | some file =>
          refine (ensures_gdpfsFileOpenType env next file .regular).allows.bind ?_
          rintro result last ⟨opens, _⟩
          have all := kept.trans opens.reserves.tablesKept
          cases result with
          | error stat => exact allows_pure.mpr all
          | ok fh => exact allows_pure.mpr all

theorem allows_replaceAt_tables
    (serves : Serves env)
    (fh : Nat)
    (filepath2 : List UInt8) :
    Allows (gdpfsDirReplaceFileAtPath env fh filepath2)
      (fun _ next => TablesKept fs.store next.store) fs := by
  rw [gdpfsDirReplaceFileAtPath]
  refine (allows_lookupFh fh).bind ?_
  rintro gname _ ⟨rfl, _⟩
  refine (allows_gdpfsFileGetInfo fh).bind ?_
  intro info next same
  rw [← same]
  cases info with
  | error stat => exact allows_pure.mpr (TablesKept.refl _)
  | ok node =>
      refine (allows_openParentDir filepath2).bind ?_
      intro parent last reserves
      cases parent with
      | error stat => exact allows_pure.mpr reserves.tablesKept
      | ok result =>
          obtain ⟨dirfh, name⟩ := result
          obtain ⟨dir, _, opened⟩ := reserves.1.openOn
          refine (allows_replace_tables serves opened name gname _).mono ?_
          exact fun _ _ kept => reserves.tablesKept.trans kept

theorem allows_rename_tables
    (serves : Serves env)
    (filepath1 filepath2 : List UInt8) :
    Allows (gdpfsRename env filepath1 filepath2)
      (fun _ next => TablesKept fs.store next.store) fs := by
  rw [gdpfsRename, openPath, bind_assoc]
  refine (allows_gdpfsDirOpenFileAtPath filepath1 .unknown).bind ?_
  intro source next reserves
  cases source with
  | error stat =>
      dsimp only
      rw [pure_bind]
      exact allows_pure.mpr reserves.tablesKept
  | ok fh =>
      dsimp only
      rw [pure_bind]
      refine (allows_replaceAt_tables serves fh filepath2).bind ?_
      intro stat last kept
      refine (allows_gdpfsFileClose fh).bind ?_
      rintro _ _ rfl
      have closed := (reserves.tablesKept.trans kept).closed reserves.1
      split
      · exact allows_pure.mpr closed
      · refine (allows_removeAt_tables serves filepath1 .unknown).bind ?_
        intro stat end' removed
        split
        · exact allows_pure.mpr (closed.trans removed)
        · exact allows_pure.mpr (closed.trans removed)

/-- Whatever files an operation creates, removes or renames, open directories
stay open and made of whole entries. -/
theorem FuseOp.allows_tablesKept
    {op : FuseOp}
    (serves : Serves env)
    (changes : op.changesNames = true) :
    Allows (op.run env) (fun _ next => TablesKept fs.store next.store) fs := by
  cases op with
  | create filepath mode =>
      exact allows_map.mpr (allows_create_tables serves filepath mode)
  | rename filepath1 filepath2 =>
      exact allows_map.mpr (allows_rename_tables serves filepath1 filepath2)
  | unlink filepath =>
      refine allows_map.mpr ?_
      rw [gdpfsUnlink]
      split
      · exact allows_pure.mpr (TablesKept.refl _)
      · refine (allows_removeAt_tables serves filepath .regular).bind ?_
        intro stat next kept
        split
        · exact allows_pure.mpr kept
        · exact allows_pure.mpr kept
  | mkdir filepath mode =>
      refine allows_map.mpr ?_
      rw [gdpfsMkdir]
      split
      · exact allows_pure.mpr (TablesKept.refl _)
      · refine (allows_createAt_tables serves filepath .dir false _).bind ?_
        intro created next kept
        split
        · exact allows_pure.mpr kept
        · exact allows_pure.mpr kept
  | rmdir filepath =>
      refine allows_map.mpr ?_
      rw [gdpfsRmdir]
      split
      · exact allows_pure.mpr (TablesKept.refl _)
      · refine (allows_removeAt_tables serves filepath .dir).bind ?_
        intro stat next kept
        split
        · exact allows_pure.mpr kept
        · split
          · exact allows_pure.mpr kept
          · exact allows_pure.mpr kept
  | _ => cases changes

end Operations

end Dir
end Gdpfs
