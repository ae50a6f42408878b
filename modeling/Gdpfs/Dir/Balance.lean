import Gdpfs.Dir.Fuse
import Gdpfs.Dir.Names
import Mathlib.Data.List.Perm.Basic

/-!
# Handles of FUSE operations

The handles that FUSE was given and has not released yet should be all that are
reserved.  Any call may fail.
-/

namespace Gdpfs
namespace Dir

open Log File Effect

/-- A FUSE operation. -/
inductive FuseOp
  | opens (path : List UInt8) (flags : Nat)
  | opendir (path : List UInt8) (flags : Nat)
  | create (filepath : List UInt8) (mode : Nat)
  | release (fh : Nat)
  | getattr (path : List UInt8)
  | access (filepath : List UInt8) (mode : Nat)
  | chmod (filepath : List UInt8) (mode : Nat)
  | truncate (file : List UInt8) (fileSize : Nat)
  | unlink (filepath : List UInt8)
  | mkdir (filepath : List UInt8) (mode : Nat)
  | rmdir (filepath : List UInt8)
  | rename (filepath1 filepath2 : List UInt8)
  | readdir (fh offset : Nat) (accepts : List Bool)
  | read (fh size offset : Nat)
  | write (fh : Nat) (buf : List UInt8) (offset : Nat)
  | ftruncate (fh fileSize : Nat)
  deriving DecidableEq, Repr

/-- The handle that an operation hands to FUSE. -/
def handleOf (result : Except Errno Nat) : Option Nat :=
  match result with
  | .ok fh => some fh
  | .error _ => none

/-- Run an operation.  What it hands to FUSE is a handle, or nothing. -/
def FuseOp.run (env : DirEnv) : FuseOp → DirM (Option Nat)
  | .opens path flags => handleOf <$> gdpfsOpen env path flags
  | .opendir path flags => handleOf <$> gdpfsOpendir env path flags
  | .create filepath mode => handleOf <$> gdpfsCreate env filepath mode
  | .release fh => (fun _ => none) <$> gdpfsRelease fh
  | .getattr path => (fun _ => none) <$> gdpfsGetattr env path
  | .access filepath mode => (fun _ => none) <$> gdpfsAccess env filepath mode
  | .chmod filepath mode => (fun _ => none) <$> gdpfsChmod env filepath mode
  | .truncate file fileSize =>
      (fun _ => none) <$> gdpfsTruncate env file fileSize
  | .unlink filepath => (fun _ => none) <$> gdpfsUnlink env filepath
  | .mkdir filepath mode => (fun _ => none) <$> gdpfsMkdir env filepath mode
  | .rmdir filepath => (fun _ => none) <$> gdpfsRmdir env filepath
  | .rename filepath1 filepath2 =>
      (fun _ => none) <$> gdpfsRename env filepath1 filepath2
  | .readdir fh offset accepts =>
      (fun _ => none) <$> gdpfsReaddir env fh offset accepts
  | .read fh size offset => (fun _ => none) <$> gdpfsFileRead env fh size offset
  | .write fh buf offset => (fun _ => none) <$> gdpfsFileWrite env fh buf offset
  | .ftruncate fh fileSize =>
      (fun _ => none) <$> gdpfsFileFtruncate env fh fileSize

/-- The state of the file system, and the handles that FUSE holds. -/
structure Mount where
  fs : Fs
  held : List Nat

/-- The handles that FUSE holds after an operation. -/
def heldAfter (op : FuseOp) (opened : Option Nat) (held : List Nat) :
    List Nat :=
  match op with
  | .release fh => held.erase fh
  | _ => opened.toList ++ held

/-- Run an operation and keep track of what FUSE holds. -/
def FuseOp.step (env : DirEnv) (op : FuseOp) :
    StateT Mount (Except DirFault) (Option Nat) := do
  let mount ← get
  match (op.run env).run mount.fs with
  | .ok (opened, fs) => do
      set (⟨fs, heldAfter op opened mount.held⟩ : Mount)
      pure opened
  | .error fault => throw fault

/-- How many handles are reserved. -/
def reservedHandles (store : Store) : Nat :=
  (List.range maxFhs).countP fun fh => (store.fhs fh).isSome

/-! ## Operations that give back what they reserve -/

/-- In an open directory, the name is free, a file is created, and its entry is
added. -/
def AddsEntry (env : DirEnv) (type : FileType) (perm dirfh : Nat)
    (name : List UInt8) (fs : Fs) : Prop :=
  Allows (findInsertOffset env dirfh name) (fun found searched =>
    ∃ offset, found = .free offset ∧
      Allows (gdpfsFileCreate env type perm) (fun made created =>
        ∃ fh gname, made = .ok (fh, gname) ∧
          Allows (addAtOffset env dirfh offset name gname)
            (fun stat _ => stat.isOk = true) created) searched) fs

/-- The parent of a path is not opened. -/
def NoParent (env : DirEnv) (filepath : List UInt8) (fs : Fs) : Prop :=
  Allows (openParentDir env filepath)
    (fun parent _ => ∃ stat, parent = .error stat) fs

/-- The branches that keep a handle are not taken, and only handles that FUSE
holds are released.  Any call may fail; where none does, the conditions are
about the files that are stored (`careful_mkdir_iff`, `careful_create_iff`,
`careful_rename_iff`). -/
def FuseOp.Careful (env : DirEnv) (mount : Mount) : FuseOp → Prop
  | .release fh => fh ∈ mount.held
  | .create filepath mode =>
      filepath.getLast? = some slash ∨
        Allows (openParentDir env filepath) (fun parent opened =>
          ∀ dirfh name, parent = .ok (dirfh, name) →
            AddsEntry env .regular (extractPerm mode) dirfh name opened)
          mount.fs
  | .mkdir filepath _ => NoParent env filepath mount.fs
  | .rename filepath1 filepath2 =>
      Allows (openPath env filepath1 .unknown) (fun source opened =>
        ∀ fh, source = .ok fh →
          Allows (gdpfsFileGetInfo env fh) (fun info informed =>
            ∀ node, info = .ok node → NoParent env filepath2 informed) opened)
        mount.fs
  | _ => True

/-- What an operation does to the handles. -/
def HandsOver (before after : Store) : Option Nat → Prop
  | none => after.fhs = before.fhs
  | some fh => before.fhs fh = none ∧ fh < maxFhs ∧
      ∃ gname, after.fhs = Function.update before.fhs fh (some gname)

section Calls

variable {env : DirEnv} {fs : Fs} {fh : Nat} {gname : GdpName}

/-- Closing the only handle that was opened. -/
theorem fhs_closed
    {store next : Store}
    (unused : store.fhs fh = none)
    (held : next.fhs = Function.update store.fhs fh (some gname)) :
    (next.closed fh).fhs = store.fhs := by
  rw [Store.closed, held, Function.update_idem, ← unused,
    Function.update_eq_self]

/-- An operation closes the only handle that it opened. -/
theorem allows_close_bind
    {rest : Unit → DirM α}
    {post : α → Fs → Prop}
    {store : Store}
    (unused : store.fhs fh = none)
    (held : fs.store.fhs = Function.update store.fhs fh (some gname))
    (later : ∀ next : Fs, next.store.fhs = store.fhs →
      Allows (rest ()) post next) :
    Allows (gdpfsFileClose fh >>= rest) post fs := by
  refine (allows_gdpfsFileClose fh).bind ?_
  rintro _ _ rfl
  exact later _ (fhs_closed unused held)

theorem allows_gdpfsFileSetPerm (fh perm : Nat) :
    Allows (gdpfsFileSetPerm env fh perm)
      (fun _ next => next.store.fhs = fs.store.fhs) fs := by
  rw [gdpfsFileSetPerm]
  refine (allows_gdpfsFileGetInfo fh).bind ?_
  intro info next same
  cases info with
  | error stat => exact allows_pure.mpr (congrArg Store.fhs same)
  | ok node =>
      refine (allows_fileOf fh).bind ?_
      rintro ⟨gname, _⟩ _ ⟨rfl, _⟩
      dsimp only
      rw [allows_run_bind (run_succeeds .write)]
      have kept := congrArg Store.fhs same
      rintro _ _ run
      cases run
      exact kept

theorem allows_gdpfsFileFtruncate (fh fileSize : Nat) :
    Allows (gdpfsFileFtruncate env fh fileSize)
      (fun _ next => next.store.fhs = fs.store.fhs) fs := by
  rw [gdpfsFileFtruncate]
  refine (allows_gdpfsFileGetInfo fh).bind ?_
  intro info next same
  cases info with
  | error stat => exact allows_pure.mpr (congrArg Store.fhs same)
  | ok node =>
      refine (allows_fileOf fh).bind ?_
      rintro ⟨gname, _⟩ _ ⟨rfl, _⟩
      dsimp only
      rw [allows_run_bind (run_succeeds .write)]
      have kept := congrArg Store.fhs same
      rintro _ _ run
      cases run
      exact kept

theorem allows_readdirLoop (fh : Nat) (accepts : List Bool) (offset : Nat) :
    Allows (readdirLoop env fh accepts offset)
      (fun _ next => next.store = fs.store) fs := by
  induction accepts generalizing fs offset with
  | nil => exact allows_pure.mpr rfl
  | cons accepted more inductionHypothesis =>
      have fills : ∀ (name : List UInt8) (later : Nat) (next : Fs),
          next.store = fs.store →
          Allows (if accepted then do
              let rest ← readdirLoop env fh more later
              pure ((name, later) :: rest)
            else pure []) (fun _ last => last.store = fs.store) next := by
        intro name later next same
        split
        · refine (inductionHypothesis later).bind ?_
          intro rest last unchanged
          exact allows_pure.mpr (unchanged.trans same)
        · exact allows_pure.mpr same
      rw [readdirLoop]
      split
      · rw [allows_bind, allows_pure]
        exact fills _ _ _ rfl
      · split
        · rw [allows_bind, allows_pure]
          exact fills _ _ _ rfl
        · refine (allows_gdpfsDirRead fh _).bind ?_
          rintro read next ⟨same, _⟩
          cases read with
          | eof =>
              dsimp only
              rw [allows_bind, allows_pure]
              exact allows_pure.mpr same
          | ok name later =>
              dsimp only
              rw [allows_bind, allows_pure]
              exact fills _ _ _ same
          | corrupt => exact allows_bind.mpr allows_throw

theorem Reserves.handsOver
    {store next : Store}
    (reserves : Reserves store next (.ok fh)) :
    HandsOver store next (some fh) := by
  obtain ⟨unused, below, gname, _, reserved⟩ := reserves
  refine ⟨unused, below, gname, ?_⟩
  rw [reserved]
  rfl

theorem allows_openPath (path : List UInt8) (type : FileType) :
    Allows (openPath env path type)
      (fun result next => HandsOver fs.store next.store (handleOf result))
      fs := by
  rw [openPath]
  refine (allows_gdpfsDirOpenFileAtPath path type).bind ?_
  intro result next reserves
  cases result with
  | error stat => exact allows_pure.mpr (congrArg Store.fhs reserves.1)
  | ok fh => exact allows_pure.mpr reserves.handsOver

theorem allows_openChecked (path : List UInt8) (type : FileType) (flags : Nat) :
    Allows (openChecked env path type flags)
      (fun result next => HandsOver fs.store next.store (handleOf result))
      fs := by
  rw [openChecked]
  refine (allows_openPath path type).bind ?_
  intro result next handsOver
  cases result with
  | error errno => exact allows_pure.mpr handsOver
  | ok fh =>
      obtain ⟨unused, below, gname, held⟩ := handsOver
      refine (?_ : Allows (checkOpenFlags env fh flags)
        (fun _ last => last.store = next.store) next).bind ?_
      · rw [checkOpenFlags]
        refine (allows_gdpfsFileGetInfo fh).bind ?_
        intro info last same
        cases info with
        | error stat => exact allows_pure.mpr same
        | ok node => exact allows_pure.mpr same
      · intro allowed last same
        rw [← same] at held
        split
        · exact allows_pure.mpr ⟨unused, below, gname, held⟩
        · refine allows_close_bind unused held ?_
          exact fun _ restored => allows_pure.mpr restored

theorem allows_gdpfsGetattr (path : List UInt8) :
    Allows (gdpfsGetattr env path)
      (fun _ next => next.store.fhs = fs.store.fhs) fs := by
  rw [gdpfsGetattr]
  refine (allows_gdpfsDirOpenFileAtPath path .unknown).bind ?_
  intro result next reserves
  cases result with
  | error stat => exact allows_pure.mpr (congrArg Store.fhs reserves.1)
  | ok fh =>
      obtain ⟨unused, _, gname, held⟩ := reserves.handsOver
      refine (allows_gdpfsFileGetInfo fh).bind ?_
      intro info last same
      rw [← same] at held
      refine allows_close_bind unused held ?_
      intro final restored
      cases info with
      | error stat => exact allows_pure.mpr restored
      | ok node =>
          dsimp only
          split
          · exact allows_pure.mpr restored
          · exact allows_pure.mpr restored

theorem allows_gdpfsAccess (filepath : List UInt8) (mode : Nat) :
    Allows (gdpfsAccess env filepath mode)
      (fun _ next => next.store.fhs = fs.store.fhs) fs := by
  rw [gdpfsAccess]
  refine (allows_openPath filepath .unknown).bind ?_
  intro result next handsOver
  cases result with
  | error errno => exact allows_pure.mpr handsOver
  | ok fh =>
      obtain ⟨unused, _, gname, held⟩ := handsOver
      refine (allows_gdpfsFileGetInfo fh).bind ?_
      intro info last same
      rw [← same] at held
      refine allows_close_bind unused held ?_
      intro final restored
      cases info with
      | error stat => exact allows_pure.mpr restored
      | ok node =>
          dsimp only
          split
          · exact allows_pure.mpr restored
          · exact allows_pure.mpr restored

theorem allows_gdpfsChmod (filepath : List UInt8) (mode : Nat) :
    Allows (gdpfsChmod env filepath mode)
      (fun _ next => next.store.fhs = fs.store.fhs) fs := by
  rw [gdpfsChmod]
  refine (allows_openPath filepath .unknown).bind ?_
  intro result next handsOver
  cases result with
  | error errno => exact allows_pure.mpr handsOver
  | ok fh =>
      obtain ⟨unused, _, gname, held⟩ := handsOver
      refine (allows_gdpfsFileSetPerm fh _).bind ?_
      intro stat last same
      refine allows_close_bind unused (same.trans held) ?_
      exact fun _ restored => allows_pure.mpr restored

theorem allows_gdpfsTruncate (file : List UInt8) (fileSize : Nat) :
    Allows (gdpfsTruncate env file fileSize)
      (fun _ next => next.store.fhs = fs.store.fhs) fs := by
  rw [gdpfsTruncate]
  refine (allows_openPath file .regular).bind ?_
  intro result next handsOver
  cases result with
  | error errno => exact allows_pure.mpr handsOver
  | ok fh =>
      obtain ⟨unused, _, gname, held⟩ := handsOver
      refine (allows_gdpfsFileFtruncate fh fileSize).bind ?_
      intro stat last same
      refine allows_close_bind unused (same.trans held) ?_
      exact fun _ restored => allows_pure.mpr restored

theorem allows_gdpfsDirRemoveFileAtPath
    (filepath : List UInt8)
    (type : FileType) :
    Allows (gdpfsDirRemoveFileAtPath env filepath type)
      (fun _ next => next.store.fhs = fs.store.fhs) fs := by
  rw [gdpfsDirRemoveFileAtPath]
  refine (allows_openParentDir filepath).bind ?_
  intro parent next reserves
  cases parent with
  | error stat => exact allows_pure.mpr (congrArg Store.fhs reserves.1)
  | ok opened =>
      obtain ⟨unused, _, gname, held⟩ := reserves.1.handsOver
      refine (allows_gdpfsDirRemove opened.1 opened.2 type).bind ?_
      intro stat last same
      refine allows_close_bind unused (same.trans held) ?_
      exact fun _ restored => allows_pure.mpr restored

theorem allows_gdpfsUnlink (filepath : List UInt8) :
    Allows (gdpfsUnlink env filepath)
      (fun _ next => next.store.fhs = fs.store.fhs) fs := by
  rw [gdpfsUnlink]
  split
  · exact allows_pure.mpr rfl
  · refine (allows_gdpfsDirRemoveFileAtPath filepath .regular).bind ?_
    intro stat next same
    split
    · exact allows_pure.mpr same
    · exact allows_pure.mpr same

theorem allows_gdpfsRmdir (filepath : List UInt8) :
    Allows (gdpfsRmdir env filepath)
      (fun _ next => next.store.fhs = fs.store.fhs) fs := by
  rw [gdpfsRmdir]
  split
  · exact allows_pure.mpr rfl
  · refine (allows_gdpfsDirRemoveFileAtPath filepath .dir).bind ?_
    intro stat next same
    split
    · exact allows_pure.mpr same
    · split
      · exact allows_pure.mpr same
      · exact allows_pure.mpr same

/-! ## Operations with branches that keep a handle -/

theorem NoParent.allows_gdpfsMkdir
    (noParent : NoParent env filepath fs)
    (mode : Nat) :
    Allows (gdpfsMkdir env filepath mode)
      (fun _ next => next.store.fhs = fs.store.fhs) fs := by
  rw [gdpfsMkdir]
  split
  · exact allows_pure.mpr rfl
  · rw [gdpfsDirCreateFileAtPath, bind_assoc]
    refine ((allows_openParentDir filepath).and noParent).bind ?_
    rintro _ next ⟨reserves, stat, rfl⟩
    have same := congrArg Store.fhs reserves.1
    dsimp only
    rw [allows_bind, allows_pure]
    split
    · exact allows_pure.mpr same
    · exact allows_pure.mpr same

/-- A file that is created in a directory that is closed again. -/
theorem update_close
    {fhs : Nat → Option GdpName}
    (unused : fhs dirfh = none)
    (apart : fh ≠ dirfh)
    (dir gname : GdpName) :
    Function.update (Function.update (Function.update fhs dirfh (some dir)) fh
        (some gname)) dirfh none =
      Function.update fhs fh (some gname) := by
  rw [Function.update_comm apart, Function.update_idem, ← unused,
    Function.update_eq_self]

theorem allows_create_careful
    {stores : Bool}
    {perm : Nat}
    (careful : Allows (openParentDir env filepath) (fun parent opened =>
      ∀ dirfh name, parent = .ok (dirfh, name) →
        AddsEntry env type perm dirfh name opened) fs) :
    Allows (gdpfsDirCreateFileAtPath env filepath type stores perm)
      (fun created next => created.existing = none ∧
        HandsOver fs.store next.store created.fh) fs := by
  rw [gdpfsDirCreateFileAtPath]
  refine ((allows_openParentDir filepath).and careful).bind ?_
  rintro parent next ⟨reserves, adds⟩
  cases parent with
  | error stat => exact allows_pure.mpr ⟨rfl, congrArg Store.fhs reserves.1⟩
  | ok opened =>
      obtain ⟨dirfh, name⟩ := opened
      obtain ⟨unused, _, dir, held⟩ := reserves.1.handsOver
      refine ((allows_findInsertOffset dirfh name).and
        (adds dirfh name rfl)).bind ?_
      rintro _ searched ⟨⟨same, _⟩, offset, rfl, creates⟩
      refine ((ensures_gdpfsFileCreate type perm).allows.and creates).bind ?_
      rintro _ created ⟨⟨creation, _⟩, fh, gname, rfl, added⟩
      obtain ⟨_, _, free, below, made⟩ := creation
      change searched.store.fhs fh = none at free
      rw [same, held] at free
      have apart : fh ≠ dirfh := by
        rintro rfl
        rw [Function.update_self] at free
        cases free
      rw [Function.update_of_ne apart] at free
      refine ((allows_addAtOffset dirfh offset name gname).and added).bind ?_
      rintro stat last ⟨kept, passed⟩
      refine (allows_gdpfsFileClose dirfh).bind ?_
      rintro _ _ rfl
      refine allows_pure.mpr ⟨rfl, ?_⟩
      rw [passed, if_pos rfl]
      refine ⟨free, below, gname, ?_⟩
      have fhs : last.store.fhs = Function.update
          (Function.update fs.store.fhs dirfh (some dir)) fh (some gname) := by
        rw [kept, made, ← held, ← same]
        rfl
      rw [Store.closed, fhs]
      exact update_close unused apart dir gname

theorem allows_gdpfsCreate
    (careful : filepath.getLast? = some slash ∨
      Allows (openParentDir env filepath) (fun parent opened =>
        ∀ dirfh name, parent = .ok (dirfh, name) →
          AddsEntry env .regular (extractPerm mode) dirfh name opened) fs) :
    Allows (gdpfsCreate env filepath mode)
      (fun result next => HandsOver fs.store next.store (handleOf result))
      fs := by
  rw [gdpfsCreate]
  split
  · exact allows_pure.mpr rfl
  · split
    · exact allows_pure.mpr rfl
    · next noSlash =>
        refine (allows_create_careful (careful.resolve_left noSlash)).bind ?_
        rintro created next ⟨noExisting, handsOver⟩
        rw [noExisting]
        cases opened : created.fh with
        | none =>
            rw [opened] at handsOver
            exact allows_pure.mpr handsOver
        | some fh =>
            rw [opened] at handsOver
            exact allows_pure.mpr handsOver

theorem allows_replace_careful
    (careful : Allows (gdpfsFileGetInfo env fh) (fun info informed =>
      ∀ node, info = .ok node → NoParent env filepath2 informed) fs) :
    Allows (gdpfsDirReplaceFileAtPath env fh filepath2)
      (fun _ next => next.store.fhs = fs.store.fhs) fs := by
  rw [gdpfsDirReplaceFileAtPath]
  refine (allows_lookupFh fh).bind ?_
  rintro gname _ ⟨rfl, _⟩
  refine ((allows_gdpfsFileGetInfo fh).and careful).bind ?_
  rintro info next ⟨same, noParent⟩
  cases info with
  | error stat => exact allows_pure.mpr (congrArg Store.fhs same)
  | ok node =>
      refine ((allows_openParentDir filepath2).and (noParent node rfl)).bind ?_
      rintro _ last ⟨reserves, stat, rfl⟩
      refine allows_pure.mpr ?_
      rw [reserves.1, same]

theorem allows_gdpfsRename
    (careful : Allows (openPath env filepath1 .unknown) (fun source opened =>
      ∀ fh, source = .ok fh →
        Allows (gdpfsFileGetInfo env fh) (fun info informed =>
          ∀ node, info = .ok node → NoParent env filepath2 informed) opened)
      fs) :
    Allows (gdpfsRename env filepath1 filepath2)
      (fun _ next => next.store.fhs = fs.store.fhs) fs := by
  rw [gdpfsRename]
  refine ((allows_openPath filepath1 .unknown).and careful).bind ?_
  rintro source next ⟨handsOver, noParent⟩
  cases source with
  | error errno => exact allows_pure.mpr handsOver
  | ok fh =>
      obtain ⟨unused, _, gname, held⟩ := handsOver
      refine (allows_replace_careful (noParent fh rfl)).bind ?_
      intro stat last same
      refine allows_close_bind unused (same.trans held) ?_
      intro final restored
      split
      · exact allows_pure.mpr restored
      · refine (allows_gdpfsDirRemoveFileAtPath filepath1 .unknown).bind ?_
        intro stat end' kept
        split
        · exact allows_pure.mpr (kept.trans restored)
        · exact allows_pure.mpr (kept.trans restored)

end Calls

/-! ## Runs -/

/-- FUSE holds the handles that are reserved. -/
structure Mount.Balanced (mount : Mount) : Prop where
  nodup : mount.held.Nodup
  reserved : ∀ fh, mount.fs.store.fhs fh ≠ none ↔ fh ∈ mount.held
  below : ∀ fh ∈ mount.held, fh < maxFhs

theorem Mount.Balanced.count
    {mount : Mount}
    (balanced : mount.Balanced) :
    reservedHandles mount.fs.store = mount.held.length := by
  rw [reservedHandles, List.countP_eq_length_filter]
  refine List.Perm.length_eq ?_
  refine (List.perm_ext_iff_of_nodup (List.nodup_range.filter _)
    balanced.nodup).mpr ?_
  intro fh
  rw [List.mem_filter, List.mem_range, Option.isSome_iff_ne_none,
    balanced.reserved]
  constructor
  · exact fun both => both.2
  · exact fun member => ⟨balanced.below fh member, member⟩

/-- An operation is a release. -/
def FuseOp.releases : FuseOp → Bool
  | .release _ => true
  | _ => false

section Runs

variable {env : DirEnv} {mount : Mount}

/-- A handle is handed to FUSE, or nothing changes. -/
theorem Mount.Balanced.handsOver
    {fs : Fs}
    {opened : Option Nat}
    (balanced : mount.Balanced)
    (handsOver : HandsOver mount.fs.store fs.store opened) :
    Mount.Balanced ⟨fs, opened.toList ++ mount.held⟩ := by
  cases opened with
  | none =>
      change fs.store.fhs = mount.fs.store.fhs at handsOver
      refine ⟨balanced.nodup, ?_, balanced.below⟩
      intro fh
      dsimp only
      rw [handsOver]
      exact balanced.reserved fh
  | some fh =>
      obtain ⟨unused, below, gname, held⟩ := handsOver
      have new : fh ∉ mount.held := fun member =>
        (balanced.reserved fh).mpr member unused
      refine ⟨List.nodup_cons.mpr ⟨new, balanced.nodup⟩, ?_, ?_⟩
      · intro other
        dsimp only
        rw [held]
        by_cases same : other = fh
        · rw [same, Function.update_self]
          exact iff_of_true (Option.some_ne_none gname) List.mem_cons_self
        · rw [Function.update_of_ne same, balanced.reserved]
          exact (List.mem_cons.trans (or_iff_right same)).symm
      · exact List.forall_mem_cons.mpr ⟨below, balanced.below⟩

theorem Mount.Balanced.release
    (balanced : mount.Balanced)
    (fh : Nat) :
    Mount.Balanced ⟨{ mount.fs with store := mount.fs.store.closed fh },
      mount.held.erase fh⟩ := by
  refine ⟨balanced.nodup.erase fh, ?_, ?_⟩
  · intro other
    rw [balanced.nodup.mem_erase_iff]
    by_cases same : other = fh
    · rw [same]
      refine iff_of_false ?_ fun both => both.1 rfl
      exact fun reserved => reserved (Function.update_self _ _ _)
    · have kept : (mount.fs.store.closed fh).fhs other =
          mount.fs.store.fhs other := Function.update_of_ne same _ _
      dsimp only
      rw [kept, balanced.reserved]
      exact (and_iff_right same).symm
  · intro other member
    exact balanced.below other (List.mem_of_mem_erase member)

theorem FuseOp.Careful.allows_run
    {op : FuseOp}
    (careful : op.Careful env mount)
    (keeps : op.releases = false) :
    Allows (op.run env)
      (fun opened next => HandsOver mount.fs.store next.store opened)
      mount.fs := by
  cases op with
  | release fh => cases keeps
  | opens path flags =>
      exact allows_map.mpr (allows_openChecked path .regular flags)
  | opendir path flags =>
      exact allows_map.mpr (allows_openChecked path .dir flags)
  | create filepath mode => exact allows_map.mpr (allows_gdpfsCreate careful)
  | getattr path => exact allows_map.mpr (allows_gdpfsGetattr path)
  | access filepath mode =>
      exact allows_map.mpr (allows_gdpfsAccess filepath mode)
  | chmod filepath mode =>
      exact allows_map.mpr (allows_gdpfsChmod filepath mode)
  | truncate file fileSize =>
      exact allows_map.mpr (allows_gdpfsTruncate file fileSize)
  | unlink filepath => exact allows_map.mpr (allows_gdpfsUnlink filepath)
  | mkdir filepath mode =>
      exact allows_map.mpr (careful.allows_gdpfsMkdir mode)
  | rmdir filepath => exact allows_map.mpr (allows_gdpfsRmdir filepath)
  | rename filepath1 filepath2 =>
      exact allows_map.mpr (allows_gdpfsRename careful)
  | readdir fh offset accepts =>
      refine allows_map.mpr ((allows_readdirLoop fh accepts _).mono ?_)
      exact fun _ _ same => congrArg Store.fhs same
  | read fh size offset =>
      refine allows_map.mpr ((allows_gdpfsFileRead fh size offset).mono ?_)
      rintro _ _ rfl
      rfl
  | write fh buf offset =>
      exact allows_map.mpr (allows_gdpfsFileWrite fh buf offset)
  | ftruncate fh fileSize =>
      exact allows_map.mpr (allows_gdpfsFileFtruncate fh fileSize)

theorem heldAfter_of_keeps
    {op : FuseOp}
    (keeps : op.releases = false)
    (opened : Option Nat)
    (held : List Nat) :
    heldAfter op opened held = opened.toList ++ held := by
  cases op with
  | release fh => cases keeps
  | _ => rfl

/-- One operation. -/
theorem Mount.Balanced.allows_step
    (balanced : mount.Balanced)
    (op : FuseOp)
    (careful : op.Careful env mount) :
    Allows (op.step env)
      (fun opened next => next.Balanced ∧
        (op.releases = false → opened = none →
          next.fs.store.fhs = mount.fs.store.fhs)) mount := by
  rw [FuseOp.step, allows_bind, allows_get]
  cases run : (op.run env).run mount.fs with
  | error fault => exact allows_throw
  | ok result =>
      obtain ⟨opened, fs⟩ := result
      dsimp only
      rw [allows_bind, allows_set, allows_pure]
      cases keeps : op.releases with
      | false =>
          have handsOver := careful.allows_run keeps opened fs run
          rw [heldAfter_of_keeps keeps]
          refine ⟨balanced.handsOver handsOver, ?_⟩
          rintro _ rfl
          exact handsOver
      | true =>
          cases op with
          | release fh =>
              have closed : Allows ((FuseOp.release fh).run env)
                  (fun _ next => next = { mount.fs with
                    store := mount.fs.store.closed fh }) mount.fs := by
                refine allows_map.mpr ?_
                rw [gdpfsRelease]
                refine (allows_gdpfsFileClose fh).bind ?_
                exact fun _ _ same => allows_pure.mpr same
              have isClosed := closed opened fs run
              rw [isClosed]
              refine ⟨balanced.release fh, ?_⟩
              rintro ⟨⟩
          | _ => cases keeps

end Runs

/-- In every run in which no branch that keeps a handle is taken, as many handles
are reserved as FUSE holds; and an operation that hands no handle to FUSE and
does not release one leaves the handles as they were. -/
theorem handles_balanced
    {start : Fs}
    (empty : ∀ fh, start.store.fhs fh = none)
    (reached : Reached (FuseOp.step env) (fun op mount => op.Careful env mount)
      ⟨start, []⟩ mount) :
    reservedHandles mount.fs.store = mount.held.length ∧
      (∀ fh, mount.fs.store.fhs fh ≠ none ↔ fh ∈ mount.held) ∧
      ∀ op : FuseOp, op.Careful env mount →
        Allows (op.step env)
          (fun opened next =>
            reservedHandles next.fs.store = next.held.length ∧
            (op.releases = false → opened = none →
              next.fs.store.fhs = mount.fs.store.fhs)) mount := by
  have balanced : mount.Balanced := by
    refine Reached.invariant Mount.Balanced ?_ ?_ reached
    · refine ⟨List.nodup_nil, ?_, ?_⟩
      · intro fh
        exact iff_of_false (fun reserved => reserved (empty fh))
          List.not_mem_nil
      · exact fun fh impossible => absurd impossible List.not_mem_nil
    · intro op mount careful balanced
      exact (balanced.allows_step op careful).mono fun _ _ both => both.1
  refine ⟨balanced.count, balanced.reserved, ?_⟩
  intro op careful
  refine (balanced.allows_step op careful).mono ?_
  exact fun _ _ both => ⟨both.1.count, both.2⟩

/-! ## Careful operations where no call fails -/

section Smooth

variable {env : DirEnv} {fs : Fs} {mount : Mount} {store next : Store}

/-- What components lead to exists. -/
theorem stored_of_walkTo
    (isStored : ∃ node, store.nodes dir = some node)
    (leads : walkTo store type dir names = some gname) :
    ∃ node, store.nodes gname = some node := by
  induction names generalizing dir with
  | nil =>
      cases leads
      exact isStored
  | cons name rest inductionHypothesis =>
      cases found : entryOf store dir name with
      | none =>
          rw [walkTo_cons_none found] at leads
          cases leads
      | some inner =>
          rw [walkTo_cons found] at leads
          by_cases typed : hasType store inner
              (if rest.isEmpty then type else .dir) = true
          · rw [if_pos typed] at leads
            exact inductionHypothesis (stored_of_hasType typed) leads
          · rw [if_neg typed] at leads
            cases leads

/-- Components lead on through the files, whatever is open. -/
theorem walkTo_of_nodes
    (same : next.nodes = store.nodes)
    (type : FileType)
    (dir : GdpName)
    (names : List (List UInt8)) :
    walkTo next type dir names = walkTo store type dir names := by
  have sameType : ∀ gname type,
      hasType next gname type = hasType store gname type := by
    intro gname type
    rw [hasType, hasType, same]
  have sameEntry : ∀ dir name,
      entryOf next dir name = entryOf store dir name := by
    intro dir name
    rw [entryOf, entryOf, same]
  induction names generalizing dir with
  | nil => rfl
  | cons name rest inductionHypothesis =>
      cases found : entryOf store dir name with
      | none =>
          have missing := (sameEntry dir name).trans found
          rw [walkTo_cons_none found, walkTo_cons_none missing]
      | some gname =>
          have foundNext := (sameEntry dir name).trans found
          rw [walkTo_cons found, walkTo_cons foundNext, sameType,
            inductionHypothesis]

/-- The parent of a path is not opened exactly if its path leads nowhere. -/
theorem noParent_iff
    (smooth : Smooth env)
    (spare : fs.store.nextFree ≠ none)
    (root : hasType fs.store env.rootLogGname .dir = true)
    (rest : List UInt8) :
    NoParent env (slash :: rest) fs ↔
      parentOf env fs.store (slash :: rest) = none := by
  obtain ⟨result, next, run, arrives⟩ :=
    ensures_openParentDir smooth spare root rest
  rw [NoParent, allows_of_run run]
  unfold ParentArrives at arrives
  cases leads : parentOf env fs.store (slash :: rest) with
  | none =>
      rw [leads] at arrives
      obtain ⟨stat, isError, _⟩ := arrives
      exact iff_of_true ⟨stat, isError⟩ rfl
  | some dir =>
      rw [leads] at arrives
      obtain ⟨fh, rfl, _⟩ := arrives
      refine iff_of_false ?_ (Option.some_ne_none dir)
      rintro ⟨stat, impossible⟩
      cases impossible

/-- A file is created and its entry added exactly if its name is free in a
directory of whole entries. -/
theorem OpenOn.addsEntry_iff
    {node : Node}
    (smooth : Smooth env)
    (opened : OpenOn fs dirfh dir node)
    (spare : fs.store.nextFree ≠ none)
    (new : fs.store.nodes (env.newNames fs.store.created) = none)
    (type : FileType)
    (perm : Nat)
    (name : List UInt8) :
    AddsEntry env type perm dirfh name fs ↔
      ¬InUse node.contents name ∧ node.contents.length % physSize = 0 := by
  obtain ⟨_, searched, search, rfl, same, _⟩ :=
    ensures_findInsertOffset (smooth .read) opened name
  rw [AddsEntry, allows_of_run search]
  rcases findIn_cases node.contents name with
    ⟨before, ent, after, split, named, _, found⟩ | ⟨_, torn, found⟩ |
      ⟨absent, whole, found⟩
  · have inUse : InUse node.contents name := by
      refine ⟨ent, ?_, named⟩
      rw [split]
      exact List.mem_append_right _ List.mem_cons_self
    refine iff_of_false ?_ fun free => free.1 inUse
    rw [found]
    rintro ⟨offset, impossible, _⟩
    cases impossible
  · refine iff_of_false ?_ fun free => torn free.2
    rw [found]
    rintro ⟨offset, impossible, _⟩
    cases impossible
  · refine iff_of_true ⟨_, found, ?_⟩ ⟨absent, whole⟩
    refine (ensures_gdpfsFileCreate type perm).allows.mono ?_
    rintro made created ⟨creates, _⟩
    rw [← same] at spare new
    cases made with
    | error stat => exact absurd new (creates.2.2 smooth spare)
    | ok pair =>
        obtain ⟨fh, gname⟩ := pair
        obtain ⟨rfl, unnamed, unused, _, made⟩ := creates
        have stays : OpenOn created dirfh dir node :=
          (opened.congr same).of_new unnamed unused made
        refine ⟨fh, _, rfl, ?_⟩
        exact (allows_of_run (stays.run_addAtOffset (smooth .write) _ _ _)).mpr
          rfl

/-- Making a directory gives back what it reserves only where it fails at once:
its path leads to no parent. -/
theorem FuseOp.careful_mkdir_iff
    (smooth : Smooth env)
    (spare : mount.fs.store.nextFree ≠ none)
    (root : hasType mount.fs.store env.rootLogGname .dir = true)
    (rest : List UInt8)
    (mode : Nat) :
    (FuseOp.mkdir (slash :: rest) mode).Careful env mount ↔
      parentOf env mount.fs.store (slash :: rest) = none :=
  noParent_iff smooth spare root rest

/-- Creating a file gives back what it reserves where its path ends with a
slash or leads to no parent, or its name is free in the parent. -/
theorem FuseOp.careful_create_iff
    (smooth : Smooth env)
    (spare : mount.fs.store.nextFree ≠ none)
    (more : ∀ fh dir, (mount.fs.store.withHandle fh dir).nextFree ≠ none)
    (root : hasType mount.fs.store env.rootLogGname .dir = true)
    (new : mount.fs.store.nodes (env.newNames mount.fs.store.created) = none)
    (rest : List UInt8)
    (mode : Nat) :
    (FuseOp.create (slash :: rest) mode).Careful env mount ↔
      (slash :: rest).getLast? = some slash ∨
        ∀ dir node, parentOf env mount.fs.store (slash :: rest) = some dir →
          mount.fs.store.nodes dir = some node →
          ¬InUse node.contents (basename (slash :: rest)) ∧
            node.contents.length % physSize = 0 := by
  refine or_congr_right ?_
  obtain ⟨result, next, run, arrives⟩ :=
    ensures_openParentDir smooth spare root rest
  rw [allows_of_run run]
  unfold ParentArrives at arrives
  cases leads : parentOf env mount.fs.store (slash :: rest) with
  | none =>
      rw [leads] at arrives
      obtain ⟨stat, rfl, _⟩ := arrives
      refine iff_of_true ?_ ?_
      · intro dirfh name impossible
        cases impossible
      · intro dir node impossible
        cases impossible
  | some dir =>
      rw [leads] at arrives
      obtain ⟨fh, rfl, _, _, reserved⟩ := arrives
      obtain ⟨node, stored⟩ :=
        stored_of_walkTo (stored_of_hasType root) leads
      have opened : OpenOn next fh dir node := openOn_withHandle stored reserved
      have adds := opened.addsEntry_iff smooth
        (show next.store.nextFree ≠ none from reserved ▸ more fh dir)
        (show next.store.nodes (env.newNames next.store.created) = none from
          reserved ▸ new) .regular (extractPerm mode)
        (basename (slash :: rest))
      constructor
      · intro careful _ node' isDir stored'
        cases isDir
        cases stored.symm.trans stored'
        exact adds.mp (careful _ _ rfl)
      · intro free dirfh name isParent
        cases isParent
        exact adds.mpr (free dir node rfl stored)

/-- Renaming a file gives back what it reserves only where it fails early: the
old path leads to no file or the new one to no parent. -/
theorem FuseOp.careful_rename_iff
    (smooth : Smooth env)
    (spare : mount.fs.store.nextFree ≠ none)
    (more : ∀ fh dir, (mount.fs.store.withHandle fh dir).nextFree ≠ none)
    (root : hasType mount.fs.store env.rootLogGname .dir = true)
    (rest1 rest2 : List UInt8) :
    (FuseOp.rename (slash :: rest1) (slash :: rest2)).Careful env mount ↔
      walkTo mount.fs.store (finalType (slash :: rest1) .unknown)
          env.rootLogGname (components rest1) = none ∨
        parentOf env mount.fs.store (slash :: rest2) = none := by
  obtain ⟨result, next, run, arrives, _⟩ :=
    ensures_gdpfsDirOpenFileAtPath smooth spare root rest1 .unknown
  rw [FuseOp.Careful, openPath, allows_run_bind run]
  unfold Arrives at arrives
  cases leads : walkTo mount.fs.store (finalType (slash :: rest1) .unknown)
      env.rootLogGname (components rest1) with
  | none =>
      rw [leads] at arrives
      obtain ⟨stat, rfl, _⟩ := arrives
      refine iff_of_true (allows_pure.mpr ?_) (Or.inl rfl)
      intro fh impossible
      cases impossible
  | some source =>
      rw [leads] at arrives
      obtain ⟨fh, rfl, _, _, reserved⟩ := arrives
      obtain ⟨node, stored⟩ :=
        stored_of_walkTo (stored_of_hasType root) leads
      have opened : OpenOn next fh source node :=
        openOn_withHandle stored reserved
      have sameNodes : (next.later 1).store.nodes = mount.fs.store.nodes := by
        show next.store.nodes = mount.fs.store.nodes
        rw [reserved]
        rfl
      have rootLater : hasType (next.later 1).store env.rootLogGname .dir =
          true := by
        rw [hasType, sameNodes]
        exact root
      have leadsNot := noParent_iff smooth
        (show (next.later 1).store.nextFree ≠ none from
          reserved ▸ more fh source) rootLater rest2
      rw [parentOf, walkTo_of_nodes sameNodes, ← parentOf] at leadsNot
      have informs : (gdpfsFileGetInfo env fh).run next =
          .ok (.ok node, next.later 1) := by
        rw [opened.run_gdpfsFileGetInfo, smooth .info next.tick, if_pos rfl]
      rw [allows_pure]
      constructor
      · intro careful
        have later := (allows_of_run informs).mp (careful fh rfl)
        exact Or.inr (leadsNot.mp (later node rfl))
      · intro nowhere _ same
        cases same
        refine (allows_of_run informs).mpr fun _ _ => leadsNot.mpr ?_
        exact nowhere.resolve_left (Option.some_ne_none source)

end Smooth

/-- A new file system. -/
def newMount : Mount := ⟨Fs.initial DirEnv.calm, []⟩

/-- Create a file in the root. -/
def createFile : FuseOp := .create [slash, 97] 0o644

theorem careful_createFile : createFile.Careful DirEnv.calm newMount := by
  have spare : newMount.fs.store.nextFree ≠ none := spare_initial DirEnv.calm
  have root : hasType newMount.fs.store DirEnv.calm.rootLogGname .dir = true :=
    by decide +kernel
  refine (FuseOp.careful_create_iff smooth_calm spare
    (spare_withHandle DirEnv.calm) root (by decide +kernel) [97]
    0o644).mpr (Or.inr ?_)
  intro dir node leads stored
  have isRoot : parentOf DirEnv.calm newMount.fs.store [slash, 97] =
      some DirEnv.calm.rootLogGname := by decide +kernel
  cases isRoot.symm.trans leads
  have isNode : newMount.fs.store.nodes DirEnv.calm.rootLogGname =
      some ⟨.dir, rootDefaultPerm, []⟩ := by decide
  cases isNode.symm.trans stored
  refine ⟨?_, rfl⟩
  rintro ⟨ent, impossible, _⟩
  exact absurd impossible List.not_mem_nil

theorem handles_balanced_created :
    ∃ mount, Reached (FuseOp.step DirEnv.calm)
        (fun op mount => op.Careful DirEnv.calm mount) newMount mount ∧
      mount.held = [1] ∧
      reservedHandles mount.fs.store = mount.held.length := by
  have replays : (replay (FuseOp.step DirEnv.calm) (fun _ _ => true)
      [createFile] newMount).any (fun mount => mount.held == [1]) = true := by
    decide +kernel
  obtain ⟨mount, replayed, held⟩ := (Option.any_eq_true _ _).mp replays
  rw [replay, if_pos rfl] at replayed
  split at replayed
  · next value next run =>
      cases replayed
      have reached : Reached (FuseOp.step DirEnv.calm)
          (fun op mount => op.Careful DirEnv.calm mount) newMount mount :=
        .step createFile .start careful_createFile run
      exact ⟨mount, reached, beq_iff_eq.mp held,
        (handles_balanced (fun _ => rfl) reached).1⟩
  · cases replayed

/-- Making one directory keeps a handle that FUSE never gets. -/
theorem mkdir_keeps_handle :
    ∃ mount, Reached (FuseOp.step DirEnv.calm) (fun _ _ => True) newMount
        mount ∧
      mount.held = [] ∧ reservedHandles mount.fs.store = 1 := by
  have replays : (replay (FuseOp.step DirEnv.calm) (fun _ _ => true)
      [.mkdir [slash, 97] 0o755] newMount).any (fun mount =>
        mount.held == [] && reservedHandles mount.fs.store == 1) = true := by
    decide +kernel
  obtain ⟨mount, replayed, kept⟩ := (Option.any_eq_true _ _).mp replays
  rw [Bool.and_eq_true, beq_iff_eq, beq_iff_eq] at kept
  exact ⟨mount, reached_of_replay (fun _ _ _ => trivial) replayed, kept⟩

end Dir
end Gdpfs
