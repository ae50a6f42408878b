import Gdpfs.Dir.Phys
import Gdpfs.Log.Record
import Gdpfs.Store.Effect
import Mathlib.Logic.Function.Basic

/-!
# Files under directories (`gdpfs_file.c`)

What the directory code sees of the file code: logs that hold files, and handles
on them.  Any call may fail; which ones do is up to the environment.
-/

namespace Gdpfs
namespace Dir

open Log File Effect

/-- `EP_STAT` values of the directory code. -/
inductive Stat
  | ok
  | eof
  | rwFailed
  | oomem
  | invldftype
  | corrupt
  | badpath
  | createFailed
  | fileExists
  | dirExists
  | dirNotEmpty
  /-- A status of the GDP. -/
  | gdp
  deriving DecidableEq, Repr

/-- `EP_STAT_ISOK`. -/
def Stat.isOk : Stat → Bool
  | .ok | .eof => true
  | _ => false

/-- `MAX_FHS`. -/
def maxFhs : Nat := 1024

/-- A file in a log. -/
structure Node where
  fileType : FileType
  filePerm : Nat
  contents : List UInt8
  deriving DecidableEq, Repr

/-- The logs, the handles and the supply of new logs. -/
structure Store where
  nodes : GdpName → Option Node
  /-- The file that a reserved handle is open on. -/
  fhs : Nat → Option GdpName
  /-- How many logs were taken from the supply. -/
  created : Nat

/-- A copy of a name to an array. -/
structure Copy where
  capacity : Nat
  written : Nat
  deriving DecidableEq, Repr

/-- Whether a copy stays inside its array. -/
def Copy.inBounds (copy : Copy) : Prop := copy.written ≤ copy.capacity

instance (copy : Copy) : Decidable copy.inBounds :=
  inferInstanceAs (Decidable (_ ≤ _))

/-- The state of the directory code. -/
structure Fs where
  store : Store
  /-- The calls that could have failed so far. -/
  tick : Nat
  /-- The names that were copied, the latest first. -/
  copies : List Copy

/-- Calls that may fail. -/
inductive Call
  | memory
  | create
  | opens
  | info
  | read
  | write
  deriving DecidableEq, Repr

/-- `gdpfs_file_mode_t`. -/
inductive FileMode
  | ro
  | rw
  | wo
  deriving DecidableEq, Repr

/-- What the directory code runs in. -/
structure DirEnv where
  rootLogGname : GdpName
  fsMode : FileMode
  /-- The names of the logs created in advance. -/
  newNames : Nat → GdpName
  /-- Whether a call succeeds. -/
  chance : Call → Nat → Bool
  /-- The contents of a file after a write that failed. -/
  torn : Nat → List UInt8

/-- What stops the directory code. -/
inductive DirFault
  /-- A write through the null pointer. -/
  | nullPointer
  /-- A handle that is not open. -/
  | badHandle
  /-- A directory entry that was never read. -/
  | uninitialized
  /-- A loop took more rounds than there is input. -/
  | endless
  deriving DecidableEq, Repr

/-- Code that works on the state. -/
abbrev DirM := StateT Fs (Except DirFault)

/-- Change the store. -/
def modifyStore (change : Store → Store) : DirM Unit := do
  let fs ← get
  set { fs with store := change fs.store }

/-- Whether the next call succeeds. -/
def succeeds (env : DirEnv) (call : Call) : DirM Bool := do
  let fs ← get
  set { fs with tick := fs.tick + 1 }
  pure (env.chance call fs.tick)

/-- A name is copied to an array. -/
def copyName (capacity written : Nat) : DirM Unit := do
  let fs ← get
  set { fs with copies := ⟨capacity, written⟩ :: fs.copies }

/-! ## Handles -/

/-- The lowest handle that is not reserved. -/
def Store.nextFree (store : Store) : Option Nat :=
  (List.range maxFhs).find? fun fh => (store.fhs fh).isNone

/-- `bitmap_reserve`, for a handle on the given file. -/
def reserve (gname : GdpName) : DirM (Option Nat) := do
  let fs ← get
  match fs.store.nextFree with
  | none => pure none
  | some fh => do
      modifyStore fun store =>
        { store with fhs := Function.update store.fhs fh (some gname) }
      pure (some fh)

/-- `bitmap_release`. -/
def release (fh : Nat) : DirM Unit :=
  modifyStore fun store =>
    { store with fhs := Function.update store.fhs fh none }

/-- `lookup_fh`, for a handle that is open: the file. -/
def lookupFh (fh : Nat) : DirM GdpName := do
  let fs ← get
  match fs.store.fhs fh with
  | some gname => pure gname
  | none => throw .badHandle

/-- `gdpfs_file_close`. -/
def gdpfsFileClose (fh : Nat) : DirM Unit := do
  let _ ← lookupFh fh
  release fh

/-- The type check of `open_file` on a handle that was reserved. -/
def checkType (env : DirEnv) (fh : Nat) (node : Node) (type : FileType) :
    DirM (Except Stat Nat) := do
  if type = .unknown then pure (.ok fh)
  else do
    let loaded ← succeeds env .info
    if !loaded then do
      gdpfsFileClose fh
      pure (.error .corrupt)
    else if node.fileType ≠ type then do
      gdpfsFileClose fh
      pure (.error .invldftype)
    else pure (.ok fh)

/-- `gdpfs_file_open_type`; `GDPFS_FILE_TYPE_UNKNOWN` stands for any type, as in
`gdpfs_file_open`. -/
def gdpfsFileOpenType (env : DirEnv) (gname : GdpName) (type : FileType) :
    DirM (Except Stat Nat) := do
  let reserved ← reserve gname
  match reserved with
  | none => pure (.error .oomem)
  | some fh => do
      let opened ← succeeds env .opens
      let fs ← get
      match fs.store.nodes gname with
      | some node =>
          if opened then checkType env fh node type
          else do
            release fh
            pure (.error .gdp)
      | none => do
          release fh
          pure (.error .gdp)

/-- The file that a handle is open on. -/
def fileOf (fh : Nat) : DirM (GdpName × Node) := do
  let gname ← lookupFh fh
  let fs ← get
  match fs.store.nodes gname with
  | some node => pure (gname, node)
  | none => throw .badHandle

/-- `gdpfs_file_get_info`. -/
def gdpfsFileGetInfo (env : DirEnv) (fh : Nat) : DirM (Except Stat Node) := do
  let (_, node) ← fileOf fh
  let loaded ← succeeds env .info
  if loaded then pure (.ok node) else pure (.error .corrupt)

/-- Replace a file. -/
def setNode (gname : GdpName) (node : Node) : DirM Unit :=
  modifyStore fun store =>
    { store with nodes := Function.update store.nodes gname (some node) }

/-- `gdpfs_file_read`: the bytes that were read. -/
def gdpfsFileRead (env : DirEnv) (fh size offset : Nat) :
    DirM (List UInt8) := do
  let (_, node) ← fileOf fh
  let reads ← succeeds env .read
  if reads then pure ((node.contents.drop offset).take size) else pure []

/-- `gdpfs_file_write`: the number of bytes written. -/
def gdpfsFileWrite (env : DirEnv) (fh : Nat) (buf : List UInt8)
    (offset : Nat) : DirM Nat := do
  let (gname, node) ← fileOf fh
  let fs ← get
  let writes ← succeeds env .write
  if writes then do
    setNode gname { node with contents := overwrite node.contents offset buf }
    pure buf.length
  else do
    setNode gname { node with contents := env.torn fs.tick }
    pure 0

/-- `gdpfs_file_set_perm`; the status of the write is not looked at. -/
def gdpfsFileSetPerm (env : DirEnv) (fh perm : Nat) : DirM Stat := do
  let info ← gdpfsFileGetInfo env fh
  match info with
  | .error stat => pure stat
  | .ok node => do
      let (gname, _) ← fileOf fh
      let _ ← succeeds env .write
      setNode gname { node with filePerm := perm }
      pure .ok

/-- `gdpfs_file_ftruncate`, which makes the file empty whatever the size it is
given.  It writes no bytes and hands back their number. -/
def gdpfsFileFtruncate (env : DirEnv) (fh _fileSize : Nat) : DirM Nat := do
  let info ← gdpfsFileGetInfo env fh
  match info with
  | .error _ => pure 0
  | .ok node => do
      let (gname, _) ← fileOf fh
      let _ ← succeeds env .write
      setNode gname { node with contents := [] }
      pure 0

/-- `gdpfs_log_get_precreated`. -/
def getPrecreated (env : DirEnv) : DirM (Option GdpName) := do
  let made ← succeeds env .create
  if made then do
    let fs ← get
    modifyStore fun store => { store with created := store.created + 1 }
    pure (some (env.newNames fs.store.created))
  else pure none

/-- `gdpfs_file_open_init`, for a log that must be new.  The outcome of the
first write is not looked at. -/
def gdpfsFileOpenInit (env : DirEnv) (gname : GdpName) (type : FileType)
    (perm : Nat) : DirM (Except Stat Nat) := do
  let reserved ← reserve gname
  match reserved with
  | none => pure (.error .oomem)
  | some fh => do
      let opened ← succeeds env .opens
      if !opened then do
        release fh
        pure (.error .gdp)
      else do
        let loaded ← succeeds env .info
        let fs ← get
        if !loaded then do
          gdpfsFileClose fh
          pure (.error .corrupt)
        else if (fs.store.nodes gname).isSome then do
          gdpfsFileClose fh
          pure (.error .invldftype)
        else do
          setNode gname ⟨type, perm, []⟩
          let _ ← succeeds env .write
          pure (.ok fh)

/-- `gdpfs_file_create`: a handle on the new file, and its name. -/
def gdpfsFileCreate (env : DirEnv) (type : FileType) (perm : Nat) :
    DirM (Except Stat (Nat × GdpName)) := do
  let made ← getPrecreated env
  match made with
  | none => pure (.error .createFailed)
  | some gname => do
      let opened ← gdpfsFileOpenInit env gname type perm
      match opened with
      | .error stat => pure (.error stat)
      | .ok fh => pure (.ok (fh, gname))

/-! ## A new file system -/

/-- `GDPFS_ROOT_DEFAULT_PERM`. -/
def rootDefaultPerm : Nat := 0o551

/-- The state after `init_gdpfs_dir` made the root. -/
def Fs.initial (env : DirEnv) : Fs where
  store :=
    { nodes := fun gname =>
        if gname = env.rootLogGname then some ⟨.dir, rootDefaultPerm, []⟩
        else none
      fhs := fun _ => none
      created := 0 }
  tick := 0
  copies := []

/-- An environment in which no call fails. -/
def DirEnv.calm : DirEnv where
  rootLogGname := Vector.replicate 32 0
  fsMode := .rw
  newNames := fun index => Vector.replicate 32 (UInt8.ofNat (index + 1))
  chance := fun _ _ => true
  torn := fun _ => []

end Dir
end Gdpfs
