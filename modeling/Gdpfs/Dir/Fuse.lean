import Gdpfs.Dir.Ops

/-!
# FUSE operations (`gdpfs.c`)

An operation returns 0 or an error.  `fi->fh` is an argument of the operations on
an open file and a result of those that open one.
-/

namespace Gdpfs
namespace Dir

open Log File Effect

/-- Error numbers. -/
inductive Errno
  | eperm
  | enoent
  | eacces
  | enotdir
  | eisdir
  | enotempty
  deriving DecidableEq, Repr

/-! ## Modes -/

/-- `S_IRWXU | S_IRWXG | S_IRWXO`. -/
def permMask : Nat := 0o777

/-- `S_IRUSR`. -/
def userRead : Nat := 0o400

/-- `S_IWUSR`. -/
def userWrite : Nat := 0o200

/-- `S_IXUSR`. -/
def userExecute : Nat := 0o100

/-- `gdpfs_extract_perm`. -/
def extractPerm (mode : Nat) : Nat := mode &&& permMask

/-- The flags that `_check_open_flags` looks at: `O_RDONLY`, `O_WRONLY` and
`O_RDWR`. -/
def accessFlags (flags : Nat) : Nat := flags &&& 3

/-- The permissions that `_check_open_flags` asks for. -/
def openPerms (flags perm : Nat) : Bool :=
  match accessFlags flags with
  | 0 => perm &&& userRead != 0
  | 1 => perm &&& userWrite != 0
  | 2 => perm &&& userRead != 0 && perm &&& userWrite != 0
  | _ => false

/-- `_check_open_flags`. -/
def checkOpenFlags (env : DirEnv) (fh flags : Nat) : DirM Bool := do
  let info ← gdpfsFileGetInfo env fh
  match info with
  | .error _ => pure false
  | .ok node => pure (openPerms flags node.filePerm)

/-! ## Opening and releasing -/

/-- `_open`. -/
def openPath (env : DirEnv) (path : List UInt8) (type : FileType) :
    DirM (Except Errno Nat) := do
  let opened ← gdpfsDirOpenFileAtPath env path type
  match opened with
  | .error _ => pure (.error .enoent)
  | .ok fh => pure (.ok fh)

/-- `gdpfs_open` and `gdpfs_opendir`, for regular files and for directories. -/
def openChecked (env : DirEnv) (path : List UInt8) (type : FileType)
    (flags : Nat) : DirM (Except Errno Nat) := do
  let opened ← openPath env path type
  match opened with
  | .error _ => pure (.error .enoent)
  | .ok fh => do
      let allowed ← checkOpenFlags env fh flags
      if allowed then pure (.ok fh)
      else do
        gdpfsFileClose fh
        pure (.error .eacces)

/-- `gdpfs_open`. -/
def gdpfsOpen (env : DirEnv) (path : List UInt8) (flags : Nat) :
    DirM (Except Errno Nat) :=
  openChecked env path .regular flags

/-- `gdpfs_opendir`. -/
def gdpfsOpendir (env : DirEnv) (path : List UInt8) (flags : Nat) :
    DirM (Except Errno Nat) :=
  openChecked env path .dir flags

/-- `gdpfs_release` and `gdpfs_releasedir`. -/
def gdpfsRelease (fh : Nat) : DirM (Except Errno Unit) := do
  gdpfsFileClose fh
  pure (.ok ())

/-! ## Attributes -/

/-- The type bits of `st_mode`, for the types that `gdpfs_getattr` knows. -/
def typeBits : FileType → Option Nat
  | .regular => some 0o100000
  | .dir => some 0o040000
  | _ => none

/-- The bits of `st_mode` that the mode of the file system leaves. -/
def maskMode (fsMode : FileMode) (mode : Nat) : Nat :=
  match fsMode with
  | .ro => mode - (mode &&& 0o222)
  | .rw => mode
  | .wo => mode - (mode &&& 0o444)

/-- The fields of `struct stat` that do not depend on the user. -/
structure Attr where
  stSize : Nat
  stMode : Nat
  deriving DecidableEq, Repr

/-- `gdpfs_getattr`. -/
def gdpfsGetattr (env : DirEnv) (path : List UInt8) :
    DirM (Except Errno Attr) := do
  let opened ← gdpfsDirOpenFileAtPath env path .unknown
  match opened with
  | .error _ => pure (.error .enoent)
  | .ok fh => do
      let info ← gdpfsFileGetInfo env fh
      gdpfsFileClose fh
      match info with
      | .error _ => pure (.error .enoent)
      | .ok node =>
          match typeBits node.fileType with
          | none => pure (.error .enoent)
          | some bits =>
              pure (.ok ⟨node.contents.length,
                maskMode env.fsMode (bits ||| node.filePerm)⟩)

/-- Whether the user has the permissions of a mode of `access`. -/
def accessPerms (mode perm : Nat) : Bool :=
  (mode &&& 4 == 0 || perm &&& userRead != 0) &&
    (mode &&& 2 == 0 || perm &&& userWrite != 0) &&
    (mode &&& 1 == 0 || perm &&& userExecute != 0)

/-- `gdpfs_access`. -/
def gdpfsAccess (env : DirEnv) (filepath : List UInt8) (mode : Nat) :
    DirM (Except Errno Unit) := do
  let opened ← openPath env filepath .unknown
  match opened with
  | .error _ => pure (.error .eperm)
  | .ok fh => do
      let info ← gdpfsFileGetInfo env fh
      gdpfsFileClose fh
      match info with
      | .error _ => pure (.error .eperm)
      | .ok node =>
          if accessPerms mode node.filePerm then pure (.ok ())
          else pure (.error .eperm)

/-- `gdpfs_chmod`. -/
def gdpfsChmod (env : DirEnv) (filepath : List UInt8) (mode : Nat) :
    DirM (Except Errno Unit) := do
  let opened ← openPath env filepath .unknown
  match opened with
  | .error _ => pure (.error .enoent)
  | .ok fh => do
      let _ ← gdpfsFileSetPerm env fh (extractPerm mode)
      gdpfsFileClose fh
      pure (.ok ())

/-- `gdpfs_truncate`. -/
def gdpfsTruncate (env : DirEnv) (file : List UInt8) (fileSize : Nat) :
    DirM (Except Errno Unit) := do
  let opened ← openPath env file .regular
  match opened with
  | .error errno => pure (.error errno)
  | .ok fh => do
      let _ ← gdpfsFileFtruncate env fh fileSize
      gdpfsFileClose fh
      pure (.ok ())

/-! ## Creating, removing and renaming -/

/-- `gdpfs_create`. -/
def gdpfsCreate (env : DirEnv) (filepath : List UInt8) (mode : Nat) :
    DirM (Except Errno Nat) := do
  if filepath.isEmpty then pure (.error .enoent)
  else if filepath.getLast? = some slash then pure (.error .eisdir)
  else do
    let created ← gdpfsDirCreateFileAtPath env filepath .regular true
      (extractPerm mode)
    match created.existing with
    | some existingLogname => do
        let opened ← gdpfsFileOpenType env existingLogname .regular
        match opened with
        | .ok fh => pure (.ok fh)
        | .error _ => pure (.error .enoent)
    | none =>
        match created.fh with
        | some fh => pure (.ok fh)
        | none => pure (.error .enoent)

/-- `gdpfs_unlink`. -/
def gdpfsUnlink (env : DirEnv) (filepath : List UInt8) :
    DirM (Except Errno Unit) := do
  if filepath.isEmpty then pure (.error .enoent)
  else do
    let stat ← gdpfsDirRemoveFileAtPath env filepath .regular
    if stat.isOk then pure (.ok ()) else pure (.error .enoent)

/-- `gdpfs_mkdir`. -/
def gdpfsMkdir (env : DirEnv) (filepath : List UInt8) (mode : Nat) :
    DirM (Except Errno Unit) := do
  if filepath.isEmpty then pure (.error .enoent)
  else do
    let created ← gdpfsDirCreateFileAtPath env filepath .dir false
      (extractPerm mode)
    if created.stat.isOk then pure (.ok ()) else pure (.error .enoent)

/-- `gdpfs_rmdir`. -/
def gdpfsRmdir (env : DirEnv) (filepath : List UInt8) :
    DirM (Except Errno Unit) := do
  if filepath.isEmpty then pure (.error .enoent)
  else do
    let stat ← gdpfsDirRemoveFileAtPath env filepath .dir
    if stat = .dirNotEmpty then pure (.error .enotempty)
    else if stat.isOk then pure (.ok ())
    else pure (.error .enoent)

/-- The error of `gdpfs_rename` for a status of
`gdpfs_dir_replace_file_at_path`. -/
def renameErrno : Stat → Option Errno
  | .fileExists => some .enotdir
  | .dirExists => some .eisdir
  | .dirNotEmpty => some .enotempty
  | stat => if stat.isOk then none else some .enoent

/-- `gdpfs_rename`. -/
def gdpfsRename (env : DirEnv) (filepath1 filepath2 : List UInt8) :
    DirM (Except Errno Unit) := do
  let opened ← openPath env filepath1 .unknown
  match opened with
  | .error _ => pure (.error .enoent)
  | .ok fh => do
      let stat ← gdpfsDirReplaceFileAtPath env fh filepath2
      gdpfsFileClose fh
      match renameErrno stat with
      | some errno => pure (.error errno)
      | none => do
          let stat ← gdpfsDirRemoveFileAtPath env filepath1 .unknown
          if stat.isOk then pure (.ok ()) else pure (.error .enoent)

/-! ## Listing -/

/-- The loop of `gdpfs_readdir`: `accepts` is what the calls of `filler` return,
and the entries that it accepted are handed back with their offsets. -/
def readdirLoop (env : DirEnv) (fh : Nat) :
    List Bool → Nat → DirM (List (List UInt8 × Nat))
  | [], _ => pure []
  | accepted :: more, offset => do
      let delivered ←
        if offset = 1 then pure (some ([46], 2))
        else if offset = 2 then pure (some ([46, 46], 3))
        else do
          let read ← gdpfsDirRead env fh (offset - 3)
          match read with
          | .eof => pure none
          | .ok name next => pure (some (name, next + 3))
          | .corrupt => throw .uninitialized
      match delivered with
      | none => pure []
      | some (name, next) =>
          if accepted then do
            let rest ← readdirLoop env fh more next
            pure ((name, next) :: rest)
          else pure []

/-- `gdpfs_readdir`. -/
def gdpfsReaddir (env : DirEnv) (fh offset : Nat) (accepts : List Bool) :
    DirM (List (List UInt8 × Nat)) :=
  readdirLoop env fh accepts (if offset = 0 then 1 else offset)

end Dir
end Gdpfs
