import Gdpfs.Dir.State
import Mathlib.Data.List.DropRight

/-!
# Directories (`gdpfs_dir.c`)

Paths are strings of bytes.  A loop over a directory file or over a path is given
more rounds than there is input; running out of them is a fault.
-/

namespace Gdpfs
namespace Dir

open Log File Effect

/-! ## Entries of a directory -/

/-- What `_find_insert_offset` returns. -/
inductive Found
  /-- `GDPFS_STAT_FILE_EXISTS`, with the offset of the entry and the entry. -/
  | fileExists (offset : Nat) (ent : PhysEnt)
  /-- `GDPFS_STAT_OK`, with the offset for a new entry. -/
  | free (offset : Nat)
  /-- `GDPFS_STAT_CORRUPT`. -/
  | corrupt
  deriving DecidableEq, Repr

/-- The status of `_find_insert_offset`. -/
def Found.stat : Found → Stat
  | .fileExists _ _ => .fileExists
  | .free _ => .ok
  | .corrupt => .corrupt

/-- The file of the entry that was found, if any. -/
def Found.file : Found → Option GdpName
  | .fileExists _ ent => some ent.gname
  | _ => none

/-- The loop of `_find_insert_offset`; `insertOffset` is the offset of the first
free entry so far. -/
def findLoop (env : DirEnv) (fh : Nat) (name : List UInt8) :
    Nat → Nat → Option Nat → DirM Found
  | 0, _, _ => throw .endless
  | rounds + 1, offset, insertOffset => do
      let block ← gdpfsFileRead env fh physSize offset
      if block.length = 0 then pure (.free (insertOffset.getD offset))
      else if block.length ≠ physSize then pure .corrupt
      else
        let ent := PhysEnt.ofBytes block
        if ent.inUse then
          if ent.text = cstr name then pure (.fileExists offset ent)
          else findLoop env fh name rounds (offset + physSize) insertOffset
        else
          findLoop env fh name rounds (offset + physSize)
            (insertOffset.or (some offset))

/-- More rounds than a loop over the entries of a file takes. -/
def roundsFor (fh : Nat) : DirM Nat := do
  let (_, node) ← fileOf fh
  pure (node.contents.length + 1)

/-- `_find_insert_offset`. -/
def findInsertOffset (env : DirEnv) (fh : Nat) (name : List UInt8) :
    DirM Found := do
  let rounds ← roundsFor fh
  findLoop env fh name rounds 0 none

/-- The status of a write of an entry that wrote `size` bytes. -/
def writeStat (size : Nat) : Stat :=
  if size = 0 then .rwFailed
  else if size ≠ physSize then .corrupt
  else .ok

/-- `_add_at_offset`. -/
def addAtOffset (env : DirEnv) (fh offset : Nat) (name : List UInt8)
    (gname : GdpName) : DirM Stat := do
  copyName (nameMaxGdpfs + 1) nameMaxGdpfs
  let size ← gdpfsFileWrite env fh (PhysEnt.named name gname).bytes offset
  pure (writeStat size)

/-- What `gdpfs_dir_read` returns. -/
inductive DirRead
  /-- `GDPFS_STAT_OK`, with the name and the offset behind the entry. -/
  | ok (name : List UInt8) (offset : Nat)
  /-- `GDPFS_STAT_EOF`. -/
  | eof
  /-- `GDPFS_STAT_CORRUPT`. -/
  | corrupt
  deriving DecidableEq, Repr

/-- The loop of `gdpfs_dir_read`. -/
def dirReadLoop (env : DirEnv) (fh : Nat) : Nat → Nat → DirM DirRead
  | 0, _ => throw .endless
  | rounds + 1, offset => do
      let block ← gdpfsFileRead env fh physSize offset
      if block.length = 0 then pure .eof
      else if block.length ≠ physSize then pure .corrupt
      else
        let ent := PhysEnt.ofBytes block
        if ent.inUse then do
          copyName nameMaxGdpfs (nameMaxGdpfs + 1)
          pure (.ok ent.text (offset + physSize))
        else dirReadLoop env fh rounds (offset + physSize)

/-- `gdpfs_dir_read`. -/
def gdpfsDirRead (env : DirEnv) (fh offset : Nat) : DirM DirRead := do
  let rounds ← roundsFor fh
  dirReadLoop env fh rounds offset

/-- `gdpfs_dir_isempty`. -/
def gdpfsDirIsempty (env : DirEnv) (fh : Nat) : DirM (Except Stat Bool) := do
  let read ← gdpfsDirRead env fh 0
  match read with
  | .corrupt => pure (.error .corrupt)
  | .eof => pure (.ok true)
  | .ok _ _ => pure (.ok false)

/-- The check that a directory is empty, before its handle is closed. -/
def checkEmpty (env : DirEnv) (fh : Nat) : DirM Stat := do
  let isempty ← gdpfsDirIsempty env fh
  gdpfsFileClose fh
  match isempty with
  | .error stat => pure stat
  | .ok true => pure .ok
  | .ok false => pure .dirNotEmpty

/-- The check in `gdpfs_dir_remove` that the file has the given type and is not
a directory with entries. -/
def removable (env : DirEnv) (gname : GdpName) (type : FileType) :
    DirM Stat :=
  if type = .unknown then pure .ok
  else do
    let opened ← gdpfsFileOpenType env gname type
    match opened with
    | .error stat => pure stat
    | .ok filefh =>
        if type = .dir then checkEmpty env filefh
        else do
          gdpfsFileClose filefh
          pure .ok

/-- `gdpfs_dir_remove`. -/
def gdpfsDirRemove (env : DirEnv) (fh : Nat) (name : List UInt8)
    (type : FileType) : DirM Stat := do
  let found ← findInsertOffset env fh name
  match found with
  | .fileExists offset ent => do
      let stat ← removable env ent.gname type
      if stat.isOk then do
        let size ← gdpfsFileWrite env fh { ent with inUse := false }.bytes offset
        pure (writeStat size)
      else pure stat
  | other => pure other.stat

/-! ## Paths -/

/-- The character `/`. -/
def slash : UInt8 := 47

/-- The next component of a path. -/
def component (path : List UInt8) : List UInt8 :=
  path.takeWhile (· ≠ slash)

/-- The path after its next component. -/
def afterComponent (path : List UInt8) : List UInt8 :=
  path.dropWhile (· ≠ slash)

/-- The loop of `gdpfs_dir_open_file_at_path`. -/
def walkLoop (env : DirEnv) (type : FileType) :
    Nat → List UInt8 → Nat → DirM (Except Stat Nat)
  | 0, _, _ => throw .endless
  | rounds + 1, path, fh =>
      match path with
      | [] => pure (.ok fh)
      | byte :: rest =>
          if byte = slash then walkLoop env type rounds rest fh
          else do
            let name := component path
            let after := afterComponent path
            copyName (nameMaxGdpfs + 1) (name.length + 1)
            let found ← findInsertOffset env fh name
            gdpfsFileClose fh
            match found with
            | .fileExists _ ent => do
                let currType := if after.isEmpty then type else .dir
                let opened ← gdpfsFileOpenType env ent.gname currType
                match opened with
                | .ok next => walkLoop env type rounds after next
                | .error stat => pure (.error stat)
            | .free _ => pure (.error .badpath)
            | .corrupt => pure (.error .corrupt)

/-- `gdpfs_dir_open_file_at_path`. -/
def gdpfsDirOpenFileAtPath (env : DirEnv) (path : List UInt8)
    (type : FileType) : DirM (Except Stat Nat) := do
  if path.head?.getD slash ≠ slash then pure (.error .badpath)
  else do
    let opened ← gdpfsFileOpenType env env.rootLogGname .dir
    match opened with
    | .error stat => pure (.error stat)
    | .ok fh => walkLoop env type (path.length + 1) path fh

/-- `basename`, for a path that starts with a slash. -/
def basename (path : List UInt8) : List UInt8 :=
  let trimmed := path.rdropWhile (· = slash)
  if trimmed.isEmpty then [slash] else trimmed.rtakeWhile (· ≠ slash)

/-- `dirname`, for a path that starts with a slash. -/
def dirname (path : List UInt8) : List UInt8 :=
  let parent :=
    ((path.rdropWhile (· = slash)).rdropWhile (· ≠ slash)).rdropWhile
      (· = slash)
  if parent.isEmpty then [slash] else parent

/-- `_open_parent_dir`: a handle on the directory, and the name of the file. -/
def openParentDir (env : DirEnv) (filepath : List UInt8) :
    DirM (Except Stat (Nat × List UInt8)) := do
  if filepath.head? ≠ some slash then pure (.error .badpath)
  else do
    let allocated ← succeeds env .memory
    if !allocated then pure (.error .oomem)
    else do
      let opened ← gdpfsDirOpenFileAtPath env (dirname filepath) .dir
      match opened with
      | .error stat => pure (.error stat)
      | .ok fh => pure (.ok (fh, basename filepath))

/-- What `gdpfs_dir_create_file_at_path` returns: its status, the handle on a
new file, and what it stored through `gname_if_exists`. -/
structure Created where
  stat : Stat
  fh : Option Nat
  existing : Option GdpName
  deriving DecidableEq, Repr

/-- `gdpfs_dir_create_file_at_path`; `stores` says that `gname_if_exists` is not
null. -/
def gdpfsDirCreateFileAtPath (env : DirEnv) (filepath : List UInt8)
    (type : FileType) (stores : Bool) (perm : Nat) : DirM Created := do
  let parent ← openParentDir env filepath
  match parent with
  | .error stat => pure ⟨stat, none, none⟩
  | .ok (dirfh, file) => do
      let found ← findInsertOffset env dirfh file
      match found with
      | .fileExists _ ent =>
          if stores then pure ⟨.fileExists, none, some ent.gname⟩
          else throw .nullPointer
      | .corrupt => pure ⟨.corrupt, none, none⟩
      | .free insertOffset => do
          let made ← gdpfsFileCreate env type perm
          match made with
          | .error stat => pure ⟨stat, none, none⟩
          | .ok (fh, newfileGname) => do
              let stat ← addAtOffset env dirfh insertOffset file newfileGname
              gdpfsFileClose dirfh
              pure ⟨stat, if stat.isOk then some fh else none, none⟩

/-- The check in `gdpfs_dir_replace_file_at_path` that an existing file may be
replaced by one of the given type. -/
def replaceable (env : DirEnv) (gname : GdpName) (f1type : FileType) :
    DirM Stat := do
  let opened ← gdpfsFileOpenType env gname .unknown
  match opened with
  | .error stat => pure stat
  | .ok fh2 => do
      let info ← gdpfsFileGetInfo env fh2
      match info with
      | .error stat => do
          gdpfsFileClose fh2
          pure stat
      | .ok node =>
          if f1type ≠ node.fileType then do
            gdpfsFileClose fh2
            pure (if node.fileType = .regular then .fileExists else .dirExists)
          else if node.fileType = .dir then checkEmpty env fh2
          else do
            gdpfsFileClose fh2
            pure .ok

/-- The part of `gdpfs_dir_replace_file_at_path` on the handle of the parent,
which is not closed. -/
def replaceIn (env : DirEnv) (fh : Nat) (file : List UInt8) (gname : GdpName)
    (f1type : FileType) : DirM Stat := do
  let found ← findInsertOffset env fh file
  match found with
  | .fileExists insertOffset ent => do
      let stat ← replaceable env ent.gname f1type
      if stat.isOk then addAtOffset env fh insertOffset file gname
      else pure stat
  | .free insertOffset => addAtOffset env fh insertOffset file gname
  | .corrupt => pure .corrupt

/-- `gdpfs_dir_replace_file_at_path`. -/
def gdpfsDirReplaceFileAtPath (env : DirEnv) (fh : Nat)
    (filepath2 : List UInt8) : DirM Stat := do
  let gname ← lookupFh fh
  let info ← gdpfsFileGetInfo env fh
  match info with
  | .error stat => pure stat
  | .ok node => do
      let parent ← openParentDir env filepath2
      match parent with
      | .error stat => pure stat
      | .ok (dirfh, file) => replaceIn env dirfh file gname node.fileType

/-- `gdpfs_dir_remove_file_at_path`. -/
def gdpfsDirRemoveFileAtPath (env : DirEnv) (filepath : List UInt8)
    (type : FileType) : DirM Stat := do
  let parent ← openParentDir env filepath
  match parent with
  | .error stat => pure stat
  | .ok (fh, file) => do
      let stat ← gdpfsDirRemove env fh file type
      gdpfsFileClose fh
      pure stat

end Dir
end Gdpfs
