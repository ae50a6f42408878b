import Gdpfs.File.State

/-!
# Operations on an open file (`gdpfs_file.c`)

The operations behind a file handle, after `lookup_fh` has found the file.
Appends are asynchronous: `appends` says whether the log takes the datum, and
`freeFileref` is the callback that runs afterwards.  The log is mounted for
reading.
-/

namespace Gdpfs
namespace File

open Log FigTree

/-! ## File information -/

/-- What `_file_load_info_cache` takes from the header of a record. -/
def infoOf (entry : Fmeta) : FileInfo :=
  ⟨entry.fileSize, entry.fileType, entry.filePerm⟩

/-- `_file_load_info_cache`: the information in the last record of a log. -/
def loadInfo (log : List LogRecord) : FileInfo :=
  match log.getLast? with
  | none => ⟨0, .new, 0⟩
  | some datum => infoOf datum.header

/-- `_file_get_info_raw`. -/
def getInfoRaw : FileM FileInfo := do
  let world ← get
  if world.file.infoCacheValid then pure world.file.infoCache
  else do
    modifyFile fun file =>
      { file with infoCache := loadInfo world.log, infoCacheValid := true }
    pure (loadInfo world.log)

/-! ## Writing -/

/-- The datum that `do_write` appends. -/
def dataRecord (info : FileInfo) (buf : List UInt8) (offset : Nat) :
    LogRecord where
  header :=
    { fileSize := info.fileSize
      fileType := info.fileType
      filePerm := info.filePerm
      logentType := .data
      entOffset := offset
      entSize := buf.length
      magic := magicNumber }
  payload := .bytes buf

/-- The call of `ft_write` in `do_write` and in `open_file`, of `size` bytes
from `offset` on. -/
def indexWrite
    (env : Env)
    (offset : Int)
    (size recno : Nat) : FileM Unit := do
  let world ← get
  match world.file.figtree with
  | none => throw .nullRoot
  | some this => do
      let this ← onTree (ftWrite (env.fetchable world.log) this
        (offset % 4294967296).toNat
        ((offset + size - 1) % 4294967296).toNat recno)
      modifyFile fun file => { file with figtree := some this }

/-- `_file_ref`. -/
def fileRef (file : GdpfsFile) : GdpfsFile :=
  { file with refCount := file.refCount + 1 }

/-- `_file_unref`, up to the insertion into the list of recently closed
files. -/
def fileUnref (file : GdpfsFile) : GdpfsFile :=
  { file with refCount := file.refCount - 1 }

/-- The call of `gdpfs_file_fill_cache` in `do_write`. -/
def writeCache (env : Env) (buf : List UInt8) (offset : Nat) : FileM Unit :=
  if env.useCache then do
    let _ ← gdpfsFileFillCache env buf offset
  else pure ()

/-- The part of `do_write` that numbers the record and indexes its bytes. -/
def writeIndex (env : Env) (buf : List UInt8) (offset : Nat) :
    FileM Unit := do
  modifyFile fun file => { file with lastRecno := file.lastRecno + 1 }
  let rc := (← get).file.lastRecno
  if 0 < buf.length then indexWrite env offset buf.length rc else pure ()

/-- `do_write`; the number of bytes written is handed back. -/
def doWrite
    (env : Env)
    (appends : Bool)
    (buf : List UInt8)
    (offset : Nat)
    (info : FileInfo) : FileM Nat := do
  modifyFile fileRef
  modifyFile fun file =>
    { file with outstandingReqs := file.outstandingReqs + 1 }
  writeCache env buf offset
  writeIndex env buf offset
  let ok ← gdpfsLogAppend env appends (dataRecord info buf offset)
  pure (if ok then buf.length else 0)

/-- The callback of `do_write`. -/
def freeFileref (file : GdpfsFile) : GdpfsFile :=
  fileUnref { file with outstandingReqs := file.outstandingReqs - 1 }

/-- `gdpfs_file_write`. -/
def gdpfsFileWrite
    (env : Env)
    (appends : Bool)
    (buf : List UInt8)
    (offset : Nat) : FileM Nat := do
  let info ← getInfoRaw
  let potentialSize := size64 (offset + buf.length)
  let info := { info with fileSize := max info.fileSize potentialSize }
  modifyFile fun file => { file with infoCache := info }
  doWrite env appends buf offset info

/-- `gdpfs_file_ftruncate`; the source does not use the size it is given. -/
def gdpfsFileFtruncate
    (env : Env)
    (appends : Bool)
    (_fileSize : Nat) : FileM Nat := do
  let info ← getInfoRaw
  let info := { info with fileSize := 0 }
  modifyFile fun file => { file with infoCache := info }
  doWrite env appends [] 0 info

/-- `gdpfs_file_set_perm`. -/
def gdpfsFileSetPerm
    (env : Env)
    (appends : Bool)
    (perm : Nat) : FileM Unit := do
  let info ← getInfoRaw
  let info := { info with filePerm := perm }
  modifyFile fun file => { file with infoCache := info }
  let _ ← doWrite env appends [] 0 info

/-- `gdpfs_file_set_info`, which leaves the cached information alone. -/
def gdpfsFileSetInfo
    (env : Env)
    (appends : Bool)
    (info : FileInfo) : FileM Unit := do
  let _ ← doWrite env appends [] 0 info

/-! ## Reading -/

/-- Put bytes into the buffer of a read. -/
def bufferWrite (buf : List UInt8) (position : Int) (bytes : List UInt8) :
    FileM (List UInt8) :=
  if 0 ≤ position ∧ position + bytes.length ≤ buf.length then
    pure (buf.take position.toNat ++ bytes ++
      buf.drop (position.toNat + bytes.length))
  else throw .badBuffer

/-- `gdpfs_log_ent_read` of data bytes: what there is of the bytes asked
for. -/
def readBytes (ent : LogEnt) (size : Nat) : FileM (List UInt8) :=
  match ent.datum.payload with
  | .bytes contents =>
      pure ((contents.drop (ent.position - sizeofFmeta)).take size)
  | .nodes _ => throw .notData

/-- The body of the loop of `do_read` over the figs of the index. -/
def readFig
    (env : Env)
    (offset : Nat)
    (indexgroup : FtEnt)
    (buf : List UInt8) : FileM (List UInt8) := do
  let world ← get
  let left := indexgroup.irange.left
  let size := indexgroup.irange.right + 1 - left
  let position : Int := left - offset
  if indexgroup.value = 0 then
    match getCache env world.file.newFile world.cache size left with
    | none => throw .cacheMiss
    | some bytes => bufferWrite buf position bytes
  else if 0 < indexgroup.value then
    match gdpfsLogEntOpen world.log indexgroup.value.toNat with
    | none => throw .noRecord
    | some ent =>
        match readFmeta ent with
        | .error fault => throw (.tree fault)
        | .ok (entry, ent) => do
            let ent := gdpfsLogEntDrain ent (sizeOfInt (left - entry.entOffset))
            let bytes ← readBytes ent size
            if bytes.length = size then bufferWrite buf position bytes
            else throw .shortRead
  else throw .multiread

/-- The loop of `do_read` over the figs of the index, for at most `fuel` calls
of `fti_next`. -/
def readFigs (env : Env) (offset : Nat) :
    (fuel : Nat) → FigtreeIter → List UInt8 → FileM (List UInt8)
  | 0, _, _ => throw .tooManyFigs
  | fuel + 1, figterator, buf => do
      let (next, figterator) ← onTree
        (ftiNext (env.fetchable (← get).log) figterator)
      match next with
      | none => pure buf
      | some indexgroup => do
          let buf ← readFig env offset indexgroup buf
          readFigs env offset fuel figterator buf

/-- The part of `do_read` after a cache miss, for at least one byte: the bytes
that the index and the log give. -/
def readIndex (env : Env) (size offset : Nat) : FileM (List UInt8) := do
  let world ← get
  match world.file.figtree with
  | none => throw .nullRoot
  | some this => do
      let figterator ← onTree (ftRead (env.fetchable world.log) this
        (byteIndex offset) (byteIndex (offset + size - 1)))
      readFigs env offset (size + 1) figterator (List.replicate size 0)

/-- How many bytes `do_read` reads of a file of the given size; nothing, when
it returns at once. -/
def readSize (fileSize size offset : Nat) : Option Nat :=
  if fileSize < size64 (size + offset) then
    if fileSize < offset then none else some (fileSize - offset)
  else some size

/-- `do_read` and `gdpfs_file_read`; the bytes read are handed back. -/
def doRead (env : Env) (size offset : Nat) : FileM (List UInt8) := do
  let info ← getInfoRaw
  match readSize info.fileSize size offset with
  | none => pure []
  | some size => do
      let world ← get
      match getCache env world.file.newFile world.cache size offset with
      | some bytes => pure bytes
      | none =>
          if 0 < size then do
            let buf ← readIndex env size offset
            let _ ← gdpfsFileFillCache env buf offset
            pure buf
          else pure []

/-! ## Checkpoints -/

/-- The call of `get_dirty` in `_file_chkpt`; a null root has no nodes. -/
def collectDirty : FileM (List FtNode) := do
  modifyFile fun file => { file with lastRecno := file.lastRecno + 1 }
  let world ← get
  match world.file.figtree with
  | none => pure []
  | some this => onTree (getDirty this world.file.lastRecno)

/-- `_file_chkpt`; the nodes that were checkpointed are handed back. -/
def fileChkpt (env : Env) (appends : Bool) : FileM (List FtNode) := do
  let info ← getInfoRaw
  let chkpt ← collectDirty
  if 0 < chkpt.length then do
    modifyFile fun file =>
      { file with indexFlushReqs := file.indexFlushReqs + 1 }
    let ok ← gdpfsLogAppend env appends
      (chkptRecord (dataRecord info [] 0).header chkpt)
    if ok then pure chkpt else throw .chkptAppend
  else pure chkpt

/-! ## Opening -/

/-- The backward scan of `open_file` for the last checkpoint: its record
number, or zero, and the records after it, the oldest first. -/
def scanBack (log : List LogRecord) :
    (recno : Nat) → List (Nat × LogRecord) →
      FileM (Nat × List (Nat × LogRecord))
  | 0, ents => pure (0, ents)
  | recno + 1, ents =>
      match gdpfsLogEntOpen log (recno + 1) with
      | none => throw .noRecord
      | some ent =>
          match readFmeta ent with
          | .error fault => throw (.tree fault)
          | .ok (entry, _) =>
              if entry.logentType = .chkpt then pure (recno + 1, ents)
              else scanBack log recno ((recno + 1, ent.datum) :: ents)

/-- The loop of `open_file` that copies the data of a record into the cache,
through a bounce buffer of 1024 bytes. -/
def populateCache (env : Env) :
    (fuel : Nat) → List UInt8 → Nat → FileM Unit
  | 0, _, _ => pure ()
  | fuel + 1, buf, offset =>
      if buf.isEmpty then pure ()
      else do
        let ok ← gdpfsFileFillCache env (buf.take 1024) offset
        if ok then populateCache env fuel (buf.drop 1024) (offset + 1024)
        else throw .fillCache

/-- The body of the replay loop of `open_file`. -/
def replayRecord (env : Env) (recno : Nat) (datum : LogRecord) :
    FileM Unit :=
  if 0 < datum.header.entSize then do
    indexWrite env datum.header.entOffset datum.header.entSize recno
    let buf ← readBytes ⟨datum, sizeofFmeta⟩ datum.header.entSize
    populateCache env buf.length buf datum.header.entOffset.toNat
  else pure ()

/-- The part of `open_file` that builds the index from the log.  The record
number that the source reads from the entry of an empty log was freed. -/
def buildIndex (env : Env) : FileM Unit := do
  let log := (← get).log
  if log.isEmpty then throw .noRecord
  else do
    modifyFile fun file => { file with lastRecno := log.length }
    let (recno, ents) ← scanBack log log.length []
    let this ← onTree (if recno = 0 then ftInit else openRoot log recno)
    modifyFile fun file => { file with figtree := some this }
    forM ents fun ent => replayRecord env ent.1 ent.2
    modifyFile fun file => { file with figtreeInitialized := true }

/-- The last part of `open_file`: a new file starts with an empty index. -/
def openIndex (env : Env) (strictInit : Bool) : FileM Unit := do
  let world ← get
  if strictInit then do
    let this ← onTree ftInit
    modifyFile fun file =>
      { file with
        figtree := some this, lastRecno := 1, figtreeInitialized := true }
  else if world.file.figtreeInitialized then pure ()
  else buildIndex env

/-- The part of `open_file` that checks the type of a file and initializes a
new one; whether the type is right is handed back. -/
def openType
    (env : Env)
    (appends : Bool)
    (type : FileType)
    (perm : Nat)
    (init strictInit : Bool) : FileM Bool :=
  if type = .unknown then pure true
  else do
    let currentInfo ← getInfoRaw
    if init then
      if currentInfo.fileType = .new then do
        modifyFile fun file => { file with infoCache := ⟨0, type, perm⟩ }
        let _ ← doWrite env appends [] 0 ⟨0, type, perm⟩
        pure true
      else pure (!(currentInfo.fileType = .unknown || strictInit))
    else pure (decide (currentInfo.fileType = type))

/-- `open_file`, from the reference it takes on.  A file of the wrong type is
closed again. -/
def openFile
    (env : Env)
    (appends : Bool)
    (type : FileType)
    (perm : Nat)
    (init strictInit : Bool) : FileM Bool := do
  modifyFile fileRef
  modifyFile fun file => { file with newFile := file.newFile || strictInit }
  let ok ← openType env appends type perm init strictInit
  if ok then do
    openIndex env strictInit
    pure true
  else do
    modifyFile fileUnref
    pure false

/-- `gdpfs_file_open`. -/
def gdpfsFileOpen (env : Env) (appends : Bool) : FileM Bool :=
  openFile env appends .unknown 0 false false

/-- `gdpfs_file_open_type`. -/
def gdpfsFileOpenType (env : Env) (appends : Bool) (type : FileType) :
    FileM Bool :=
  openFile env appends type 0 false false

/-- `gdpfs_file_open_init`. -/
def gdpfsFileOpenInit
    (env : Env)
    (appends : Bool)
    (type : FileType)
    (perm : Nat)
    (strictInit : Bool) : FileM Bool :=
  openFile env appends type perm true strictInit

/-- `gdpfs_file_create`, with a log that was created before. -/
def gdpfsFileCreate
    (env : Env)
    (appends : Bool)
    (type : FileType)
    (perm : Nat) : FileM Bool :=
  gdpfsFileOpenInit env appends type perm true

end File
end Gdpfs
