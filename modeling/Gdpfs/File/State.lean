import Gdpfs.FigTree.Checkpoint
import Gdpfs.FigTree.Read
import Gdpfs.Store.Bytes

/-!
# Open files (`gdpfs_file.c`)

One open file: its `gdpfs_file_t`, the heap with the nodes of its FIG tree, its
log and its cache file.  The log may be read and, unless the file system is
mounted read only, appended to.
-/

namespace Gdpfs
namespace File

open Log FigTree

/-- What stops a run of the file code: a fault of the FIG tree code, or an
assertion of the file code. -/
inductive FileFault
  | tree (fault : Fault)
  /-- A record holds fewer bytes than the index says. -/
  | shortRead
  /-- Bytes that should be in the cache are not there. -/
  | cacheMiss
  /-- Filling the cache failed where it must not. -/
  | fillCache
  /-- A read that is left to the asynchronous interface of the log. -/
  | multiread
  /-- The record number of a record that was not found. -/
  | noRecord
  /-- A null FIG tree root. -/
  | nullRoot
  /-- An access outside the buffer of a read. -/
  | badBuffer
  /-- Node images of a checkpoint read as data. -/
  | notData
  /-- More figs than bytes. -/
  | tooManyFigs
  /-- A checkpoint that could not be appended. -/
  | chkptAppend
  deriving DecidableEq, Repr

/-- `gdpfs_file_info_t`. -/
structure FileInfo where
  fileSize : Nat
  fileType : FileType
  filePerm : Nat
  deriving DecidableEq, Repr

/-! ## The cache file -/

/-- A sparse file of the local file system: its bytes, and where they were
written. -/
structure CacheFile where
  bytes : List UInt8
  /-- Offset and size of every write, the latest first. -/
  extents : List (Nat × Nat)
  deriving DecidableEq, Repr

namespace CacheFile

/-- A file that was just created. -/
def empty : CacheFile := ⟨[], []⟩

/-- `lseek` and `write`; writing no bytes does nothing. -/
def write (cache : CacheFile) (offset : Nat) (buf : List UInt8) :
    CacheFile :=
  if buf.isEmpty then cache
  else
    { bytes := overwrite cache.bytes offset buf
      extents := (offset, buf.length) :: cache.extents }

/-- `lseek` and `read`: what there is of the bytes asked for. -/
def read (cache : CacheFile) (offset size : Nat) : List UInt8 :=
  (cache.bytes.drop offset).take size

/-- Whether the file system has allocated the block of a byte. -/
def allocated (cache : CacheFile) (block x : Nat) : Bool :=
  cache.extents.any fun (offset, size) =>
    offset / block ≤ x / block && x / block ≤ (offset + size - 1) / block

/-- Whether a byte is in a hole; the end of the file counts as one. -/
def hole (cache : CacheFile) (block x : Nat) : Bool :=
  cache.bytes.length ≤ x || !cache.allocated block x

/-- `lseek` with `SEEK_HOLE`, which fails beyond the end of the file. -/
def seekHole (cache : CacheFile) (block offset : Nat) : Option Nat :=
  if cache.bytes.length < offset then none
  else
    ((List.range (cache.bytes.length - offset + 1)).find? fun i =>
      cache.hole block (offset + i)).map (offset + ·)

end CacheFile

/-! ## The state -/

/-- `gdpfs_file_t`, without its locks and names. -/
structure GdpfsFile where
  refCount : Nat
  newFile : Bool
  infoCacheValid : Bool
  infoCache : FileInfo
  lastRecno : Nat
  outstandingReqs : Nat
  indexFlushReqs : Nat
  /-- `none` is a tree whose root is the null pointer. -/
  figtree : Option Figtree
  figtreeInitialized : Bool
  deriving DecidableEq, Repr

/-- A `gdpfs_file_t` of zeroed memory. -/
def GdpfsFile.zero : GdpfsFile where
  refCount := 0
  newFile := false
  infoCacheValid := false
  infoCache := ⟨0, .regular, 0⟩
  lastRecno := 0
  outstandingReqs := 0
  indexFlushReqs := 0
  figtree := none
  figtreeInitialized := false

/-- A file with everything it refers to. -/
structure World where
  file : GdpfsFile
  heap : Heap
  log : List LogRecord
  cache : CacheFile
  deriving DecidableEq, Repr

/-- How the file system was mounted. -/
structure Env where
  /-- `use_cache`. -/
  useCache : Bool
  /-- The block size of the local file system. -/
  block : Nat
  /-- Whether `gcl_mode` is `GDP_MODE_RO`. -/
  readOnly : Bool
  /-- Whether an earlier mount with a cache has left `CACHE_DIR`. -/
  leftDir : Bool
  deriving DecidableEq, Repr

/-- Whether `CACHE_DIR` is there; `init_gdpfs_file` makes it for the cache. -/
def Env.cacheDir (env : Env) : Bool := env.useCache || env.leftDir

/-- The records that `subtree_get` can open.  It opens them through a file in
`CACHE_DIR`, also without a cache, and asserts that it could. -/
def Env.fetchable (env : Env) (log : List LogRecord) : List LogRecord :=
  if env.cacheDir then log else []

section Fetchable

variable {env : Env} {log later : List LogRecord}

theorem Env.fetchable_of_cacheDir
    (there : env.cacheDir = true) :
    env.fetchable log = log := by
  rw [Env.fetchable, if_pos there]

theorem Env.cacheDir_of_useCache
    (enabled : env.useCache = true) :
    env.cacheDir = true := by
  rw [Env.cacheDir, enabled, Bool.true_or]

/-- Every record that can be opened is in the log. -/
theorem Env.fetchable_prefix : env.fetchable log <+: log := by
  unfold Env.fetchable
  split
  · exact List.prefix_rfl
  · exact List.nil_prefix

theorem Env.fetchable_grow
    (grown : log <+: later) :
    env.fetchable log <+: env.fetchable later := by
  unfold Env.fetchable
  split
  · exact grown
  · exact List.prefix_rfl

end Fetchable

/-- Code that works on a file and may fail an assertion. -/
abbrev FileM := StateT World (Except FileFault)

/-- Run FIG tree code on the heap of the file. -/
def onTree (action : FigM α) : FileM α := do
  let world ← get
  match action.run world.heap with
  | .ok (value, heap) => do
      set { world with heap := heap }
      pure value
  | .error fault => throw (.tree fault)

/-- Change the `gdpfs_file_t`. -/
def modifyFile (change : GdpfsFile → GdpfsFile) : FileM Unit := do
  let world ← get
  set { world with file := change world.file }

/-- A 64-bit file offset or size as a 32-bit `byte_index_t`. -/
def byteIndex (x : Nat) : Nat := x % 4294967296

/-- A `size_t` computed from an offset and a size. -/
def size64 (x : Nat) : Nat := x % 18446744073709551616

/-- A difference of offsets passed as a `size_t`. -/
def sizeOfInt (x : Int) : Nat := (x % 18446744073709551616).toNat

/-! ## The log and the cache -/

/-- `gdpfs_log_append`; `appends` is the outcome of the append in the GDP.
Whether the append succeeded is handed back. -/
def gdpfsLogAppend (env : Env) (appends : Bool) (datum : LogRecord) :
    FileM Bool :=
  if env.readOnly || !appends then pure false
  else do
    let world ← get
    set { world with log := world.log ++ [datum] }
    pure true

/-- `gdpfs_file_fill_cache`; whether it succeeded is handed back. -/
def gdpfsFileFillCache (env : Env) (buf : List UInt8) (offset : Nat) :
    FileM Bool :=
  if env.useCache then do
    let world ← get
    set { world with cache := world.cache.write offset buf }
    pure true
  else pure false

/-- `gdpfs_file_get_cache`: the bytes on a hit. -/
def getCache (env : Env) (newFile : Bool) (cache : CacheFile)
    (size offset : Nat) : Option (List UInt8) :=
  if !env.useCache then none
  else
    let hit :=
      newFile || size == 0 ||
        match cache.seekHole env.block offset with
        | none => false
        | some lrv => offset + size ≤ lrv
    if hit && (cache.read offset size).length == size then
      some (cache.read offset size)
    else none

end File
end Gdpfs
