import Gdpfs.Store.Effect
import Mathlib.Logic.Function.Basic

/-!
# The table of files (`gdpfs_file.c`)

`file_hash`, the reference counts and the list of recently closed files, for any
number of threads that open, write, close and evict files and run the callbacks
of appends.  A section under `open_lock`, `rc_lock` or a `ref_count_lock` is one
step.  The threads have no names: the state counts, for every file, the calls
at each point between two sections.
-/

namespace Gdpfs
namespace Table

open Effect

/-- `RC_CAP`. -/
def rcCap : Nat := 256

/-- What stops a step. -/
inductive TableFault
  /-- A failed assertion. -/
  | assertion
  /-- An access to a file that was freed. -/
  | useAfterFree
  /-- No call is at this point, or it has to wait. -/
  | notReady
  deriving DecidableEq, Repr

/-- What this model has of a `gdpfs_file_t`, and the calls that hold a pointer
to it. -/
structure FileEntry where
  /-- `hash_key`. -/
  name : Nat
  refCount : Nat
  recentlyClosed : Bool
  outstandingReqs : Nat
  indexFlushReqs : Nat
  /-- Open file handles. -/
  handles : Nat
  /-- Calls of `do_write` that have not appended yet. -/
  writing : Nat
  /-- Appends whose callback has not run. -/
  appending : Nat
  /-- Calls about to enter `_file_unref`. -/
  unrefs : Nat
  /-- Calls that dropped the last reference, before the assertion in
  `_recently_closed_insert`. -/
  asserting : Nat
  /-- Calls about to take `rc_lock` to insert the file. -/
  inserting : Nat
  /-- Calls of `_file_dealloc`. -/
  evicting : Nat
  /-- Checkpoints whose callback has not run. -/
  flushing : Nat
  /-- Callbacks of checkpoints that counted down to zero. -/
  checking : Nat
  /-- Callbacks of checkpoints that found the file unused. -/
  unhashing : Nat
  /-- Callbacks of checkpoints that took the file out of the hash. -/
  releasing : Nat
  freed : Bool
  deriving DecidableEq, Repr

/-- A file of zeroed memory. -/
def FileEntry.zero (name : Nat) : FileEntry where
  name := name
  refCount := 0
  recentlyClosed := false
  outstandingReqs := 0
  indexFlushReqs := 0
  handles := 0
  writing := 0
  appending := 0
  unrefs := 0
  asserting := 0
  inserting := 0
  evicting := 0
  flushing := 0
  checking := 0
  unhashing := 0
  releasing := 0
  freed := false

/-- The global variables of `gdpfs_file.c`. -/
structure FileTable where
  /-- The files by their addresses. -/
  files : Nat → FileEntry
  /-- The addresses from here on are not allocated. -/
  next : Nat
  fileHash : Nat → Option Nat
  recentlyClosed : List Nat
  recentlyClosedSize : Int

/-- The table after `init_gdpfs_file`. -/
def FileTable.empty : FileTable where
  files := fun _ => FileEntry.zero 0
  next := 0
  fileHash := fun _ => none
  recentlyClosed := []
  recentlyClosedSize := 0

/-- Code that works on the table. -/
abbrev TableM := StateT FileTable (Except TableFault)

/-- Replace a file. -/
def FileTable.setFile
    (table : FileTable)
    (file : Nat)
    (entry : FileEntry) : FileTable :=
  { table with files := Function.update table.files file entry }

/-- A step of a call that holds a pointer to a file. -/
def onFile
    (file : Nat)
    (ready : FileEntry → Bool)
    (change : FileEntry → FileEntry) : TableM Unit := do
  let table ← get
  if (table.files file).freed then throw .useAfterFree
  else if ready (table.files file) then
    set (table.setFile file (change (table.files file)))
  else throw .notReady

/-! ## Opening and closing -/

/-- `_recently_closed_revive`. -/
def recentlyClosedRevive (file : Nat) : TableM Unit := do
  let table ← get
  let entry := table.files file
  if entry.recentlyClosed then
    set { table.setFile file { entry with recentlyClosed := false } with
      recentlyClosed := table.recentlyClosed.erase file
      recentlyClosedSize := table.recentlyClosedSize - 1 }
  else throw .assertion

/-- `_file_ref` for a new file handle. -/
def fileRefHandle (file : Nat) : TableM Unit := do
  let table ← get
  let entry := table.files file
  set (table.setFile file
    { entry with
      refCount := entry.refCount + 1, handles := entry.handles + 1 })

/-- A new file in the hash. -/
def newFile (name : Nat) : TableM Unit := do
  let table ← get
  set { table.setFile table.next (FileEntry.zero name) with
    next := table.next + 1
    fileHash := Function.update table.fileHash name (some table.next) }

/-- The section of `open_file` under `open_lock`. -/
def openFile (name : Nat) : TableM Unit := do
  let table ← get
  match table.fileHash name with
  | none => do
      newFile name
      fileRefHandle table.next
  | some file =>
      if (table.files file).freed then throw .useAfterFree
      else do
        if (table.files file).recentlyClosed then recentlyClosedRevive file
        else pure ()
        fileRefHandle file

/-- `gdpfs_file_close`, before `_file_unref`. -/
def fileClose (file : Nat) : TableM Unit :=
  onFile file (fun entry => 0 < entry.handles) fun entry =>
    { entry with
      handles := entry.handles - 1, unrefs := entry.unrefs + 1 }

/-- `_file_ref` in `do_write`. -/
def fileWrite (file : Nat) : TableM Unit :=
  onFile file (fun entry => 0 < entry.handles) fun entry =>
    { entry with
      refCount := entry.refCount + 1, writing := entry.writing + 1 }

/-- The rest of `do_write`. -/
def fileAppend (file : Nat) : TableM Unit :=
  onFile file (fun entry => 0 < entry.writing) fun entry =>
    { entry with
      writing := entry.writing - 1
      outstandingReqs := entry.outstandingReqs + 1
      appending := entry.appending + 1 }

/-- `free_fileref`, before `_file_unref`. -/
def freeFileref (file : Nat) : TableM Unit :=
  onFile file (fun entry => 0 < entry.appending) fun entry =>
    { entry with
      appending := entry.appending - 1
      outstandingReqs := entry.outstandingReqs - 1
      unrefs := entry.unrefs + 1 }

/-- The section of `_file_unref`. -/
def fileUnref (file : Nat) : TableM Unit :=
  onFile file (fun entry => 0 < entry.unrefs) fun entry =>
    { entry with
      unrefs := entry.unrefs - 1
      refCount := entry.refCount - 1
      asserting := entry.asserting + if entry.refCount - 1 = 0 then 1 else 0 }

/-! ## The list of recently closed files -/

/-- The assertion in `_recently_closed_insert`. -/
def assertNotClosed (file : Nat) : TableM Unit := do
  let table ← get
  if 0 < (table.files file).asserting ∧ (table.files file).recentlyClosed then
    throw .assertion
  else
    onFile file (fun entry => 0 < entry.asserting) fun entry =>
      { entry with
        asserting := entry.asserting - 1, inserting := entry.inserting + 1 }

/-- Push a file to the front of the list. -/
def pushFront (file : Nat) : TableM Unit := do
  onFile file (fun entry => 0 < entry.inserting) fun entry =>
    { entry with
      inserting := entry.inserting - 1, recentlyClosed := true }
  let table ← get
  set { table with recentlyClosed := file :: table.recentlyClosed }

/-- Pop the file at the back of the list and go on to `_file_dealloc`. -/
def popBack : TableM Unit := do
  let table ← get
  match table.recentlyClosed.getLast? with
  | none => throw .assertion
  | some old =>
      let entry := table.files old
      set { table.setFile old
          { entry with
            recentlyClosed := false, evicting := entry.evicting + 1 } with
        recentlyClosed := table.recentlyClosed.dropLast }

/-- The section of `_recently_closed_insert`. -/
def recentlyClosedInsert (file : Nat) : TableM Unit := do
  pushFront file
  let table ← get
  if table.recentlyClosedSize ≤ rcCap ∧ 0 ≤ table.recentlyClosedSize then
    if table.recentlyClosedSize = rcCap then popBack
    else
      set { table with recentlyClosedSize := table.recentlyClosedSize + 1 }
  else throw .assertion

/-! ## Checkpoints -/

/-- `_file_dealloc`, when no append is outstanding: a checkpoint of the dirty
nodes, if there are any. -/
def fileDealloc (file : Nat) (dirty : Bool) : TableM Unit :=
  onFile file
    (fun entry => 0 < entry.evicting && entry.outstandingReqs == 0)
    fun entry =>
      if dirty then
        { entry with
          evicting := entry.evicting - 1
          indexFlushReqs := entry.indexFlushReqs + 1
          flushing := entry.flushing + 1 }
      else { entry with evicting := entry.evicting - 1 }

/-- The first section of `_file_chkpt_finish`. -/
def chkptFinish (file : Nat) : TableM Unit :=
  onFile file (fun entry => 0 < entry.flushing) fun entry =>
    { entry with
      flushing := entry.flushing - 1
      indexFlushReqs := entry.indexFlushReqs - 1
      checking := entry.checking +
        if entry.indexFlushReqs - 1 = 0 then 1 else 0 }

/-- Whether `_file_chkpt_finish` keeps a file. -/
def FileEntry.used (entry : FileEntry) : Bool :=
  entry.refCount != 0 || entry.recentlyClosed

/-- The section of `_file_chkpt_finish` under three locks. -/
def chkptCheck (file : Nat) : TableM Unit :=
  onFile file (fun entry => 0 < entry.checking) fun entry =>
    { entry with
      checking := entry.checking - 1
      unhashing := entry.unhashing + if entry.used then 0 else 1 }

/-- `ep_hash_delete` in `_file_chkpt_finish`. -/
def chkptUnhash (file : Nat) : TableM Unit := do
  onFile file (fun entry => 0 < entry.unhashing) fun entry =>
    { entry with
      unhashing := entry.unhashing - 1, releasing := entry.releasing + 1 }
  let table ← get
  set { table with
    fileHash :=
      Function.update table.fileHash (table.files file).name none }

/-- `ep_mem_free` in `_file_chkpt_finish`. -/
def chkptRelease (file : Nat) : TableM Unit :=
  onFile file (fun entry => 0 < entry.releasing) fun entry =>
    { entry with releasing := entry.releasing - 1, freed := true }

/-! ## Steps -/

/-- A step of some thread. -/
inductive TableOp
  | opens (name : Nat)
  | close (file : Nat)
  | write (file : Nat)
  | append (file : Nat)
  | appended (file : Nat)
  | unref (file : Nat)
  | assertNotClosed (file : Nat)
  | insert (file : Nat)
  | dealloc (file : Nat) (dirty : Bool)
  | finish (file : Nat)
  | check (file : Nat)
  | unhash (file : Nat)
  | release (file : Nat)
  deriving DecidableEq, Repr

/-- Take a step. -/
def TableOp.run : TableOp → TableM Unit
  | .opens name => openFile name
  | .close file => fileClose file
  | .write file => fileWrite file
  | .append file => fileAppend file
  | .appended file => freeFileref file
  | .unref file => fileUnref file
  | .assertNotClosed file => Table.assertNotClosed file
  | .insert file => recentlyClosedInsert file
  | .dealloc file dirty => fileDealloc file dirty
  | .finish file => chkptFinish file
  | .check file => chkptCheck file
  | .unhash file => chkptUnhash file
  | .release file => chkptRelease file

end Table
end Gdpfs
