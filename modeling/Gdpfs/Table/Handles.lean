import Gdpfs.Store.Effect
import Mathlib.Algebra.BigOperators.Group.Finset.Basic
import Mathlib.Logic.Function.Basic

/-!
# File handles (`gdpfs_file.c`)

A file handle is recorded in three places: a bit of `fhs`, a slot of `files` that
is never cleared, and the `ref_count` of its file.  Operations run one after the
other and may name any handle.  The list of recently closed files is left out; a
file without references may be freed at any time.
-/

namespace Gdpfs
namespace Handles

open Effect

/-- `MAX_FHS`. -/
def maxFhs : Nat := 1024

/-- The number of values of a `uint32_t`. -/
def uint32Size : Nat := 4294967296

/-- What stops an operation. -/
inductive HandleFault
  /-- An access behind the end of `files`. -/
  | outOfBounds
  /-- An access to a file that was freed. -/
  | useAfterFree
  /-- No such callback is due. -/
  | notReady
  deriving DecidableEq, Repr

/-- What this model has of a `gdpfs_file_t`. -/
structure HandleFile where
  hashKey : Nat
  /-- A `uint32_t`. -/
  refCount : Nat
  /-- `info_cache.file_size`. -/
  fileSize : Nat
  /-- Accepted appends whose callback has not run. -/
  appending : Nat
  freed : Bool
  deriving DecidableEq, Repr

/-- A file of zeroed memory. -/
def HandleFile.zero (name : Nat) : HandleFile where
  hashKey := name
  refCount := 0
  fileSize := 0
  appending := 0
  freed := false

/-- The global variables of `gdpfs_file.c`. -/
structure HandleTable where
  fhs : Nat → Bool
  /-- The addresses of files by handle; `none` is the null pointer. -/
  files : Nat → Option Nat
  fileHash : Nat → Option Nat
  /-- The files by their addresses. -/
  entries : Nat → HandleFile
  /-- The addresses from here on are not allocated. -/
  next : Nat

/-- The table after `init_gdpfs_file`. -/
def HandleTable.empty : HandleTable where
  fhs := fun _ => false
  files := fun _ => none
  fileHash := fun _ => none
  entries := fun _ => HandleFile.zero 0
  next := 0

/-- Code that works on the table. -/
abbrev HandleM := StateT HandleTable (Except HandleFault)

/-- What an operation hands back. -/
inductive Reply
  /-- `GDPFS_STAT_BADFH`. -/
  | badFh
  /-- No bytes were read or written. -/
  | zero
  /-- `open_file` failed. -/
  | failed
  /-- `open_file` opened a handle. -/
  | handle (fh : Nat)
  /-- The operation was carried out on the file at an address. -/
  | file (address : Nat)
  deriving DecidableEq, Repr

/-- Whether an operation on a handle was rejected. -/
def Reply.rejects : Reply → Bool
  | .badFh | .zero => true
  | _ => false

/-- Change a file. -/
def HandleTable.setFile
    (table : HandleTable)
    (file : Nat)
    (entry : HandleFile) : HandleTable :=
  { table with entries := Function.update table.entries file entry }

/-- Access a file through a pointer to it. -/
def onEntry
    (file : Nat)
    (change : HandleFile → HandleFile) : HandleM Unit := do
  let table ← get
  if (table.entries file).freed then throw .useAfterFree
  else set (table.setFile file (change (table.entries file)))

/-! ## References -/

/-- `_file_ref`. -/
def fileRef (file : Nat) : HandleM Unit :=
  onEntry file fun entry =>
    { entry with refCount := (entry.refCount + 1) % uint32Size }

/-- `_file_unref`. -/
def fileUnref (file : Nat) : HandleM Unit :=
  onEntry file fun entry =>
    { entry with refCount := (entry.refCount + uint32Size - 1) % uint32Size }

/-- `bitmap_reserve`, which takes the lowest free handle. -/
def bitmapReserve : HandleM (Option Nat) := do
  let table ← get
  match (List.range maxFhs).find? fun fh => !table.fhs fh with
  | none => pure none
  | some fh => do
      set { table with fhs := Function.update table.fhs fh true }
      pure (some fh)

/-- `bitmap_release`. -/
def bitmapRelease (fh : Nat) : HandleM Unit := do
  let table ← get
  set { table with fhs := Function.update table.fhs fh false }

/-- `lookup_fh`.  Whether the bit of the handle is set does not matter. -/
def lookupFh (fh : Nat) : HandleM (Option Nat) := do
  let table ← get
  if maxFhs < fh then pure none
  else if fh = maxFhs then throw .outOfBounds
  else pure (table.files fh)

/-! ## Operations -/

/-- `gdpfs_file_close`. -/
def gdpfsFileClose (fh : Nat) : HandleM Reply := do
  let found ← lookupFh fh
  match found with
  | none => pure .badFh
  | some file => do
      bitmapRelease fh
      fileUnref file
      pure (.file file)

/-- What becomes of the record of a write. -/
inductive AppendOutcome
  /-- The record could not be made. -/
  | noEntry
  /-- `gdpfs_log_append` failed. -/
  | refused
  | accepted
  deriving DecidableEq, Repr

/-- `do_write`, as far as references are concerned. -/
def doWrite (fh : Nat) (outcome : AppendOutcome) : HandleM Reply := do
  let found ← lookupFh fh
  match found with
  | none => pure .zero
  | some file =>
      match outcome with
      | .noEntry => pure .zero
      | .refused => do
          fileRef file
          pure .zero
      | .accepted => do
          fileRef file
          onEntry file fun entry =>
            { entry with appending := entry.appending + 1 }
          pure (.file file)

/-- `gdpfs_file_write`. -/
def gdpfsFileWrite
    (fh size offset : Nat)
    (outcome : AppendOutcome) : HandleM Reply := do
  let found ← lookupFh fh
  match found with
  | none => pure .zero
  | some file => do
      onEntry file fun entry =>
        { entry with fileSize := max entry.fileSize (offset + size) }
      doWrite fh outcome

/-- `gdpfs_file_read`. -/
def gdpfsFileRead (fh : Nat) : HandleM Reply := do
  let found ← lookupFh fh
  match found with
  | none => pure .zero
  | some file => do
      onEntry file id
      pure (.file file)

/-- `gdpfs_file_get_info`. -/
def gdpfsFileGetInfo (fh : Nat) : HandleM Reply := do
  let found ← lookupFh fh
  match found with
  | none => pure .badFh
  | some file => do
      onEntry file id
      pure (.file file)

/-- `free_fileref`. -/
def freeFileref (file : Nat) : HandleM Unit := do
  let table ← get
  if (table.entries file).appending = 0 ∨ table.next ≤ file then
    throw .notReady
  else do
    onEntry file fun entry => { entry with appending := entry.appending - 1 }
    fileUnref file

/-- What `open_file` finds out about the file. -/
inductive OpenCheck
  /-- The type is right, or not checked. -/
  | passed
  /-- The file has another type, or its information cannot be read. -/
  | wrongType
  /-- The file is new, and its first record is written. -/
  | initialized (outcome : AppendOutcome)
  deriving DecidableEq, Repr

/-- The part of `open_file` that checks the file. -/
def checkFile (fh : Nat) : OpenCheck → HandleM Reply
  | .passed => pure (.handle fh)
  | .wrongType => do
      let _ ← gdpfsFileClose fh
      pure .failed
  | .initialized outcome => do
      let _ ← doWrite fh outcome
      pure (.handle fh)

/-- Put a file into the hash. -/
def newFile (name : Nat) : HandleM Nat := do
  let table ← get
  set { table.setFile table.next (HandleFile.zero name) with
    next := table.next + 1
    fileHash := Function.update table.fileHash name (some table.next) }
  pure table.next

/-- Make a handle refer to a file. -/
def attachFile (fh file : Nat) : HandleM Unit := do
  fileRef file
  let table ← get
  set { table with files := Function.update table.files fh (some file) }

/-- `open_file`, when the log can be opened or not and the file turns out as
`check` says. -/
def openFile (name : Nat) (logOpens : Bool) (check : OpenCheck) :
    HandleM Reply := do
  let reserved ← bitmapReserve
  match reserved with
  | none => pure .failed
  | some fh => do
      let table ← get
      match table.fileHash name with
      | some file => do
          attachFile fh file
          checkFile fh check
      | none =>
          if logOpens then do
            let file ← newFile name
            attachFile fh file
            checkFile fh check
          else do
            bitmapRelease fh
            pure .failed

/-- `_file_chkpt_finish` for a file without references. -/
def chkptFinish (file : Nat) : HandleM Unit := do
  let table ← get
  if (table.entries file).refCount ≠ 0 ∨ table.next ≤ file then
    throw .notReady
  else do
    onEntry file fun entry => { entry with freed := true }
    let table ← get
    set { table with
      fileHash :=
        Function.update table.fileHash (table.entries file).hashKey none }

/-- An operation on a handle. -/
inductive HandleCall
  | close
  | read
  | write (size offset : Nat) (outcome : AppendOutcome)
  | getInfo
  deriving DecidableEq, Repr

/-- Call an operation on a handle. -/
def HandleCall.run (fh : Nat) : HandleCall → HandleM Reply
  | .close => gdpfsFileClose fh
  | .read => gdpfsFileRead fh
  | .write size offset outcome => gdpfsFileWrite fh size offset outcome
  | .getInfo => gdpfsFileGetInfo fh

/-- A step. -/
inductive HandleOp
  | opens (name : Nat) (logOpens : Bool) (check : OpenCheck)
  | call (fh : Nat) (operation : HandleCall)
  | appended (file : Nat)
  | freed (file : Nat)
  deriving DecidableEq, Repr

/-- Take a step. -/
def HandleOp.run : HandleOp → HandleM Unit
  | .opens name logOpens check => do
      let _ ← openFile name logOpens check
  | .call fh operation => do
      let _ ← operation.run fh
  | .appended file => freeFileref file
  | .freed file => chkptFinish file

/-! ## Counting handles -/

/-- Whether a handle is open on a file. -/
def HandleTable.opened (table : HandleTable) (file fh : Nat) : Nat :=
  if table.fhs fh = true ∧ table.files fh = some file then 1 else 0

/-- The number of open handles on a file. -/
def HandleTable.openHandles (table : HandleTable) (file : Nat) : Nat :=
  ∑ fh ∈ Finset.range maxFhs, table.opened file fh

/-- Whether a handle is beyond the bitmap, or was never given to a file. -/
def HandleTable.unused (table : HandleTable) (fh : Nat) : Prop :=
  maxFhs < fh ∨ fh < maxFhs ∧ table.files fh = none

instance (table : HandleTable) (fh : Nat) : Decidable (table.unused fh) :=
  inferInstanceAs (Decidable (_ ∨ _))

/-- Whether a step names a handle that is open or unused, if any. -/
def HandleOp.mayName (table : HandleTable) : HandleOp → Bool
  | .call fh _ => table.fhs fh || decide (table.unused fh)
  | _ => true

/-- Whether the append of a step is accepted, if it makes one. -/
def HandleOp.accepts : HandleOp → Bool
  | .opens _ _ (.initialized outcome) => outcome ≠ .refused
  | .call _ (.write _ _ outcome) => outcome ≠ .refused
  | _ => true

/-- Whether every file can count two more references. -/
def HandleTable.room (table : HandleTable) : Bool :=
  (List.range table.next).all fun file =>
    (table.entries file).refCount + 2 < uint32Size

/-- A step names a handle that is open or unused, its append is not refused, and
no count is about to overflow. -/
def Proper (op : HandleOp) (table : HandleTable) : Prop :=
  (op.mayName table && op.accepts && table.room) = true

/-- Every reference is that of an open handle or of an outstanding append. -/
structure Counted (table : HandleTable) : Prop where
  slots : ∀ fh file, table.files fh = some file → file < table.next
  hashed : ∀ name file, table.fileHash name = some file →
    file < table.next ∧ (table.entries file).freed = false ∧
      (table.entries file).hashKey = name
  reserved : ∀ fh, table.fhs fh = true → fh < maxFhs ∧
    ∃ file, table.files fh = some file ∧ (table.entries file).freed = false
  counted : ∀ file < table.next, (table.entries file).freed = false →
    (table.entries file).refCount =
      table.openHandles file + (table.entries file).appending
  bounded : ∀ file, (table.entries file).refCount < uint32Size

theorem counted_empty : Counted HandleTable.empty where
  slots := fun _ _ found => absurd found.symm (Option.some_ne_none _)
  hashed := fun _ _ found => absurd found.symm (Option.some_ne_none _)
  reserved := fun _ impossible => absurd impossible Bool.false_ne_true
  counted := fun _ below => absurd below (Nat.not_lt_zero _)
  bounded := fun _ => Nat.succ_pos _

/-- Two tables that agree except at one handle. -/
theorem openHandles_change
    (first second : HandleTable)
    (below : fh < maxFhs)
    (bits : ∀ other, other ≠ fh → first.fhs other = second.fhs other)
    (slots : ∀ other, other ≠ fh → first.files other = second.files other)
    (file : Nat) :
    first.openHandles file + second.opened file fh =
      second.openHandles file + first.opened file fh := by
  have member := Finset.mem_range.mpr below
  have others : ∀ other ∈ (Finset.range maxFhs).erase fh,
      first.opened file other = second.opened file other := by
    intro other among
    have differ := Finset.ne_of_mem_erase among
    rw [HandleTable.opened, HandleTable.opened, bits other differ,
      slots other differ]
  rw [HandleTable.openHandles, HandleTable.openHandles,
    ← Finset.sum_erase_add _ _ member,
    ← Finset.sum_erase_add _ (second.opened file) member,
    Finset.sum_congr rfl others]
  exact Nat.add_right_comm _ _ _

/-- A handle is opened on a file. -/
def HandleTable.attach (table : HandleTable) (fh file : Nat) : HandleTable :=
  { table with
    fhs := Function.update table.fhs fh true
    files := Function.update table.files fh (some file)
    entries := Function.update table.entries file
      { table.entries file with
        refCount := ((table.entries file).refCount + 1) % uint32Size } }

/-- A handle on a file is closed. -/
def HandleTable.detach (table : HandleTable) (fh file : Nat) : HandleTable :=
  { table with
    fhs := Function.update table.fhs fh false
    entries := Function.update table.entries file
      { table.entries file with
        refCount :=
          ((table.entries file).refCount + uint32Size - 1) % uint32Size } }

section Steps

variable {table : HandleTable} {fh file name : Nat}

/-- A step that allocates and frees nothing, and takes as many references as it
drops. -/
theorem Counted.of_change
    {after : HandleTable}
    (counted : Counted table)
    (sameNext : after.next = table.next)
    (sameHash : after.fileHash = table.fileHash)
    (sameFreed : ∀ file,
      (after.entries file).freed = (table.entries file).freed)
    (sameKey : ∀ file,
      (after.entries file).hashKey = (table.entries file).hashKey)
    (slots : ∀ fh file, after.files fh = some file → file < table.next)
    (reserved : ∀ fh, after.fhs fh = true → fh < maxFhs ∧
      ∃ file, after.files fh = some file ∧ (table.entries file).freed = false)
    (balanced : ∀ file < table.next, (table.entries file).freed = false →
      (after.entries file).refCount +
          (table.openHandles file + (table.entries file).appending) =
        (table.entries file).refCount +
          (after.openHandles file + (after.entries file).appending))
    (bounded : ∀ file, (after.entries file).refCount < uint32Size) :
    Counted after where
  slots := by
    rw [sameNext]
    exact slots
  hashed := by
    intro name file found
    rw [sameHash] at found
    rw [sameNext, sameFreed, sameKey]
    exact counted.hashed name file found
  reserved := by
    intro fh bit
    obtain ⟨below, file, found, alive⟩ := reserved fh bit
    exact ⟨below, file, found, (sameFreed file).trans alive⟩
  counted := by
    intro file below alive
    rw [sameNext] at below
    rw [sameFreed] at alive
    have before := counted.counted file below alive
    have change := balanced file below alive
    omega
  bounded := bounded

theorem opened_attach :
    (table.attach fh file).opened other fh = if file = other then 1 else 0 := by
  rw [HandleTable.opened, HandleTable.attach]
  simp only [Function.update_self, true_and, Option.some.injEq]

theorem opened_detach : (table.detach fh file).opened other fh = 0 := by
  rw [HandleTable.opened, HandleTable.detach]
  simp only [Function.update_self, Bool.false_eq_true, false_and, if_false]

theorem openHandles_attach
    (below : fh < maxFhs)
    (free : table.fhs fh = false)
    (other : Nat) :
    (table.attach fh file).openHandles other =
      table.openHandles other + if file = other then 1 else 0 := by
  have change := openHandles_change (table.attach fh file) table below
    (fun other differ => Function.update_of_ne differ _ _)
    (fun other differ => Function.update_of_ne differ _ _) other
  have none : table.opened other fh = 0 := by
    rw [HandleTable.opened, free]
    simp only [Bool.false_eq_true, false_and, if_false]
  rw [opened_attach, none, Nat.add_zero] at change
  exact change

theorem openHandles_detach
    (below : fh < maxFhs)
    (opened : table.fhs fh = true)
    (found : table.files fh = some file)
    (other : Nat) :
    (table.detach fh file).openHandles other +
        (if file = other then 1 else 0) =
      table.openHandles other := by
  have change := openHandles_change (table.detach fh file) table below
    (fun other differ => Function.update_of_ne differ _ _)
    (fun _ _ => rfl) other
  have one : table.opened other fh = if file = other then 1 else 0 := by
    rw [HandleTable.opened, opened, found]
    simp only [true_and, Option.some.injEq]
  rw [opened_detach, one, Nat.add_zero] at change
  exact change

theorem entries_attach (other : Nat) :
    (table.attach fh file).entries other =
      { table.entries other with
        refCount :=
          if file = other then ((table.entries file).refCount + 1) % uint32Size
          else (table.entries other).refCount } := by
  change Function.update table.entries file _ other = _
  by_cases same : other = file
  · subst same
    rw [Function.update_self, if_pos rfl]
  · rw [Function.update_of_ne same, if_neg (Ne.symm same)]

theorem entries_detach (other : Nat) :
    (table.detach fh file).entries other =
      { table.entries other with
        refCount :=
          if file = other then
            ((table.entries file).refCount + uint32Size - 1) % uint32Size
          else (table.entries other).refCount } := by
  change Function.update table.entries file _ other = _
  by_cases same : other = file
  · subst same
    rw [Function.update_self, if_pos rfl]
  · rw [Function.update_of_ne same, if_neg (Ne.symm same)]

/-- A count that is not zero is counted down by one. -/
theorem pred_refCount
    (positive : 0 < count)
    (bounded : count < uint32Size) :
    (count + uint32Size - 1) % uint32Size = count - 1 := by
  rw [uint32Size] at bounded ⊢
  omega

theorem bounded_update
    (counted : Counted table)
    (file value other : Nat) :
    (if file = other then value % uint32Size
      else (table.entries other).refCount) < uint32Size := by
  split
  · exact Nat.mod_lt _ (by decide)
  · exact counted.bounded other

theorem Counted.attach
    (counted : Counted table)
    (below : fh < maxFhs)
    (free : table.fhs fh = false)
    (allocated : file < table.next)
    (alive : (table.entries file).freed = false)
    (room : (table.entries file).refCount + 1 < uint32Size) :
    Counted (table.attach fh file) := by
  refine counted.of_change rfl rfl ?_ ?_ ?_ ?_ ?_ ?_
  · intro other
    rw [entries_attach]
  · intro other
    rw [entries_attach]
  · intro slot other found
    change Function.update table.files fh (some file) slot = some other at found
    by_cases same : slot = fh
    · rw [same, Function.update_self] at found
      rw [← Option.some.inj found]
      exact allocated
    · rw [Function.update_of_ne same] at found
      exact counted.slots slot other found
  · intro slot bit
    change Function.update table.fhs fh true slot = true at bit
    change slot < maxFhs ∧
      ∃ other, Function.update table.files fh (some file) slot = some other ∧ _
    by_cases same : slot = fh
    · rw [same, Function.update_self]
      exact ⟨below, file, rfl, alive⟩
    · rw [Function.update_of_ne same] at bit
      rw [Function.update_of_ne same]
      exact counted.reserved slot bit
  · intro other _ _
    rw [entries_attach, openHandles_attach below free]
    by_cases same : file = other
    · rw [if_pos same, if_pos same, ← same, Nat.mod_eq_of_lt room]
      dsimp only
      omega
    · rw [if_neg same, if_neg same]
      dsimp only
      omega
  · intro other
    rw [entries_attach]
    exact bounded_update counted file _ other

theorem Counted.detach
    (counted : Counted table)
    (opened : table.fhs fh = true)
    (found : table.files fh = some file) :
    Counted (table.detach fh file) := by
  obtain ⟨below, other, foundOther, alive⟩ := counted.reserved fh opened
  cases found.symm.trans foundOther
  refine counted.of_change rfl rfl ?_ ?_ counted.slots ?_ ?_ ?_
  · intro other
    rw [entries_detach]
  · intro other
    rw [entries_detach]
  · intro slot bit
    change Function.update table.fhs fh false slot = true at bit
    by_cases same : slot = fh
    · rw [same, Function.update_self] at bit
      cases bit
    · rw [Function.update_of_ne same] at bit
      exact counted.reserved slot bit
  · intro other allocated unfreed
    have fewer := openHandles_detach below opened found other
    have before := counted.counted other allocated unfreed
    rw [entries_detach]
    by_cases same : file = other
    · subst same
      rw [if_pos rfl] at fewer
      rw [if_pos rfl, pred_refCount (by omega) (counted.bounded file)]
      dsimp only
      omega
    · rw [if_neg same] at fewer
      rw [if_neg same]
      dsimp only
      omega
  · intro other
    rw [entries_detach]
    exact bounded_update counted file _ other

theorem openHandles_setFile (entry : HandleFile) (other : Nat) :
    (table.setFile file entry).openHandles other = table.openHandles other :=
  rfl

@[simp] theorem entries_setFile (entry : HandleFile) :
    (table.setFile file entry).entries file = entry :=
  Function.update_self _ _ _

@[simp] theorem setFile_setFile (first second : HandleFile) :
    (table.setFile file first).setFile file second =
      table.setFile file second := by
  simp only [HandleTable.setFile, Function.update_idem]

/-- A file whose handles do not change. -/
theorem Counted.setFile
    {entry : HandleFile}
    (counted : Counted table)
    (sameFreed : entry.freed = (table.entries file).freed)
    (sameKey : entry.hashKey = (table.entries file).hashKey)
    (balanced : entry.refCount + (table.entries file).appending =
      (table.entries file).refCount + entry.appending)
    (bounded : entry.refCount < uint32Size) :
    Counted (table.setFile file entry) := by
  refine counted.of_change rfl rfl ?_ ?_ counted.slots counted.reserved ?_ ?_
  · intro other
    change (Function.update table.entries file entry other).freed = _
    by_cases same : other = file
    · rw [same, Function.update_self, sameFreed]
    · rw [Function.update_of_ne same]
  · intro other
    change (Function.update table.entries file entry other).hashKey = _
    by_cases same : other = file
    · rw [same, Function.update_self, sameKey]
    · rw [Function.update_of_ne same]
  · intro other _ _
    rw [openHandles_setFile]
    change (Function.update table.entries file entry other).refCount + _ =
      _ + (_ + (Function.update table.entries file entry other).appending)
    by_cases same : other = file
    · rw [same, Function.update_self]
      omega
    · rw [Function.update_of_ne same]
  · intro other
    change (Function.update table.entries file entry other).refCount < _
    by_cases same : other = file
    · rw [same, Function.update_self]
      exact bounded
    · rw [Function.update_of_ne same]
      exact counted.bounded other

/-- No handle is open on an address that is not allocated. -/
theorem Counted.openHandles_next
    (counted : Counted table) :
    table.openHandles table.next = 0 := by
  refine Finset.sum_eq_zero fun fh _ => ?_
  refine if_neg ?_
  rintro ⟨_, found⟩
  exact absurd (counted.slots fh _ found) (Nat.lt_irrefl _)

/-- The table with a new file. -/
def HandleTable.create (table : HandleTable) (name : Nat) : HandleTable :=
  { table.setFile table.next (HandleFile.zero name) with
    next := table.next + 1
    fileHash := Function.update table.fileHash name (some table.next) }

theorem entries_create
    (below : file < table.next) :
    (table.create name).entries file = table.entries file :=
  Function.update_of_ne below.ne _ _

theorem entries_create_next :
    (table.create name).entries table.next = HandleFile.zero name :=
  Function.update_self _ _ _

theorem Counted.create
    (counted : Counted table) :
    Counted (table.create name) where
  slots := fun fh file found =>
    Nat.lt_succ_of_lt (counted.slots fh file found)
  hashed := by
    intro other file found
    change Function.update table.fileHash name (some table.next) other =
      some file at found
    by_cases same : other = name
    · rw [same, Function.update_self] at found
      rw [← Option.some.inj found, entries_create_next, same]
      exact ⟨Nat.lt_succ_self _, rfl, rfl⟩
    · rw [Function.update_of_ne same] at found
      obtain ⟨below, alive, key⟩ := counted.hashed other file found
      rw [entries_create below]
      exact ⟨Nat.lt_succ_of_lt below, alive, key⟩
  reserved := by
    intro fh bit
    obtain ⟨below, file, found, alive⟩ := counted.reserved fh bit
    refine ⟨below, file, found, ?_⟩
    rw [entries_create (counted.slots fh file found)]
    exact alive
  counted := by
    intro file below alive
    change _ = table.openHandles file + _
    rcases Nat.lt_succ_iff_lt_or_eq.mp below with old | new
    · rw [entries_create old] at alive ⊢
      exact counted.counted file old alive
    · rw [new, entries_create_next, counted.openHandles_next]
      rfl
  bounded := by
    intro file
    change (Function.update table.entries table.next _ file).refCount < _
    by_cases same : file = table.next
    · rw [same, Function.update_self]
      exact Nat.succ_pos _
    · rw [Function.update_of_ne same]
      exact counted.bounded file

/-- The table without a file. -/
def HandleTable.free (table : HandleTable) (file : Nat) : HandleTable :=
  { table.setFile file { table.entries file with freed := true } with
    fileHash :=
      Function.update table.fileHash (table.entries file).hashKey none }

theorem Counted.free
    (counted : Counted table)
    (below : file < table.next)
    (unused : (table.entries file).refCount = 0)
    (alive : (table.entries file).freed = false) :
    Counted (table.free file) where
  slots := counted.slots
  hashed := by
    intro name other found
    change Function.update table.fileHash (table.entries file).hashKey none
      name = some other at found
    by_cases key : name = (table.entries file).hashKey
    · rw [key, Function.update_self] at found
      cases found
    · rw [Function.update_of_ne key] at found
      obtain ⟨allocated, unfreed, hashKey⟩ := counted.hashed name other found
      have differ : other ≠ file := by
        rintro rfl
        exact key hashKey.symm
      change other < table.next ∧
        (Function.update table.entries file _ other).freed = false ∧
        (Function.update table.entries file _ other).hashKey = name
      rw [Function.update_of_ne differ]
      exact ⟨allocated, unfreed, hashKey⟩
  reserved := by
    intro fh bit
    obtain ⟨range, other, found, unfreed⟩ := counted.reserved fh bit
    refine ⟨range, other, found, ?_⟩
    have differ : other ≠ file := by
      rintro rfl
      have none : table.opened other fh = 0 := by
        have zero := counted.counted other below alive
        rw [unused] at zero
        have sum : table.openHandles other = 0 := by omega
        exact Finset.sum_eq_zero_iff.mp sum fh (Finset.mem_range.mpr range)
      rw [HandleTable.opened, if_pos ⟨bit, found⟩] at none
      cases none
    change (Function.update table.entries file _ other).freed = false
    rw [Function.update_of_ne differ]
    exact unfreed
  counted := by
    intro other allocated unfreed
    change (Function.update table.entries file _ other).freed = false at unfreed
    change (Function.update table.entries file _ other).refCount =
      table.openHandles other +
        (Function.update table.entries file _ other).appending
    by_cases same : other = file
    · rw [same, Function.update_self] at unfreed
      cases unfreed
    · rw [Function.update_of_ne same] at unfreed ⊢
      exact counted.counted other allocated unfreed
  bounded := by
    intro other
    change (Function.update table.entries file _ other).refCount < _
    by_cases same : other = file
    · rw [same, Function.update_self]
      exact counted.bounded file
    · rw [Function.update_of_ne same]
      exact counted.bounded other

/-! ## Operations keep the count -/

theorem allows_onEntry
    {change : HandleFile → HandleFile}
    {post : Unit → HandleTable → Prop} :
    Allows (onEntry file change) post table ↔
      ((table.entries file).freed = false →
        post () (table.setFile file (change (table.entries file)))) := by
  rw [onEntry, allows_bind, allows_get]
  split
  · next freed =>
      rw [freed]
      exact iff_of_true allows_throw (fun impossible => by cases impossible)
  · next alive =>
      rw [allows_set]
      rw [Bool.not_eq_true] at alive
      exact ⟨fun holds _ => holds, fun holds => holds alive⟩

theorem run_lookupFh
    (below : fh < maxFhs) :
    (lookupFh fh).run table = .ok (table.files fh, table) := by
  have run : (lookupFh fh).run table =
      (if maxFhs < fh then pure none
        else if fh = maxFhs then throw .outOfBounds
        else pure (table.files fh) : HandleM (Option Nat)).run table := rfl
  rw [run, if_neg below.not_gt, if_neg below.ne]
  rfl

theorem run_lookupFh_unused
    (unused : table.unused fh) :
    (lookupFh fh).run table = .ok (none, table) := by
  rcases unused with beyond | ⟨below, null⟩
  · have run : (lookupFh fh).run table =
        (if maxFhs < fh then pure none
          else if fh = maxFhs then throw .outOfBounds
          else pure (table.files fh) : HandleM (Option Nat)).run table := rfl
    rw [run, if_pos beyond]
    rfl
  · rw [run_lookupFh below, null]

/-- An operation on an unused handle is rejected and changes nothing. -/
theorem run_call_unused
    (operation : HandleCall)
    (unused : table.unused fh) :
    ∃ reply, (operation.run fh).run table = .ok (reply, table) ∧
      reply.rejects = true := by
  have missing := run_lookupFh_unused unused
  cases operation with
  | close => exact ⟨.badFh, run_bind_of_run missing, rfl⟩
  | read => exact ⟨.zero, run_bind_of_run missing, rfl⟩
  | write size offset outcome =>
      exact ⟨.zero, run_bind_of_run missing, rfl⟩
  | getInfo => exact ⟨.badFh, run_bind_of_run missing, rfl⟩

/-- What holds of a handle that is open. -/
structure Opened (table : HandleTable) (fh file : Nat) : Prop where
  bit : table.fhs fh = true
  found : table.files fh = some file
  below : fh < maxFhs

theorem Counted.opened
    (counted : Counted table)
    (bit : table.fhs fh = true) :
    ∃ file, Opened table fh file := by
  obtain ⟨below, file, found, _⟩ := counted.reserved fh bit
  exact ⟨file, bit, found, below⟩

theorem Opened.run_lookupFh
    (opened : Opened table fh file) :
    (lookupFh fh).run table = .ok (some file, table) := by
  rw [Handles.run_lookupFh opened.below, opened.found]

theorem allows_gdpfsFileClose
    (counted : Counted table)
    (opened : Opened table fh file) :
    Allows (gdpfsFileClose fh) (fun _ next => Counted next) table := by
  rw [gdpfsFileClose, allows_run_bind opened.run_lookupFh]
  change Allows (bitmapRelease fh >>= fun _ => fileUnref file >>= fun _ =>
    pure (Reply.file file)) _ _
  rw [allows_bind, bitmapRelease, allows_bind, allows_get, allows_set,
    allows_bind, fileUnref, allows_onEntry]
  intro _
  exact allows_pure.mpr (counted.detach opened.bit opened.found)

/-- A write takes a reference for the append that it leaves outstanding. -/
theorem allows_doWrite
    {outcome : AppendOutcome}
    (counted : Counted table)
    (opened : Opened table fh file)
    (accepts : outcome ≠ .refused)
    (room : (table.entries file).refCount + 1 < uint32Size) :
    Allows (doWrite fh outcome) (fun _ next => Counted next) table := by
  rw [doWrite, allows_run_bind opened.run_lookupFh]
  cases outcome with
  | noEntry => exact allows_pure.mpr counted
  | refused => exact absurd rfl accepts
  | accepted =>
      change Allows (fileRef file >>= fun _ => onEntry file _ >>= fun _ =>
        pure (Reply.file file)) _ _
      rw [allows_bind, fileRef, allows_onEntry]
      intro alive
      rw [allows_bind, allows_onEntry]
      intro _
      rw [allows_pure, entries_setFile, setFile_setFile,
        Nat.mod_eq_of_lt room]
      refine counted.setFile rfl rfl ?_ room
      dsimp only
      omega

theorem allows_gdpfsFileWrite
    {outcome : AppendOutcome}
    (size offset : Nat)
    (counted : Counted table)
    (opened : Opened table fh file)
    (accepts : outcome ≠ .refused)
    (room : (table.entries file).refCount + 1 < uint32Size) :
    Allows (gdpfsFileWrite fh size offset outcome)
      (fun _ next => Counted next) table := by
  rw [gdpfsFileWrite, allows_run_bind opened.run_lookupFh]
  change Allows (onEntry file _ >>= fun _ => doWrite fh outcome) _ _
  rw [allows_bind, allows_onEntry]
  intro _
  refine allows_doWrite ?_ ⟨opened.bit, opened.found, opened.below⟩ accepts ?_
  · exact counted.setFile rfl rfl rfl (counted.bounded file)
  · rw [entries_setFile]
    exact room

theorem allows_access
    {reply : Reply}
    (counted : Counted table) :
    Allows (onEntry file id >>= fun _ => pure reply : HandleM Reply)
      (fun _ next => Counted next) table := by
  rw [allows_bind, allows_onEntry]
  intro _
  exact allows_pure.mpr
    (counted.setFile rfl rfl rfl (counted.bounded file))

/-- An operation on an open handle. -/
theorem allows_call
    (operation : HandleCall)
    (counted : Counted table)
    (opened : Opened table fh file)
    (accepts : (HandleOp.call fh operation).accepts = true)
    (room : (table.entries file).refCount + 1 < uint32Size) :
    Allows (operation.run fh) (fun _ next => Counted next) table := by
  cases operation with
  | close => exact allows_gdpfsFileClose counted opened
  | read =>
      rw [HandleCall.run, gdpfsFileRead, allows_run_bind opened.run_lookupFh]
      exact allows_access counted
  | write size offset outcome =>
      exact allows_gdpfsFileWrite size offset counted opened
        (of_decide_eq_true accepts) room
  | getInfo =>
      rw [HandleCall.run, gdpfsFileGetInfo, allows_run_bind opened.run_lookupFh]
      exact allows_access counted

theorem allows_freeFileref
    (counted : Counted table) :
    Allows (freeFileref file) (fun _ next => Counted next) table := by
  rw [freeFileref, allows_bind, allows_get]
  split
  · exact allows_throw
  · next ready =>
      obtain ⟨due, allocated⟩ := not_or.mp ready
      rw [allows_bind, allows_onEntry]
      intro alive
      rw [fileUnref, allows_onEntry]
      intro _
      have counts := counted.counted file (Nat.lt_of_not_le allocated) alive
      have bounded := counted.bounded file
      rw [entries_setFile, setFile_setFile]
      dsimp only
      rw [pred_refCount (by omega) bounded]
      refine counted.setFile rfl rfl ?_ ?_
      · dsimp only
        omega
      · dsimp only
        omega

theorem allows_chkptFinish
    (counted : Counted table) :
    Allows (chkptFinish file) (fun _ next => Counted next) table := by
  rw [chkptFinish, allows_bind, allows_get]
  split
  · exact allows_throw
  · next ready =>
      obtain ⟨unused, allocated⟩ := not_or.mp ready
      rw [allows_bind, allows_onEntry]
      intro alive
      rw [allows_bind, allows_get, allows_set, entries_setFile]
      exact counted.free (Nat.lt_of_not_le allocated) (not_not.mp unused) alive

theorem allows_checkFile
    {check : OpenCheck}
    (counted : Counted table)
    (opened : Opened table fh file)
    (accepts : (HandleOp.opens name logOpens check).accepts = true)
    (room : (table.entries file).refCount + 1 < uint32Size) :
    Allows (checkFile fh check) (fun _ next => Counted next) table := by
  cases check with
  | passed => exact allows_pure.mpr counted
  | wrongType =>
      refine (allows_gdpfsFileClose counted opened).bind ?_
      exact fun _ _ kept => allows_pure.mpr kept
  | initialized outcome =>
      refine (allows_doWrite counted opened (of_decide_eq_true accepts)
        room).bind ?_
      exact fun _ _ kept => allows_pure.mpr kept

/-- The part of `open_file` after a file was found or made, for the handle that
was reserved. -/
theorem allows_attachFile
    {check : OpenCheck}
    (counted : Counted table)
    (below : fh < maxFhs)
    (free : table.fhs fh = false)
    (allocated : file < table.next)
    (accepts : (HandleOp.opens name logOpens check).accepts = true)
    (room : (table.entries file).refCount + 2 < uint32Size) :
    Allows (attachFile fh file >>= fun _ => checkFile fh check)
      (fun _ next => Counted next)
      { table with fhs := Function.update table.fhs fh true } := by
  rw [allows_bind, attachFile, allows_bind, fileRef, allows_onEntry]
  intro alive
  rw [allows_bind, allows_get, allows_set]
  change Allows _ _ (table.attach fh file)
  have attached := counted.attach below free allocated alive (by omega)
  have opened : Opened (table.attach fh file) fh file :=
    ⟨Function.update_self _ _ _, Function.update_self _ _ _, below⟩
  refine allows_checkFile attached opened accepts ?_
  rw [entries_attach, if_pos rfl, Nat.mod_eq_of_lt (by omega)]
  dsimp only
  omega

theorem allows_openFile
    {check : OpenCheck}
    (counted : Counted table)
    (accepts : (HandleOp.opens name logOpens check).accepts = true)
    (room : ∀ file < table.next,
      (table.entries file).refCount + 2 < uint32Size) :
    Allows (openFile name logOpens check) (fun _ next => Counted next)
      table := by
  rw [openFile, allows_bind, bitmapReserve, allows_bind, allows_get]
  split
  · rw [allows_pure]
    exact allows_pure.mpr counted
  · next fh reserved =>
      have below := List.mem_range.mp (List.mem_of_find?_eq_some reserved)
      have free : table.fhs fh = false := by
        have test := List.find?_some reserved
        rw [Bool.not_eq_true'] at test
        exact test
      rw [allows_bind, allows_set, allows_pure]
      dsimp only
      rw [allows_bind, allows_get]
      split
      · next file found =>
          have allocated := (counted.hashed name file found).1
          exact allows_attachFile counted below free allocated accepts
            (room file allocated)
      · split
        · rw [allows_bind, newFile, allows_bind, allows_get, allows_bind,
            allows_set, allows_pure]
          refine allows_attachFile counted.create below free
            (Nat.lt_succ_self _) accepts ?_
          rw [entries_create_next]
          exact show 0 + 2 < uint32Size by decide
        · rw [allows_bind, bitmapRelease, allows_bind, allows_get, allows_set,
            allows_pure]
          have restored : Function.update
              (Function.update table.fhs fh true) fh false = table.fhs := by
            rw [Function.update_idem, ← free, Function.update_eq_self]
          rw [restored]
          exact counted

/-- A proper step keeps the count. -/
theorem allows_op
    (op : HandleOp)
    (proper : Proper op table)
    (counted : Counted table) :
    Allows op.run (fun _ next => Counted next) table := by
  rw [Proper, Bool.and_eq_true, Bool.and_eq_true] at proper
  obtain ⟨⟨names, accepts⟩, room⟩ := proper
  have twoMore : ∀ file < table.next,
      (table.entries file).refCount + 2 < uint32Size := fun file below =>
    of_decide_eq_true (List.all_eq_true.mp room file (List.mem_range.mpr below))
  cases op with
  | opens name logOpens check =>
      refine (allows_openFile counted accepts twoMore).bind ?_
      exact fun _ _ kept => allows_pure.mpr kept
  | call fh operation =>
      rw [HandleOp.run]
      rcases Bool.or_eq_true_iff.mp names with bit | unused
      · obtain ⟨file, opened⟩ := counted.opened bit
        have room := twoMore file (counted.slots fh file opened.found)
        refine (allows_call operation counted opened accepts
          (by omega)).bind ?_
        exact fun _ _ kept => allows_pure.mpr kept
      · obtain ⟨reply, run, _⟩ :=
          run_call_unused operation (of_decide_eq_true unused)
        rw [allows_run_bind run]
        exact allows_pure.mpr counted
  | appended file => exact allows_freeFileref counted
  | freed file => exact allows_chkptFinish counted

end Steps

/-- Every reference of every file that is not freed is that of an open handle or
of an outstanding append. -/
def HandleTable.balanced (table : HandleTable) : Prop :=
  ∀ file < table.next, (table.entries file).freed = false →
    (table.entries file).refCount =
      table.openHandles file + (table.entries file).appending

/-- The operation is rejected and changes nothing. -/
def Rejects (operation : HandleCall) (fh : Nat) (table : HandleTable) : Prop :=
  ∃ reply, (operation.run fh).run table = .ok (reply, table) ∧
    reply.rejects = true

/-- References are accounted for as long as every step names a handle that is
open or was never in use, no append is refused and no count overflows. -/
theorem references_accounted
    (reached : Reached HandleOp.run Proper HandleTable.empty table) :
    table.balanced ∧ ∀ fh, table.fhs fh = false → table.unused fh →
      ∀ operation, Rejects operation fh table := by
  have counted := Reached.invariant Counted counted_empty
    (fun op _ proper counted => allows_op op proper counted) reached
  refine ⟨counted.counted, ?_⟩
  intro fh _ unused operation
  exact run_call_unused operation unused

/-- A file is opened, written, closed and opened again while its append is
outstanding; then the append completes. -/
def outlivedHandle : List HandleOp :=
  [.opens 7 true (.initialized .accepted), .call 0 (.write 10 0 .accepted),
    .call 0 .close, .call 2000 .close, .opens 7 true .passed, .appended 0]

theorem references_accounted_outlived :
    ∃ table, Reached HandleOp.run Proper HandleTable.empty table ∧
      (table.entries 0).refCount = 2 ∧ table.balanced ∧
      ∀ fh, table.fhs fh = false → table.unused fh →
        ∀ operation, Rejects operation fh table := by
  have replays : (replay HandleOp.run
      (fun op table => op.mayName table && op.accepts && table.room)
      outlivedHandle HandleTable.empty).any
        (fun table => (table.entries 0).refCount == 2) = true := by
    decide +kernel
  obtain ⟨table, replayed, count⟩ := (Option.any_eq_true _ _).mp replays
  have reached : Reached HandleOp.run Proper HandleTable.empty table :=
    reached_of_replay (fun _ _ checked => checked) replayed
  exact ⟨table, reached, beq_iff_eq.mp count, references_accounted reached⟩

/-- A file is opened, and its handle closed twice. -/
def closedTwice : List HandleOp :=
  [.opens 7 true .passed, .call 0 .close, .call 0 .close]

/-- The second close of a handle is carried out, and takes the count below
zero. -/
theorem second_close_is_not_rejected :
    ¬∀ table, Reached HandleOp.run (fun _ _ => True) HandleTable.empty table →
      table.balanced ∧ ∀ fh, table.fhs fh = false →
        ∀ operation, Rejects operation fh table := by
  intro accounted
  have replays : (replay HandleOp.run (fun _ _ => true) closedTwice
      HandleTable.empty).any (fun table =>
        decide (0 < table.next ∧ (table.entries 0).freed = false ∧
          (table.entries 0).refCount ≠
            table.openHandles 0 + (table.entries 0).appending)) = true := by
    decide +kernel
  obtain ⟨table, replayed, wrong⟩ := (Option.any_eq_true _ _).mp replays
  have reached : Reached HandleOp.run (fun _ _ => True) HandleTable.empty
      table := reached_of_replay (fun _ _ _ => trivial) replayed
  obtain ⟨allocated, alive, differ⟩ := of_decide_eq_true wrong
  exact differ ((accounted table reached).1 0 allocated alive)

end Handles
end Gdpfs
