import Gdpfs.Store.Progress
import Gdpfs.Table.Safety

/-!
# The files that an open finds (`gdpfs_file.c`)

What a step does to the list of recently closed files and to the hash, and from
there how long a file stays in either of them.
-/

namespace Gdpfs
namespace Table

open Effect

/-- The list after a step. -/
def listAfter : TableOp → FileTable → List Nat
  | .opens name, table =>
      match table.fileHash name with
      | none => table.recentlyClosed
      | some file => table.recentlyClosed.erase file
  | .insert file, table =>
      if table.recentlyClosed.length = rcCap then
        (file :: table.recentlyClosed).dropLast
      else file :: table.recentlyClosed
  | _, table => table.recentlyClosed

/-- The hash after a step. -/
def hashAfter : TableOp → FileTable → Nat → Option Nat
  | .opens name, table =>
      match table.fileHash name with
      | none => Function.update table.fileHash name (some table.next)
      | some _ => table.fileHash
  | .unhash file, table =>
      Function.update table.fileHash (table.files file).name none
  | _, table => table.fileHash

/-- A step that changes neither the list nor the hash. -/
def TableOp.plain : TableOp → Bool
  | .opens _ => false
  | .insert _ => false
  | .unhash _ => false
  | _ => true

/-- The file was neither taken out of the hash nor freed. -/
def FileEntry.Live (entry : FileEntry) : Prop :=
  entry.releasing = 0 ∧ entry.freed = false

/-- The files of a table are as they were, but for what goes on in them. -/
structure SameFiles (table next : FileTable) : Prop where
  allocated : next.next = table.next
  names : ∀ file, (next.files file).name = (table.files file).name
  live : ∀ file, (next.files file).Live → (table.files file).Live

theorem SameFiles.refl (table : FileTable) : SameFiles table table :=
  ⟨rfl, fun _ => rfl, fun _ live => live⟩

theorem SameFiles.trans
    {table middle next : FileTable}
    (first : SameFiles table middle)
    (second : SameFiles middle next) :
    SameFiles table next where
  allocated := second.allocated.trans first.allocated
  names := fun file => (second.names file).trans (first.names file)
  live := fun file live => first.live file (second.live file live)

/-- What a step does to the list, the hash and the files. -/
structure Summary (op : TableOp) (table next : FileTable) : Prop where
  list : next.recentlyClosed = listAfter op table
  hash : next.fileHash = hashAfter op table
  older : ∀ file < table.next,
    (next.files file).name = (table.files file).name ∧
      ((next.files file).Live → (table.files file).Live)
  opened : ∀ name, op = .opens name → table.fileHash name = none →
    next.next = table.next + 1 ∧ (next.files table.next).name = name
  others : (∀ name, op = .opens name → table.fileHash name ≠ none) →
    next.next = table.next
  unhashed : ∀ file, op = .unhash file →
    0 < (table.files file).unhashing ∧ (table.files file).freed = false ∧
      ¬(next.files file).Live

section Summaries

variable {table : FileTable} {file : Nat} {op : TableOp}

/-- A step that creates no file and takes none out of the hash. -/
theorem SameFiles.summary
    {next : FileTable}
    (same : SameFiles table next)
    (list : next.recentlyClosed = listAfter op table)
    (hash : next.fileHash = hashAfter op table)
    (found : ∀ name, op = .opens name → table.fileHash name ≠ none)
    (notUnhash : ∀ file, op ≠ .unhash file) :
    Summary op table next where
  list := list
  hash := hash
  older := fun file _ => ⟨same.names file, same.live file⟩
  opened := fun name isOpen isNew => absurd isNew (found name isOpen)
  others := fun _ => same.allocated
  unhashed := fun file isUnhash => absurd isUnhash (notUnhash file)

theorem sameFiles_setFile
    (entry : FileEntry)
    (name : entry.name = (table.files file).name)
    (live : entry.Live → (table.files file).Live) :
    SameFiles table (table.setFile file entry) := by
  refine ⟨rfl, fun other => ?_, fun other => ?_⟩
  · rw [files_setFile]
    split
    · next same => rw [same, name]
    · rfl
  · rw [files_setFile]
    split
    · next same => rw [same]; exact live
    · exact id

theorem SameFiles.relist
    {next : FileTable}
    (same : SameFiles table next)
    (list : List Nat)
    (size : Int) :
    SameFiles table { next with
      recentlyClosed := list, recentlyClosedSize := size } :=
  ⟨same.allocated, same.names, same.live⟩

theorem allows_onFile_same
    {ready : FileEntry → Bool}
    {change : FileEntry → FileEntry}
    (names : ∀ entry, (change entry).name = entry.name)
    (live : ∀ entry, ready entry = true → entry.freed = false →
      (change entry).Live → entry.Live) :
    Allows (onFile file ready change)
      (fun _ next => SameFiles table next ∧
        next.recentlyClosed = table.recentlyClosed ∧
        next.recentlyClosedSize = table.recentlyClosedSize ∧
        next.fileHash = table.fileHash) table := by
  refine (allows_onFile ready change).mono ?_
  rintro _ _ ⟨alive, isReady, rfl⟩
  exact ⟨sameFiles_setFile _ (names _) (live _ isReady alive), rfl, rfl, rfl⟩

theorem SameFiles.summary_plain
    {next : FileTable}
    (same : SameFiles table next)
    (plain : op.plain = true)
    (sameList : next.recentlyClosed = table.recentlyClosed)
    (sameHash : next.fileHash = table.fileHash) :
    Summary op table next := by
  refine same.summary ?_ ?_ ?_ ?_
  · rw [sameList]
    cases op <;> first | rfl | cases plain
  · rw [sameHash]
    cases op <;> first | rfl | cases plain
  · rintro _ rfl
    cases plain
  · rintro _ rfl
    cases plain

/-- The steps of `onFile`. -/
theorem allows_onFile_summary
    {ready : FileEntry → Bool}
    {change : FileEntry → FileEntry}
    (plain : op.plain = true)
    (names : ∀ entry, (change entry).name = entry.name)
    (live : ∀ entry, ready entry = true → entry.freed = false →
      (change entry).Live → entry.Live) :
    Allows (onFile file ready change) (fun _ next => Summary op table next)
      table := by
  refine (allows_onFile_same names live).mono ?_
  rintro _ next ⟨same, sameList, -, sameHash⟩
  exact same.summary_plain plain sameList sameHash

theorem allows_fileRefHandle_same :
    Allows (fileRefHandle file)
      (fun _ next => SameFiles table next ∧
        next.recentlyClosed = table.recentlyClosed ∧
        next.fileHash = table.fileHash) table := by
  rw [fileRefHandle, allows_bind, allows_get, allows_set]
  exact ⟨sameFiles_setFile _ rfl id, rfl, rfl⟩

theorem allows_recentlyClosedRevive_same :
    Allows (recentlyClosedRevive file)
      (fun _ next => SameFiles table next ∧
        next.recentlyClosed = table.recentlyClosed.erase file ∧
        next.fileHash = table.fileHash) table := by
  rw [recentlyClosedRevive, allows_bind, allows_get]
  dsimp only
  split
  · rw [allows_set]
    refine ⟨(sameFiles_setFile _ ?_ ?_).relist _ _, rfl, rfl⟩
    · rfl
    · exact id
  · exact allows_throw

/-- An open of a log that the hash does not have. -/
theorem allows_openFile_new
    {name : Nat}
    (isNew : table.fileHash name = none) :
    Allows (openFile name)
      (fun _ next => Summary (.opens name) table next) table := by
  rw [openFile, allows_bind, allows_get, isNew]
  dsimp only
  rw [newFile, bind_assoc, allows_bind, allows_get, allows_bind, allows_set]
  refine allows_fileRefHandle_same.mono ?_
  rintro _ next ⟨same, sameList, sameHash⟩
  have created : ∀ other, (if other = table.next then FileEntry.zero name
      else table.files other) = ({ table.setFile table.next
        (FileEntry.zero name) with
          next := table.next + 1
          fileHash := Function.update table.fileHash name
            (some table.next) } : FileTable).files other :=
    fun other => (files_setFile _ other).symm
  refine ⟨?_, ?_, fun other older => ?_, ?_, ?_, ?_⟩
  · rw [sameList, listAfter, isNew]
    rfl
  · rw [sameHash, hashAfter, isNew]
  · have name' := same.names other
    have live' := same.live other
    rw [← created, if_neg (Nat.ne_of_lt older)] at name' live'
    exact ⟨name', live'⟩
  · rintro _ ⟨⟩ -
    have name' := same.names table.next
    rw [← created, if_pos rfl] at name'
    exact ⟨same.allocated, name'⟩
  · intro found
    exact absurd isNew (found name rfl)
  · rintro _ ⟨⟩

/-- An open of a log that the hash has. -/
theorem allows_openFile_old
    {name : Nat}
    (ok : TableOk table)
    (found : table.fileHash name = some file) :
    Allows (openFile name)
      (fun _ next => Summary (.opens name) table next) table := by
  have isFound : ∀ other, TableOp.opens name = .opens other →
      table.fileHash other ≠ none := by
    rintro _ ⟨⟩ isNew
    rw [found] at isNew
    cases isNew
  have sameHash : hashAfter (.opens name) table = table.fileHash := by
    rw [hashAfter, found]
  have notUnhash : ∀ other, TableOp.opens name ≠ .unhash other := by
    rintro _ ⟨⟩
  rw [openFile, allows_bind, allows_get, found]
  dsimp only
  split
  · exact allows_throw
  · split
    · refine allows_recentlyClosedRevive_same.bind ?_
      rintro _ middle ⟨first, isErased, firstHash⟩
      refine allows_fileRefHandle_same.mono ?_
      rintro _ next ⟨second, sameList, secondHash⟩
      refine (first.trans second).summary ?_ ?_ isFound notUnhash
      · rw [sameList, isErased, listAfter, found]
      · rw [secondHash, firstHash, sameHash]
    · next notFlagged =>
        have notListed : file ∉ table.recentlyClosed :=
          fun member => notFlagged ((ok.flags file).mpr member)
        refine allows_fileRefHandle_same.mono ?_
        rintro _ next ⟨same, sameList, secondHash⟩
        refine same.summary ?_ ?_ isFound notUnhash
        · rw [sameList, listAfter, found]
          exact (List.erase_of_not_mem notListed).symm
        · rw [secondHash, sameHash]

theorem allows_recentlyClosedInsert_summary (ok : TableOk table) :
    Allows (recentlyClosedInsert file)
      (fun _ next => Summary (.insert file) table next) table := by
  have isSize := ok.size
  have notOpen : ∀ name, TableOp.insert file = .opens name →
      table.fileHash name ≠ none := by
    rintro _ ⟨⟩
  have notUnhash : ∀ other, TableOp.insert file ≠ .unhash other := by
    rintro _ ⟨⟩
  have pushes : Allows (pushFront file)
      (fun _ next => SameFiles table next ∧
        next.recentlyClosed = file :: table.recentlyClosed ∧
        next.recentlyClosedSize = table.recentlyClosedSize ∧
        next.fileHash = table.fileHash) table := by
    rw [pushFront]
    refine Allows.bind (allows_onFile_same ?_ ?_) ?_
    · exact fun _ => rfl
    · exact fun _ _ _ => id
    rintro _ next ⟨same, sameList, sameSize, sameHash⟩
    rw [allows_bind, allows_get, allows_set]
    exact ⟨same.relist _ _, by rw [sameList], sameSize, sameHash⟩
  rw [recentlyClosedInsert]
  refine pushes.bind ?_
  rintro _ next ⟨same, isList, sameSize, sameHash⟩
  rw [allows_bind, allows_get]
  split
  · split
    · next isFull =>
        have full : table.recentlyClosed.length = rcCap := by
          rw [sameSize] at isFull
          omega
        rw [popBack, allows_bind, allows_get]
        split
        · exact allows_throw
        · rw [allows_set]
          refine SameFiles.summary ((same.trans
            (sameFiles_setFile _ ?_ ?_)).relist _ _) ?_ sameHash notOpen
            notUnhash
          · rfl
          · exact id
          rw [listAfter, if_pos full, ← isList]
    · next notFull =>
        have room : table.recentlyClosed.length ≠ rcCap := by
          rw [sameSize] at notFull
          omega
        rw [allows_set]
        refine (same.relist _ _).summary ?_ sameHash notOpen notUnhash
        rw [listAfter, if_neg room]
        exact isList
  · exact allows_throw

theorem allows_assertNotClosed_summary :
    Allows (Table.assertNotClosed file)
      (fun _ next => Summary (.assertNotClosed file) table next) table := by
  rw [Table.assertNotClosed, allows_bind, allows_get]
  split
  · exact allows_throw
  · exact allows_onFile_summary rfl (fun _ => rfl) fun _ _ _ => id

theorem allows_chkptUnhash_summary :
    Allows (chkptUnhash file)
      (fun _ next => Summary (.unhash file) table next) table := by
  rw [chkptUnhash]
  refine (allows_onFile _ _).bind ?_
  rintro _ _ ⟨alive, ready, rfl⟩
  rw [allows_bind, allows_get, allows_set]
  have files : ∀ other, (if other = file then { table.files file with
        unhashing := (table.files file).unhashing - 1
        releasing := (table.files file).releasing + 1 }
      else table.files other) = (table.setFile file { table.files file with
        unhashing := (table.files file).unhashing - 1
        releasing := (table.files file).releasing + 1 }).files other :=
    fun other => (files_setFile _ other).symm
  refine ⟨rfl, ?_, fun other _ => ?_, ?_, fun _ => rfl, ?_⟩
  · rw [hashAfter, ← files, if_pos rfl]
    rfl
  · dsimp only
    rw [← files]
    split
    · next same =>
        subst same
        exact ⟨rfl, fun live => absurd live.1 (Nat.succ_ne_zero _)⟩
    · exact ⟨rfl, id⟩
  · rintro _ ⟨⟩
  · rintro _ ⟨⟩
    refine ⟨of_decide_eq_true ready, alive, fun live => ?_⟩
    have released := live.1
    dsimp only at released
    rw [← files, if_pos rfl] at released
    exact Nat.succ_ne_zero _ released

/-- What every step does to the list, the hash and the files. -/
theorem allows_summary (ok : TableOk table) (op : TableOp) :
    Allows op.run (fun _ next => Summary op table next) table := by
  cases op with
  | opens name =>
      cases found : table.fileHash name with
      | none => exact allows_openFile_new found
      | some file => exact allows_openFile_old ok found
  | insert file => exact allows_recentlyClosedInsert_summary ok
  | assertNotClosed file => exact allows_assertNotClosed_summary
  | unhash file => exact allows_chkptUnhash_summary
  | close file =>
      rw [TableOp.run, fileClose]
      exact allows_onFile_summary rfl (fun _ => rfl) fun _ _ _ => id
  | write file =>
      rw [TableOp.run, fileWrite]
      exact allows_onFile_summary rfl (fun _ => rfl) fun _ _ _ => id
  | append file =>
      rw [TableOp.run, fileAppend]
      exact allows_onFile_summary rfl (fun _ => rfl) fun _ _ _ => id
  | appended file =>
      rw [TableOp.run, freeFileref]
      exact allows_onFile_summary rfl (fun _ => rfl) fun _ _ _ => id
  | unref file =>
      rw [TableOp.run, fileUnref]
      exact allows_onFile_summary rfl (fun _ => rfl) fun _ _ _ => id
  | finish file =>
      rw [TableOp.run, chkptFinish]
      exact allows_onFile_summary rfl (fun _ => rfl) fun _ _ _ => id
  | check file =>
      rw [TableOp.run, chkptCheck]
      exact allows_onFile_summary rfl (fun _ => rfl) fun _ _ _ => id
  | dealloc file dirty =>
      rw [TableOp.run, fileDealloc]
      refine allows_onFile_summary rfl ?_ ?_
      · intro entry
        cases dirty <;> rfl
      · intro entry _ _
        cases dirty <;> exact id
  | release file =>
      rw [TableOp.run, chkptRelease]
      refine allows_onFile_summary rfl (fun _ => rfl) ?_
      intro entry _ _ live
      cases live.2

end Summaries

/-! ## Files in the hash -/

/-- The hash has every file that was not taken out of it. -/
def AllHashed (table : FileTable) : Prop :=
  ∀ file < table.next, (table.files file).Live →
    table.fileHash (table.files file).name = some file

theorem Summary.allHashed
    {op : TableOp}
    {table next : FileTable}
    (ok : TableOk table)
    (summary : Summary op table next)
    (allHashed : AllHashed table) :
    AllHashed next := by
  intro file allocated live
  by_cases older : file < table.next
  · obtain ⟨sameName, wasLive⟩ := summary.older file older
    have found := allHashed file older (wasLive live)
    rw [sameName, summary.hash]
    cases op with
    | opens name =>
        rw [hashAfter]
        cases isNew : table.fileHash name with
        | some other => exact found
        | none =>
            dsimp only
            rw [Function.update_of_ne ?_]
            · exact found
            · rintro rfl
              rw [isNew] at found
              cases found
    | unhash other =>
        rw [hashAfter, Function.update_of_ne ?_]
        · exact found
        · intro sameHash
          rw [sameHash] at found
          obtain ⟨ready, alive, notLive⟩ := summary.unhashed other rfl
          have one := (ok.each other).dying
          have otherAllocated := @Consistent.allocated _ _ _ ok
            (fun entry => 0 < entry.unhashing) rfl (decide_eq_true ready)
          have otherFound := allHashed other otherAllocated
            ⟨by omega, alive⟩
          rw [found] at otherFound
          cases otherFound
          exact notLive live
    | _ => exact found
  · by_cases opened : ∃ name, op = .opens name ∧ table.fileHash name = none
    · obtain ⟨name, rfl, isNew⟩ := opened
      obtain ⟨boundary, isName⟩ := summary.opened name rfl isNew
      obtain rfl : file = table.next := by omega
      rw [isName, summary.hash, hashAfter, isNew]
      exact Function.update_self _ _ _
    · have same := summary.others fun name isOpen isNew =>
        opened ⟨name, isOpen, isNew⟩
      omega

theorem allHashed_of_reached
    {table : FileTable}
    (reached : Reached TableOp.run
      (fun op table => avoidsWindows op table = true) FileTable.empty table) :
    AllHashed table := by
  have both : TableOk table ∧ AllHashed table := by
    refine Reached.invariant (fun table => TableOk table ∧ AllHashed table)
      ⟨tableOk_empty, fun file allocated => ?_⟩ ?_ reached
    · exact absurd allocated (Nat.not_lt_zero _)
    · intro op table avoids both
      have summarised := allows_summary both.1 op
      refine ((allows_step op both.1 avoids).and summarised).mono ?_
      rintro _ next ⟨ok, summary⟩
      exact ⟨ok, summary.allHashed both.1 both.2⟩
  exact both.2

theorem Consistent.used_live
    {table : FileTable}
    {file : Nat}
    (ok : TableOk table)
    (used : (table.files file).used = true) :
    file < table.next ∧ (table.files file).Live := by
  obtain ⟨refs, inserts, pending, listed, dying, last, unused⟩ :=
    ok.each file
  have notGone : ¬(0 < (table.files file).unhashing +
      (table.files file).releasing ∨ (table.files file).freed = true) := by
    intro gone
    obtain ⟨noRefs, isOut, -⟩ := unused gone
    simp [FileEntry.used, noRefs, isOut] at used
  refine ⟨ok.allocated rfl used, by omega, ?_⟩
  exact Bool.eq_false_iff.mpr fun freed => notGone (.inr freed)

/-- In a run that avoids the windows no log is open as two files: of the files
that were not taken out of the hash each has a log of its own, and a file that
has a reference or is in the list is the one that an open of its log finds. -/
theorem one_file_per_log
    {table : FileTable}
    (reached : Reached TableOp.run
      (fun op table => avoidsWindows op table = true) FileTable.empty table) :
    (∀ first < table.next, ∀ second < table.next,
      (table.files first).Live → (table.files second).Live →
      (table.files first).name = (table.files second).name →
      first = second) ∧
    ∀ file, (table.files file).used = true → (table.files file).Live ∧
      table.fileHash (table.files file).name = some file := by
  have ok := tableOk_of_reached reached
  have allHashed := allHashed_of_reached reached
  constructor
  · intro first firstInside second secondInside firstLive secondLive sameName
    have firstFound := allHashed first firstInside firstLive
    have secondFound := allHashed second secondInside secondLive
    rw [sameName, secondFound] at firstFound
    cases firstFound
    rfl
  · intro file used
    obtain ⟨allocated, live⟩ := ok.used_live used
    exact ⟨live, allHashed file allocated live⟩

/-- A log that is opened again after its file was evicted. -/
theorem one_file_per_log_again :
    ∃ table, Reached TableOp.run
        (fun op table => avoidsWindows op table = true) FileTable.empty
        table ∧
      table.fileHash 0 = some 257 ∧ (table.files 0).name = 0 ∧
      ¬(table.files 0).Live := by
  obtain ⟨table, replayed, ends⟩ := (Option.any_eq_true _ _).mp
    (show (replay TableOp.run avoidsWindows
      (openAndClose 257 ++ [.dealloc 0 true, .finish 0, .check 0, .unhash 0,
        .opens 0]) FileTable.empty).any
          (fun table => decide ((table.files 257).used = true ∧
            (table.files 257).name = 0 ∧ (table.files 0).name = 0 ∧
            table.next = 258)) = true by
      decide +kernel)
  obtain ⟨used, isName, oldName, boundary⟩ := of_decide_eq_true ends
  have reached := reached_of_replay (fun _ _ avoids => avoids) replayed
  have ⟨single, found⟩ := one_file_per_log reached
  obtain ⟨live, isFound⟩ := found 257 used
  refine ⟨table, reached, by rw [← isName, isFound], oldName, fun oldLive => ?_⟩
  have same := single 0 (by omega) 257 (by omega) oldLive live
    (oldName.trans isName.symm)
  cases same

/-! ## Eviction -/

/-- A step that inserts a file into the list. -/
def TableOp.inserts : TableOp → Bool
  | .insert _ => true
  | _ => false

/-- The file is in the list, and stays there while these steps are taken. -/
structure StaysListed (file name : Nat) (ops : List TableOp)
    (table : FileTable) : Prop where
  ok : TableOk table
  allHashed : AllHashed table
  isName : (table.files file).name = name
  notOpened : .opens name ∉ ops
  listed : ∃ front back, table.recentlyClosed = front ++ file :: back ∧
    front.length + ops.countP TableOp.inserts < rcCap

theorem StaysListed.list_step
    {file name : Nat}
    {op : TableOp}
    {ops : List TableOp}
    {table : FileTable}
    (stays : StaysListed file name (op :: ops) table) :
    ∃ front back, listAfter op table = front ++ file :: back ∧
      front.length + ops.countP TableOp.inserts < rcCap := by
  obtain ⟨ok, -, isName, notOpened, front, back, isList, room⟩ := stays
  rw [List.countP_cons] at room
  have fewer : front.length + ops.countP TableOp.inserts < rcCap :=
    Nat.lt_of_le_of_lt (Nat.add_le_add_left (Nat.le_add_right _ _) _) room
  cases op with
  | opens other =>
      rw [listAfter]
      cases found : table.fileHash other with
      | none => exact ⟨front, back, isList, fewer⟩
      | some revived =>
          dsimp only
          have differ : revived ≠ file := by
            rintro rfl
            have sameName := (ok.hashed other revived found).2.1
            rw [isName] at sameName
            exact notOpened (by simp [sameName])
          rw [isList]
          by_cases inFront : revived ∈ front
          · refine ⟨front.erase revived, back, ?_, ?_⟩
            · rw [List.erase_append_left _ inFront]
            · have shorter := List.length_erase_of_mem inFront
              omega
          · refine ⟨front, back.erase revived, ?_, fewer⟩
            rw [List.erase_append_right _ inFront, List.erase_cons_tail ?_]
            simpa using differ.symm
  | insert other =>
      have counted : front.length + (ops.countP TableOp.inserts + 1) < rcCap :=
        room
      rw [listAfter]
      split
      · next isFull =>
          -- The list is full, so that something comes after the file.
          rw [isList] at isFull ⊢
          cases isBack : back.reverse with
          | nil =>
              have noBack : back = [] := by simpa using isBack
              rw [noBack, List.length_append, List.length_singleton] at isFull
              omega
          | cons last rest =>
              have backShape : back = rest.reverse ++ [last] := by
                rw [← List.reverse_reverse back, isBack, List.reverse_cons]
              refine ⟨other :: front, rest.reverse, ?_, ?_⟩
              · rw [backShape]
                have shape : other :: (front ++ file :: (rest.reverse ++
                    [last])) =
                    (other :: front ++ file :: rest.reverse) ++ [last] := by
                  simp
                rw [shape, List.dropLast_concat]
              · rw [List.length_cons]
                omega
      · refine ⟨other :: front, back, by rw [isList]; rfl, ?_⟩
        rw [List.length_cons]
        omega
  | _ => exact ⟨front, back, isList, fewer⟩

theorem StaysListed.live
    {file name : Nat}
    {ops : List TableOp}
    {table : FileTable}
    (stays : StaysListed file name ops table) :
    file ∈ table.recentlyClosed ∧ file < table.next ∧
      (table.files file).Live := by
  obtain ⟨front, back, isList, -⟩ := stays.listed
  have member : file ∈ table.recentlyClosed := by simp [isList]
  have flag := (stays.ok.flags file).mpr member
  exact ⟨member, stays.ok.used_live (by simp [FileEntry.used, flag])⟩

theorem StaysListed.step
    {file name : Nat}
    {op : TableOp}
    {ops : List TableOp}
    {table : FileTable}
    (stays : StaysListed file name (op :: ops) table)
    (avoids : avoidsWindows op table = true) :
    Allows op.run (fun _ next => StaysListed file name ops next) table := by
  have summarised := allows_summary stays.ok op
  refine ((allows_step op stays.ok avoids).and summarised).mono ?_
  rintro _ next ⟨ok, summary⟩
  refine ⟨ok, summary.allHashed stays.ok stays.allHashed, ?_, ?_, ?_⟩
  · rw [(summary.older file stays.live.2.1).1, stays.isName]
  · exact fun member => stays.notOpened (List.mem_cons_of_mem _ member)
  · rw [summary.list]
    exact stays.list_step

/-- A file that was closed is kept until so many other files are closed after
it as the list has room for, or until it is opened again: in every run that
avoids the windows and inserts fewer files, it stays in the list and in the
hash and is not freed. -/
theorem closed_file_kept
    {table final : FileTable}
    {file : Nat}
    {ops : List TableOp}
    (reached : Reached TableOp.run
      (fun op table => avoidsWindows op table = true) FileTable.empty table)
    (inserted : table.recentlyClosed.head? = some file)
    (replayed : replay TableOp.run avoidsWindows ops table = some final)
    (notOpened : .opens (table.files file).name ∉ ops)
    (few : ops.countP TableOp.inserts < rcCap) :
    file ∈ final.recentlyClosed ∧
      final.fileHash (table.files file).name = some file ∧
      (final.files file).freed = false := by
  obtain ⟨back, isList⟩ := List.head?_eq_some_iff.mp inserted
  have initially : StaysListed file (table.files file).name ops table := by
    refine ⟨tableOk_of_reached reached, allHashed_of_reached reached, rfl,
      notOpened, [], back, isList, ?_⟩
    rwa [List.length_nil, Nat.zero_add]
  have ends := replay_invariant (StaysListed file (table.files file).name)
    (fun op rest before avoids stays => stays.step avoids) replayed initially
  obtain ⟨member, allocated, live⟩ := ends.live
  have found := ends.allHashed file allocated live
  rw [ends.isName] at found
  exact ⟨member, found, live.2⟩

/-- The first of 256 files that are closed. -/
theorem closed_file_kept_first :
    ∃ table final, replay TableOp.run avoidsWindows (openAndClose 1)
        FileTable.empty = some table ∧
      replay TableOp.run avoidsWindows ((openAndClose 256).drop 5) table =
        some final ∧
      0 ∈ final.recentlyClosed ∧ final.fileHash 0 = some 0 := by
  obtain ⟨table, replayed, ends⟩ := (Option.any_eq_true _ _).mp
    (show (replay TableOp.run avoidsWindows (openAndClose 1)
      FileTable.empty).any (fun table => decide ((table.files 0).name = 0 ∧
        table.recentlyClosed.head? = some 0 ∧
        (replay TableOp.run avoidsWindows ((openAndClose 256).drop 5)
          table).isSome = true)) = true by decide +kernel)
  obtain ⟨isName, inserted, more⟩ := of_decide_eq_true ends
  obtain ⟨final, goesOn⟩ := Option.isSome_iff_exists.mp more
  have reached := reached_of_replay (fun _ _ avoids => avoids) replayed
  have kept := closed_file_kept reached inserted goesOn
    (by rw [isName]; decide +kernel) (by decide +kernel)
  rw [isName] at kept
  exact ⟨table, final, replayed, goesOn, kept.1, kept.2.1⟩

end Table
end Gdpfs
