import Gdpfs.Table.Threads

/-!
# The list of recently closed files and the files that are freed

What holds in every run in which no thread opens a file that another one is
about to insert into the list or to free, and no callback of a checkpoint finds
a file unused that another thread is about to insert or to free.
-/

namespace Gdpfs
namespace Table

open Effect

/-! ## The condition -/

/-- No call is about to insert the file into the list. -/
def FileEntry.settled (entry : FileEntry) : Bool :=
  entry.asserting == 0 && entry.inserting == 0

/-- The callback of a checkpoint that checks the file is the only one, and no
other one found the file unused before. -/
def FileEntry.alone (entry : FileEntry) : Bool :=
  entry.unhashing == 0 && entry.releasing == 0

/-- The windows between two sections are not entered: an open takes a reference
to a file only if no call is about to insert it or has found it unused, and a
callback finds a file unused only if no call is about to insert or free it. -/
def avoidsWindows : TableOp → FileTable → Bool
  | .opens name, table =>
      match table.fileHash name with
      | none => true
      | some file =>
          (table.files file).settled && (table.files file).unhashing == 0
  | .check file, table =>
      (table.files file).used ||
        (table.files file).settled && (table.files file).alone
  | _, _ => true

/-! ## The invariant -/

/-- The file handles and calls that hold a reference to the file. -/
def FileEntry.holders (entry : FileEntry) : Nat :=
  entry.handles + entry.writing + entry.appending + entry.unrefs

/-- What holds of a file at every step. -/
structure FileOk (entry : FileEntry) : Prop where
  refs : entry.refCount = entry.holders
  inserts : entry.asserting + entry.inserting ≤ 1
  pending : 0 < entry.asserting + entry.inserting →
    entry.refCount = 0 ∧ entry.recentlyClosed = false
  listed : entry.recentlyClosed = true → entry.refCount = 0
  dying : entry.unhashing + entry.releasing ≤ 1
  last : entry.freed = true → entry.unhashing + entry.releasing = 0
  unused : 0 < entry.unhashing + entry.releasing ∨ entry.freed = true →
    entry.refCount = 0 ∧ entry.recentlyClosed = false ∧
      entry.asserting + entry.inserting = 0

theorem fileOk_zero (name : Nat) : FileOk (FileEntry.zero name) := by
  constructor <;> simp [FileEntry.zero, FileEntry.holders]

/-- What holds of the table at every step, and while `extra` files in the list
are not counted. -/
structure Consistent (extra : Nat) (table : FileTable) : Prop where
  each : ∀ file, FileOk (table.files file)
  nodup : table.recentlyClosed.Nodup
  size : table.recentlyClosedSize + extra = table.recentlyClosed.length
  cap : table.recentlyClosed.length ≤ rcCap + extra
  flags : ∀ file, (table.files file).recentlyClosed = true ↔
    file ∈ table.recentlyClosed
  hashed : ∀ name file, table.fileHash name = some file →
    file < table.next ∧ (table.files file).name = name ∧
      (table.files file).releasing = 0 ∧ (table.files file).freed = false
  fresh : ∀ file, table.next ≤ file → table.files file = FileEntry.zero 0

/-- What holds of the table at every step. -/
abbrev TableOk (table : FileTable) : Prop := Consistent 0 table

theorem tableOk_empty : TableOk FileTable.empty := by
  refine ⟨fun _ => fileOk_zero 0, List.nodup_nil, rfl, Nat.zero_le _,
    fun _ => by simp [FileTable.empty, FileEntry.zero], ?_, fun _ _ => rfl⟩
  intro name file found
  cases found

section Steps

variable {table : FileTable} {file extra : Nat}

theorem files_setFile (entry : FileEntry) (other : Nat) :
    (table.setFile file entry).files other =
      if other = file then entry else table.files other :=
  Function.update_apply _ _ _ _

/-- A step of a call that holds a pointer to a file. -/
theorem allows_onFile
    (ready : FileEntry → Bool)
    (change : FileEntry → FileEntry) :
    Allows (onFile file ready change)
      (fun _ next => (table.files file).freed = false ∧
        ready (table.files file) = true ∧
        next = table.setFile file (change (table.files file))) table := by
  rw [onFile, allows_bind, allows_get]
  split
  · exact allows_throw
  · next alive =>
      split
      · next isReady =>
          exact allows_set.mpr ⟨Bool.eq_false_iff.mpr alive, isReady, rfl⟩
      · exact allows_throw

/-- A file in the list or out of it. -/
theorem Consistent.relist
    (ok : Consistent extra table)
    {entry : FileEntry}
    {list : List Nat}
    {size : Int}
    {extra' : Nat}
    (allocated : file < table.next)
    (entryOk : FileOk entry)
    (nodup : list.Nodup)
    (isSize : size + extra' = list.length)
    (cap : list.length ≤ rcCap + extra')
    (flag : entry.recentlyClosed = true ↔ file ∈ list)
    (others : ∀ other, other ≠ file →
      (other ∈ list ↔ other ∈ table.recentlyClosed))
    (sameName : entry.name = (table.files file).name)
    (alive : ∀ name, table.fileHash name = some file →
      entry.releasing = 0 ∧ entry.freed = false) :
    Consistent extra' { table.setFile file entry with
      recentlyClosed := list, recentlyClosedSize := size } := by
  have files : ∀ other, ({ table.setFile file entry with
      recentlyClosed := list, recentlyClosedSize := size } : FileTable).files
      other = if other = file then entry else table.files other :=
    files_setFile entry
  refine ⟨fun other => ?_, nodup, isSize, cap, fun other => ?_,
    fun name other found => ?_, fun other beyond => ?_⟩
  · rw [files]
    split
    · exact entryOk
    · exact ok.each other
  · rw [files]
    split
    · next same => rw [same]; exact flag
    · next differ => exact (ok.flags other).trans (others other differ).symm
  · obtain ⟨inside, isName, kept⟩ := ok.hashed name other found
    refine ⟨inside, ?_⟩
    rw [files]
    split
    · next same =>
        subst same
        exact ⟨sameName.trans isName, alive name found⟩
    · exact ⟨isName, kept⟩
  · have : table.next ≤ other := beyond
    rw [files, if_neg (by omega)]
    exact ok.fresh other beyond

/-- A file that stays in or out of the list. -/
theorem Consistent.setFile
    (ok : Consistent extra table)
    {entry : FileEntry}
    (allocated : file < table.next)
    (entryOk : FileOk entry)
    (sameFlag : entry.recentlyClosed = (table.files file).recentlyClosed)
    (sameName : entry.name = (table.files file).name)
    (alive : ∀ name, table.fileHash name = some file →
      entry.releasing = 0 ∧ entry.freed = false) :
    Consistent extra (table.setFile file entry) := by
  refine ok.relist allocated entryOk ok.nodup ok.size ok.cap ?_
    (fun _ _ => Iff.rfl) sameName alive
  rw [sameFlag]
  exact ok.flags file

theorem Consistent.allocated
    (ok : Consistent extra table)
    {ready : FileEntry → Bool}
    (idle : ready (FileEntry.zero 0) = false)
    (isReady : ready (table.files file) = true) :
    file < table.next := by
  refine Nat.lt_of_not_le fun beyond => ?_
  rw [ok.fresh file beyond, idle] at isReady
  cases isReady

/-- A step that changes neither the list nor the hash. -/
theorem Consistent.onFile
    (ok : TableOk table)
    {ready : FileEntry → Bool}
    {change : FileEntry → FileEntry}
    (idle : ready (FileEntry.zero 0) = false)
    (keeps : ∀ entry, FileOk entry → entry.freed = false →
      ready entry = true → entry = table.files file →
      FileOk (change entry) ∧
        (change entry).recentlyClosed = entry.recentlyClosed ∧
        (change entry).name = entry.name ∧
        (change entry).releasing = entry.releasing ∧
        (change entry).freed = entry.freed) :
    Allows (Table.onFile file ready change) (fun _ next => TableOk next)
      table := by
  refine (allows_onFile ready change).mono ?_
  rintro _ _ ⟨alive, isReady, rfl⟩
  obtain ⟨entryOk, flag, name, releasing, freed⟩ :=
    keeps _ (ok.each file) alive isReady rfl
  refine ok.setFile (ok.allocated idle isReady) entryOk flag name
    fun other found => ?_
  rw [releasing, freed]
  exact (ok.hashed other file found).2.2

/-- A step that moves calls from point to point, with the references they
hold. -/
theorem Consistent.moves
    (ok : TableOk table)
    {ready : FileEntry → Bool}
    {change : FileEntry → FileEntry}
    (idle : ready (FileEntry.zero 0) = false)
    (holders : ∀ entry, ready entry = true →
      (change entry).holders = entry.holders)
    (same : ∀ entry,
      { change entry with
        outstandingReqs := entry.outstandingReqs
        indexFlushReqs := entry.indexFlushReqs
        handles := entry.handles
        writing := entry.writing
        appending := entry.appending
        unrefs := entry.unrefs
        evicting := entry.evicting
        flushing := entry.flushing
        checking := entry.checking } = entry) :
    Allows (Table.onFile file ready change) (fun _ next => TableOk next)
      table := by
  refine ok.onFile idle fun entry entryOk _ isReady _ => ?_
  have kept := holders entry isReady
  have same := same entry
  generalize change entry = moved at same kept
  obtain ⟨refs, inserts, pending, listed, dying, last, unused⟩ := entryOk
  rw [← kept] at refs
  rw [← same] at refs inserts pending listed dying last unused ⊢
  exact ⟨⟨refs, inserts, pending, listed, dying, last, unused⟩, rfl, rfl, rfl,
    rfl⟩

theorem allows_fileClose (ok : TableOk table) :
    Allows (fileClose file) (fun _ next => TableOk next) table := by
  refine ok.moves rfl (fun entry ready => ?_) fun _ => rfl
  simp only [decide_eq_true_eq] at ready
  simp only [FileEntry.holders]
  omega

theorem allows_fileAppend (ok : TableOk table) :
    Allows (fileAppend file) (fun _ next => TableOk next) table := by
  refine ok.moves rfl (fun entry ready => ?_) fun _ => rfl
  simp only [decide_eq_true_eq] at ready
  simp only [FileEntry.holders]
  omega

theorem allows_freeFileref (ok : TableOk table) :
    Allows (freeFileref file) (fun _ next => TableOk next) table := by
  refine ok.moves rfl (fun entry ready => ?_) fun _ => rfl
  simp only [decide_eq_true_eq] at ready
  simp only [FileEntry.holders]
  omega

theorem allows_fileDealloc (ok : TableOk table) (dirty : Bool) :
    Allows (fileDealloc file dirty) (fun _ next => TableOk next) table := by
  cases dirty with
  | true => exact ok.moves rfl (fun _ _ => rfl) fun _ => rfl
  | false => exact ok.moves rfl (fun _ _ => rfl) fun _ => rfl

theorem allows_chkptFinish (ok : TableOk table) :
    Allows (chkptFinish file) (fun _ next => TableOk next) table :=
  ok.moves rfl (fun _ _ => rfl) fun _ => rfl

theorem allows_fileWrite (ok : TableOk table) :
    Allows (fileWrite file) (fun _ next => TableOk next) table := by
  refine ok.onFile rfl fun entry entryOk alive ready _ => ⟨?_, rfl, rfl, rfl, rfl⟩
  obtain ⟨refs, inserts, pending, listed, dying, last, unused⟩ := entryOk
  simp only [decide_eq_true_eq] at ready
  unfold FileEntry.holders at refs
  refine ⟨?_, inserts, fun here => ?_, fun here => ?_, dying, last,
    fun here => ?_⟩
  · simp only [FileEntry.holders]
    omega
  · have := pending here
    omega
  · have := listed here
    omega
  · have := unused here
    omega

theorem allows_fileUnref (ok : TableOk table) :
    Allows (fileUnref file) (fun _ next => TableOk next) table := by
  refine ok.onFile rfl fun entry entryOk alive ready _ => ⟨?_, rfl, rfl, rfl, rfl⟩
  obtain ⟨refs, inserts, pending, listed, dying, last, unused⟩ := entryOk
  simp only [decide_eq_true_eq] at ready
  unfold FileEntry.holders at refs
  have positive : 0 < entry.refCount := by omega
  have noPending : entry.asserting + entry.inserting = 0 := by
    refine Nat.eq_zero_of_not_pos fun here => ?_
    have := pending here
    omega
  have notListed : entry.recentlyClosed = false := by
    refine Bool.eq_false_iff.mpr fun here => ?_
    have := listed here
    omega
  have notUnused : ¬(0 < entry.unhashing + entry.releasing ∨
      entry.freed = true) := by
    intro here
    have := unused here
    omega
  refine ⟨?_, ?_, fun here => ?_, fun here => ?_, dying, last,
    fun here => absurd here notUnused⟩
  · simp only [FileEntry.holders]
    omega
  · dsimp only
    split <;> omega
  · refine ⟨?_, notListed⟩
    dsimp only at here ⊢
    split at here
    · assumption
    · omega
  · exact absurd here (Bool.eq_false_iff.mp notListed)

theorem allows_chkptCheck
    (ok : TableOk table)
    (avoids : avoidsWindows (.check file) table = true) :
    Allows (chkptCheck file) (fun _ next => TableOk next) table := by
  refine ok.onFile rfl fun entry entryOk alive ready isEntry =>
    ⟨?_, rfl, rfl, rfl, rfl⟩
  obtain ⟨refs, inserts, pending, listed, dying, last, unused⟩ := entryOk
  cases used : entry.used with
  | true => exact ⟨refs, inserts, pending, listed, dying, last, unused⟩
  | false =>
      simp only [avoidsWindows, ← isEntry, used, Bool.false_or,
        FileEntry.settled, FileEntry.alone, Bool.and_eq_true,
        beq_iff_eq] at avoids
      obtain ⟨⟨noAssert, noInsert⟩, noUnhash, noRelease⟩ := avoids
      simp only [FileEntry.used, Bool.or_eq_false_iff, bne_eq_false_iff_eq]
        at used
      refine ⟨refs, inserts, pending, listed, ?_, fun here => ?_, fun _ => ?_⟩
      · simp only [Bool.false_eq_true, if_false]
        omega
      · rw [alive] at here
        cases here
      · exact ⟨used.1, used.2, by dsimp only; omega⟩

/-! ## Steps that change the list or the hash -/

theorem allows_assertNotClosed (ok : TableOk table) :
    Allows (Table.assertNotClosed file) (fun _ next => TableOk next)
      table := by
  rw [Table.assertNotClosed, allows_bind, allows_get]
  split
  · exact allows_throw
  · refine ok.onFile rfl fun entry entryOk alive ready _ =>
      ⟨?_, rfl, rfl, rfl, rfl⟩
    obtain ⟨refs, inserts, pending, listed, dying, last, unused⟩ := entryOk
    simp only [decide_eq_true_eq] at ready
    refine ⟨refs, ?_, fun _ => pending (by omega), listed, dying, last,
      fun here => ?_⟩
    · dsimp only
      omega
    · have := unused here
      dsimp only
      omega

/-- Under the condition, the assertion in `_recently_closed_insert` holds. -/
theorem Consistent.not_closed
    (ok : TableOk table)
    (pending : 0 < (table.files file).asserting) :
    (table.files file).recentlyClosed = false :=
  ((ok.each file).pending (by omega)).2

/-- The file at the front of the list, which is not counted yet. -/
theorem allows_pushFront (ok : TableOk table) :
    Allows (pushFront file)
      (fun _ next => Consistent 1 next ∧
        next.recentlyClosedSize = table.recentlyClosedSize) table := by
  rw [pushFront]
  refine (allows_onFile _ _).bind ?_
  rintro _ _ ⟨alive, ready, rfl⟩
  rw [allows_bind, allows_get, allows_set]
  refine ⟨?_, rfl⟩
  have allocated := @Consistent.allocated _ _ _ ok
    (fun entry => 0 < entry.inserting) rfl ready
  obtain ⟨refs, inserts, pending, listed, dying, last, unused⟩ :=
    ok.each file
  simp only [decide_eq_true_eq] at ready
  have unreferenced := pending (by omega)
  have isOut : file ∉ table.recentlyClosed := by
    rw [← ok.flags, unreferenced.2]
    exact Bool.false_ne_true
  refine @Consistent.relist table file 0 ok _ (file :: table.recentlyClosed)
    table.recentlyClosedSize 1 allocated ?_
    (List.nodup_cons.mpr ⟨isOut, ok.nodup⟩) ?_ ?_ ?_ ?_ rfl
    fun name found => (ok.hashed name file found).2.2
  · refine ⟨refs, by dsimp only; omega, fun here => ?_,
      fun _ => unreferenced.1, dying, last, fun here => ?_⟩
    · dsimp only at here
      omega
    · have := unused here
      omega
  · have := ok.size
    rw [List.length_cons]
    omega
  · have := ok.cap
    rw [List.length_cons]
    omega
  · simp
  · intro other differ
    simp [differ]

/-- The file at the back of the list leaves it. -/
theorem allows_popBack (ok : Consistent 1 table) :
    Allows popBack (fun _ next => TableOk next) table := by
  rw [popBack, allows_bind, allows_get]
  cases isLast : table.recentlyClosed.getLast? with
  | none => exact allows_throw
  | some old =>
      dsimp only
      rw [allows_set]
      obtain ⟨front, isList⟩ : ∃ front,
          table.recentlyClosed = front ++ [old] :=
        List.getLast?_eq_some_iff.mp isLast
      have isOld : old ∈ table.recentlyClosed := by simp [isList]
      have isFlag := (ok.flags old).mpr isOld
      have allocated : old < table.next := by
        refine Nat.lt_of_not_le fun beyond => ?_
        rw [ok.fresh old beyond] at isFlag
        cases isFlag
      have nodup := ok.nodup
      have size := ok.size
      have cap := ok.cap
      rw [isList] at nodup size cap
      rw [List.length_append, List.length_singleton] at size cap
      obtain ⟨frontNodup, _, apart⟩ := List.nodup_append.mp nodup
      have notFront : old ∉ front := fun member =>
        apart old member old (by simp) rfl
      rw [isList, List.dropLast_concat]
      obtain ⟨refs, inserts, pending, listed, dying, last, unused⟩ :=
        ok.each old
      refine @Consistent.relist table old 1 ok _ front
        table.recentlyClosedSize 0 allocated ?_ frontNodup (by omega)
        (by omega) ?_ ?_ rfl fun name found => (ok.hashed name old found).2.2
      · refine ⟨refs, inserts, fun here => ⟨(pending here).1, rfl⟩,
          fun here => ?_, dying, last, fun here => ?_⟩
        · cases here
        · have := unused here
          exact ⟨this.1, rfl, this.2.2⟩
      · simp [notFront]
      · intro other differ
        rw [isList]
        simp [differ]

theorem allows_recentlyClosedInsert (ok : TableOk table) :
    Allows (recentlyClosedInsert file) (fun _ next => TableOk next)
      table := by
  rw [recentlyClosedInsert]
  refine (allows_pushFront ok).bind ?_
  rintro _ next ⟨pushed, _⟩
  rw [allows_bind, allows_get]
  split
  · next bounds =>
      split
      · exact allows_popBack pushed
      · next notFull =>
          rw [allows_set]
          have size := pushed.size
          refine ⟨pushed.each, pushed.nodup, ?_, ?_, pushed.flags,
            pushed.hashed, pushed.fresh⟩
          · dsimp only
            omega
          · dsimp only
            omega
  · exact allows_throw

/-- A reference for a file handle. -/
theorem allows_fileRefHandle
    (ok : TableOk table)
    (allocated : file < table.next)
    (settled : (table.files file).settled = true)
    (isOut : (table.files file).recentlyClosed = false)
    (alone : (table.files file).alone = true)
    (alive : (table.files file).freed = false) :
    Allows (fileRefHandle file) (fun _ next => TableOk next) table := by
  rw [fileRefHandle, allows_bind, allows_get, allows_set]
  simp only [FileEntry.settled, FileEntry.alone, Bool.and_eq_true,
    beq_iff_eq] at settled alone
  obtain ⟨refs, inserts, pending, listed, dying, last, unused⟩ :=
    ok.each file
  unfold FileEntry.holders at refs
  refine ok.setFile allocated ⟨?_, inserts, fun here => ?_, fun here => ?_,
    dying, last, fun here => ?_⟩ rfl rfl
    fun name found => (ok.hashed name file found).2.2
  · simp only [FileEntry.holders]
    omega
  · dsimp only at here
    omega
  · dsimp only at here
    rw [isOut] at here
    cases here
  · dsimp only at here
    rw [alive] at here
    simp only [Bool.false_eq_true, or_false] at here
    omega

/-- A file out of the list that nothing but the hash points to. -/
theorem allows_newFile
    (ok : TableOk table)
    (name : Nat) :
    Allows (newFile name)
      (fun _ next => TableOk next ∧ table.next < next.next ∧
        next.files table.next = FileEntry.zero name) table := by
  rw [newFile, allows_bind, allows_get, allows_set]
  have files : ∀ other, ({ table.setFile table.next (FileEntry.zero name) with
      next := table.next + 1
      fileHash := Function.update table.fileHash name (some table.next) } :
        FileTable).files other =
      if other = table.next then FileEntry.zero name
      else table.files other :=
    files_setFile (FileEntry.zero name)
  refine ⟨⟨fun other => ?_, ok.nodup, ok.size, ok.cap, fun other => ?_,
    fun key other found => ?_, fun other beyond => ?_⟩, Nat.lt_succ_self _,
    by rw [files, if_pos rfl]⟩
  · rw [files]
    split
    · exact fileOk_zero name
    · exact ok.each other
  · rw [files]
    split
    · next same =>
        have isOut := ok.flags other
        rw [ok.fresh other (Nat.le_of_eq same.symm)] at isOut
        exact isOut
    · exact ok.flags other
  · dsimp only at found
    rw [Function.update_apply] at found
    rw [files]
    split at found
    · next same =>
        cases found
        rw [if_pos rfl]
        exact ⟨Nat.lt_succ_self _, same.symm, rfl, rfl⟩
    · obtain ⟨inside, kept⟩ := ok.hashed key other found
      rw [if_neg (by omega)]
      exact ⟨Nat.lt_succ_of_lt inside, kept⟩
  · have : table.next + 1 ≤ other := beyond
    rw [files, if_neg (by omega)]
    exact ok.fresh other (by omega)

/-- A file leaves the list. -/
theorem allows_recentlyClosedRevive
    (ok : TableOk table) :
    Allows (recentlyClosedRevive file)
      (fun _ next => TableOk next ∧ next.next = table.next ∧
        next.files file =
          { table.files file with recentlyClosed := false }) table := by
  rw [recentlyClosedRevive, allows_bind, allows_get]
  dsimp only
  split
  · next isFlag =>
      rw [allows_set]
      have member := (ok.flags file).mp isFlag
      have allocated : file < table.next := by
        refine Nat.lt_of_not_le fun beyond => ?_
        rw [ok.fresh file beyond] at isFlag
        cases isFlag
      have length := List.length_erase_of_mem member
      have positive := List.length_pos_of_mem member
      have size := ok.size
      have cap := ok.cap
      obtain ⟨refs, inserts, pending, listed, dying, last, unused⟩ :=
        ok.each file
      refine ⟨?_, rfl, ?_⟩
      · refine @Consistent.relist table file 0 ok _
          (table.recentlyClosed.erase file) (table.recentlyClosedSize - 1) 0
          allocated ⟨refs, inserts, fun here => ⟨(pending here).1, rfl⟩,
            fun here => ?_, dying, last, fun here => ?_⟩ (ok.nodup.erase file)
          (by omega) (by omega) ?_ (fun other differ =>
            List.mem_erase_of_ne differ) rfl
          fun name found => (ok.hashed name file found).2.2
        · cases here
        · have := unused here
          exact ⟨this.1, rfl, this.2.2⟩
        · constructor
          · intro here
            cases here
          · intro here
            exact absurd here ok.nodup.not_mem_erase
      · refine (files_setFile _ _).trans ?_
        rw [if_pos rfl]
  · exact allows_throw

theorem allows_openFile
    (ok : TableOk table)
    (name : Nat)
    (avoids : avoidsWindows (.opens name) table = true) :
    Allows (openFile name) (fun _ next => TableOk next) table := by
  rw [openFile, allows_bind, allows_get]
  simp only [avoidsWindows] at avoids
  cases found : table.fileHash name with
  | none =>
      dsimp only
      refine (allows_newFile ok name).bind ?_
      rintro _ next ⟨ok', inside, isNew⟩
      refine allows_fileRefHandle ok' inside ?_ ?_ ?_ ?_ <;> rw [isNew] <;> rfl
  | some file =>
      rw [found] at avoids
      dsimp only at avoids ⊢
      rw [Bool.and_eq_true, beq_iff_eq] at avoids
      obtain ⟨allocated, _, noRelease, alive⟩ := ok.hashed name file found
      have alone : (table.files file).alone = true := by
        simp only [FileEntry.alone, avoids.2, noRelease]
        rfl
      rw [if_neg (by rw [alive]; exact Bool.false_ne_true)]
      cases isFlag : (table.files file).recentlyClosed with
      | true =>
          rw [if_pos rfl]
          refine (allows_recentlyClosedRevive ok).bind ?_
          rintro _ next ⟨ok', sameNext, isEntry⟩
          refine allows_fileRefHandle ok' (sameNext ▸ allocated) ?_ ?_ ?_ ?_
          · rw [isEntry]
            exact avoids.1
          · rw [isEntry]
          · rw [isEntry]
            exact alone
          · rw [isEntry]
            exact alive
      | false =>
          rw [if_neg Bool.false_ne_true]
          exact allows_fileRefHandle ok allocated avoids.1 isFlag alone alive

/-- The file leaves the hash for good. -/
theorem allows_chkptUnhash (ok : TableOk table) :
    Allows (chkptUnhash file) (fun _ next => TableOk next) table := by
  rw [chkptUnhash]
  refine (allows_onFile _ _).bind ?_
  rintro _ _ ⟨alive, ready, rfl⟩
  rw [allows_bind, allows_get, allows_set]
  have allocated := @Consistent.allocated _ _ _ ok
    (fun entry => 0 < entry.unhashing) rfl ready
  obtain ⟨refs, inserts, pending, listed, dying, last, unused⟩ :=
    ok.each file
  simp only [decide_eq_true_eq] at ready
  have here := unused (Or.inl (by omega))
  have moved : FileOk { table.files file with
      unhashing := (table.files file).unhashing - 1
      releasing := (table.files file).releasing + 1 } := by
    refine ⟨refs, inserts, pending, listed, ?_, fun gone => ?_,
      fun _ => here⟩
    · dsimp only
      omega
    · rw [alive] at gone
      cases gone
  have files : ∀ other, ({ table.setFile file { table.files file with
      unhashing := (table.files file).unhashing - 1
      releasing := (table.files file).releasing + 1 } with
        fileHash := Function.update table.fileHash
          (table.files file).name none } : FileTable).files other =
      if other = file then { table.files file with
        unhashing := (table.files file).unhashing - 1
        releasing := (table.files file).releasing + 1 }
      else table.files other :=
    files_setFile _
  have isName : ((table.setFile file { table.files file with
      unhashing := (table.files file).unhashing - 1
      releasing := (table.files file).releasing + 1 }).files file).name =
      (table.files file).name := by
    rw [files_setFile, if_pos rfl]
  rw [isName]
  refine ⟨fun other => ?_, ok.nodup, ok.size, ok.cap, fun other => ?_,
    fun key other found => ?_, fun other beyond => ?_⟩
  · rw [files]
    split
    · exact moved
    · exact ok.each other
  · rw [files]
    split
    · next same => rw [same]; exact ok.flags file
    · exact ok.flags other
  · dsimp only at found
    rw [Function.update_apply] at found
    split at found
    · cases found
    · next differ =>
        obtain ⟨inside, isKey, kept⟩ := ok.hashed key other found
        rw [files, if_neg fun same => differ (by rw [← isKey, same])]
        exact ⟨inside, isKey, kept⟩
  · have : table.next ≤ other := beyond
    rw [files, if_neg (by omega)]
    exact ok.fresh other beyond

theorem allows_chkptRelease (ok : TableOk table) :
    Allows (chkptRelease file) (fun _ next => TableOk next) table := by
  rw [chkptRelease]
  refine (allows_onFile _ _).mono ?_
  rintro _ _ ⟨alive, ready, rfl⟩
  have allocated := @Consistent.allocated _ _ _ ok
    (fun entry => 0 < entry.releasing) rfl ready
  obtain ⟨refs, inserts, pending, listed, dying, last, unused⟩ :=
    ok.each file
  simp only [decide_eq_true_eq] at ready
  have here := unused (Or.inl (by omega))
  refine ok.setFile allocated ⟨refs, inserts, pending, listed, ?_,
    fun _ => ?_, fun _ => here⟩ rfl rfl fun name found => ?_
  · dsimp only
    omega
  · dsimp only
    omega
  · have := (ok.hashed name file found).2.2.1
    omega

/-- Every step that avoids the windows keeps the table consistent. -/
theorem allows_step
    (op : TableOp)
    (ok : TableOk table)
    (avoids : avoidsWindows op table = true) :
    Allows op.run (fun _ next => TableOk next) table := by
  cases op with
  | opens name => exact allows_openFile ok name avoids
  | close file => exact allows_fileClose ok
  | write file => exact allows_fileWrite ok
  | append file => exact allows_fileAppend ok
  | appended file => exact allows_freeFileref ok
  | unref file => exact allows_fileUnref ok
  | assertNotClosed file => exact allows_assertNotClosed ok
  | insert file => exact allows_recentlyClosedInsert ok
  | dealloc file dirty => exact allows_fileDealloc ok dirty
  | finish file => exact allows_chkptFinish ok
  | check file => exact allows_chkptCheck ok avoids
  | unhash file => exact allows_chkptUnhash ok
  | release file => exact allows_chkptRelease ok

/-! ## Assertions -/

theorem avoids_onFile
    (ready : FileEntry → Bool)
    (change : FileEntry → FileEntry) :
    Avoids (onFile file ready change) .assertion table := by
  rw [onFile]
  refine avoids_get_bind ?_
  split
  · exact avoids_throw (by decide)
  · split
    · exact avoids_set
    · exact avoids_throw (by decide)

/-- The assertions in `_recently_closed_insert` hold. -/
theorem Consistent.avoids_insert (ok : TableOk table) :
    Avoids (recentlyClosedInsert file) .assertion table := by
  rw [recentlyClosedInsert]
  refine Avoids.bind ?_ (allows_pushFront ok) ?_
  · rw [pushFront]
    refine Avoids.bind (avoids_onFile _ _) (allows_onFile _ _) ?_
    intro _ next _
    exact avoids_get_bind avoids_set
  · rintro _ next ⟨pushed, sameSize⟩
    refine avoids_get_bind ?_
    have size := ok.size
    have cap := ok.cap
    rw [if_pos (by omega)]
    split
    · rw [popBack]
      refine avoids_get_bind ?_
      have size' := pushed.size
      cases isLast : next.recentlyClosed.getLast? with
      | none =>
          rw [List.getLast?_eq_none_iff] at isLast
          rw [isLast, List.length_nil] at size'
          omega
      | some old => exact avoids_set
    · exact avoids_set

/-- No assertion fails in a consistent table. -/
theorem Consistent.avoids_step (ok : TableOk table) (op : TableOp) :
    Avoids op.run .assertion table := by
  cases op with
  | opens name =>
      refine avoids_get_bind ?_
      split
      · exact Avoids.bind (avoids_get_bind avoids_set) (allows_newFile ok name)
          fun _ _ _ => avoids_get_bind avoids_set
      · split
        · exact avoids_throw (by decide)
        · next file _ _ =>
            cases isFlag : (table.files file).recentlyClosed with
            | true =>
                refine Avoids.bind ?_ (allows_recentlyClosedRevive ok)
                  fun _ _ _ => avoids_get_bind avoids_set
                rw [recentlyClosedRevive]
                refine avoids_get_bind ?_
                dsimp only
                rw [if_pos isFlag]
                exact avoids_set
            | false =>
                rw [if_neg Bool.false_ne_true]
                exact avoids_get_bind avoids_set
  | assertNotClosed file =>
      rw [TableOp.run, Table.assertNotClosed]
      refine avoids_get_bind ?_
      rw [if_neg fun both => by
        rw [ok.not_closed both.1] at both
        exact Bool.false_ne_true both.2]
      exact avoids_onFile _ _
  | insert file => exact ok.avoids_insert
  | unhash file =>
      exact Avoids.bind (avoids_onFile _ _) (allows_onFile _ _)
        fun _ _ _ => avoids_get_bind avoids_set
  | close file =>
      rw [TableOp.run, fileClose]
      exact avoids_onFile _ _
  | write file =>
      rw [TableOp.run, fileWrite]
      exact avoids_onFile _ _
  | append file =>
      rw [TableOp.run, fileAppend]
      exact avoids_onFile _ _
  | appended file =>
      rw [TableOp.run, freeFileref]
      exact avoids_onFile _ _
  | unref file =>
      rw [TableOp.run, fileUnref]
      exact avoids_onFile _ _
  | dealloc file dirty =>
      rw [TableOp.run, fileDealloc]
      exact avoids_onFile _ _
  | finish file =>
      rw [TableOp.run, chkptFinish]
      exact avoids_onFile _ _
  | check file =>
      rw [TableOp.run, chkptCheck]
      exact avoids_onFile _ _
  | release file =>
      rw [TableOp.run, chkptRelease]
      exact avoids_onFile _ _

end Steps

/-! ## Runs -/

/-- The list of recently closed files is as its code expects it. -/
structure ListInvariant (table : FileTable) : Prop where
  size : table.recentlyClosedSize = table.recentlyClosed.length
  bounds : 0 ≤ table.recentlyClosedSize ∧ table.recentlyClosedSize ≤ rcCap
  nodup : table.recentlyClosed.Nodup
  flags : ∀ file, (table.files file).recentlyClosed = true ↔
    file ∈ table.recentlyClosed
  unreferenced : ∀ file ∈ table.recentlyClosed,
    (table.files file).refCount = 0

/-- No thread is in the middle of an operation. -/
def Quiescent (table : FileTable) : Prop :=
  ∀ file < table.next, (table.files file).writing = 0 ∧
    (table.files file).unrefs = 0 ∧ (table.files file).asserting = 0 ∧
    (table.files file).inserting = 0 ∧ (table.files file).evicting = 0 ∧
    (table.files file).checking = 0 ∧ (table.files file).unhashing = 0 ∧
    (table.files file).releasing = 0

instance (table : FileTable) : Decidable (Quiescent table) :=
  inferInstanceAs (Decidable (∀ file < table.next, _))

theorem tableOk_of_reached
    (reached : Reached TableOp.run
      (fun op table => avoidsWindows op table = true) FileTable.empty table) :
    TableOk table :=
  Reached.invariant TableOk tableOk_empty
    (fun op _ avoids ok => allows_step op ok avoids) reached

/-- In a run that avoids the windows no assertion fails, and the list of
recently closed files is as its code expects it, also while threads are in the
middle of operations. -/
theorem recentlyClosed_consistent
    (reached : Reached TableOp.run
      (fun op table => avoidsWindows op table = true) FileTable.empty table) :
    (∀ op : TableOp, Avoids op.run .assertion table) ∧
      ListInvariant table := by
  have ok := tableOk_of_reached reached
  have size := ok.size
  have cap := ok.cap
  refine ⟨ok.avoids_step, by omega, ⟨by omega, by omega⟩, ok.nodup,
    ok.flags, fun file member => ?_⟩
  exact (ok.each file).listed ((ok.flags file).mpr member)

/-- A file that is opened, closed and opened again. -/
theorem recentlyClosed_consistent_reopened :
    ∃ table, Reached TableOp.run
        (fun op table => avoidsWindows op table = true) FileTable.empty
        table ∧
      (∀ op : TableOp, Avoids op.run .assertion table) ∧
      ListInvariant table := by
  obtain ⟨table, replayed⟩ := Option.isSome_iff_exists.mp
    (show (replay TableOp.run avoidsWindows
      [.opens 7, .close 0, .unref 0, .assertNotClosed 0, .insert 0, .opens 7]
      FileTable.empty).isSome = true by decide +kernel)
  have reached := reached_of_replay (fun _ _ avoids => avoids) replayed
  exact ⟨table, reached, recentlyClosed_consistent reached⟩

/-- A file is opened between the last unreference and the insertion: it is
listed with a reference, and the assertion fails when it is closed again. -/
theorem open_before_insert :
    (¬∀ table, Reached TableOp.run (fun _ _ => True) FileTable.empty table →
      Quiescent table → ListInvariant table) ∧
    ¬∀ table, Reached TableOp.run (fun _ _ => True) FileTable.empty table →
      ∀ op : TableOp, Avoids op.run .assertion table := by
  constructor
  · intro holds
    obtain ⟨table, replayed, bad⟩ := (Option.any_eq_true _ _).mp
      (show (replay TableOp.run (fun _ _ => true)
        [.opens 7, .close 0, .unref 0, .opens 7, .assertNotClosed 0,
          .insert 0] FileTable.empty).any (fun table =>
            decide (Quiescent table ∧ 0 ∈ table.recentlyClosed ∧
              (table.files 0).refCount = 1)) = true by decide +kernel)
    obtain ⟨quiescent, member, isOne⟩ := of_decide_eq_true bad
    have reached := reached_of_replay (fun _ _ _ => trivial) replayed
    have isZero := (holds table reached quiescent).unreferenced 0 member
    rw [isOne] at isZero
    cases isZero
  · intro holds
    obtain ⟨table, replayed, bad⟩ := (Option.any_eq_true _ _).mp
      (show (replay TableOp.run (fun _ _ => true)
        [.opens 7, .close 0, .unref 0, .opens 7, .assertNotClosed 0,
          .insert 0, .close 0, .unref 0] FileTable.empty).any (fun table =>
            decide (0 < (table.files 0).asserting ∧
              (table.files 0).recentlyClosed = true)) = true by
        decide +kernel)
    have fails := of_decide_eq_true bad
    have reached := reached_of_replay (fun _ _ _ => trivial) replayed
    refine holds table reached (.assertNotClosed 0) ?_
    simp only [TableOp.run, Table.assertNotClosed, StateT.run_bind,
      StateT.run_get, pure_bind, if_pos fails]
    rfl

/-- In a run that avoids the windows a file that is freed has no reference, is
not in the list and has no file handle, and no file that was freed is in the
hash. -/
theorem freed_unreachable
    (reached : Reached TableOp.run
      (fun op table => avoidsWindows op table = true) FileTable.empty table) :
    (∀ file next, (TableOp.release file).run.run table = .ok ((), next) →
      (table.files file).refCount = 0 ∧ file ∉ table.recentlyClosed ∧
        (table.files file).handles = 0) ∧
    ∀ file, (table.files file).freed = true →
      ∀ name, table.fileHash name ≠ some file := by
  have ok := tableOk_of_reached reached
  constructor
  · intro file next run
    rw [TableOp.run, chkptRelease] at run
    have ready := (allows_onFile _ _ _ _ run).2.1
    simp only [decide_eq_true_eq] at ready
    have entryOk := ok.each file
    obtain ⟨noRefs, isOut, _⟩ := entryOk.unused (Or.inl (by omega))
    have refs := entryOk.refs
    unfold FileEntry.holders at refs
    refine ⟨noRefs, fun member => ?_, by omega⟩
    rw [(ok.flags file).mpr member] at isOut
    cases isOut
  · intro file freed name found
    rw [(ok.hashed name file found).2.2.2] at freed
    cases freed

/-- Open and close files, one after the other. -/
def openAndClose (count : Nat) : List TableOp :=
  (List.range count).flatMap fun file =>
    [.opens file, .close file, .unref file, .assertNotClosed file,
      .insert file]

/-- The list overflows, and the file that leaves it is freed. -/
theorem freed_unreachable_evicted :
    ∃ table, Reached TableOp.run
        (fun op table => avoidsWindows op table = true) FileTable.empty
        table ∧
      (table.files 0).freed = true ∧
      ∀ name, table.fileHash name ≠ some 0 := by
  obtain ⟨table, replayed, freed⟩ := (Option.any_eq_true _ _).mp
    (show (replay TableOp.run avoidsWindows
      (openAndClose 257 ++ [.dealloc 0 true, .finish 0, .check 0, .unhash 0,
        .release 0]) FileTable.empty).any
          (fun table => (table.files 0).freed) = true by decide +kernel)
  have reached := reached_of_replay (fun _ _ avoids => avoids) replayed
  exact ⟨table, reached, freed, (freed_unreachable reached).2 0 freed⟩

/-- A file is opened between the check of the callback and its removal from the
hash: it is freed while a file handle refers to it. -/
theorem open_before_release :
    ¬∀ table, Reached TableOp.run (fun _ _ => True) FileTable.empty table →
      ∀ file next, (TableOp.release file).run.run table = .ok ((), next) →
        (table.files file).refCount = 0 ∧ file ∉ table.recentlyClosed ∧
          (table.files file).handles = 0 := by
  intro holds
  obtain ⟨table, replayed, bad⟩ := (Option.any_eq_true _ _).mp
    (show (replay TableOp.run (fun _ _ => true)
      (openAndClose 257 ++ [.dealloc 0 true, .finish 0, .check 0, .opens 0,
        .unhash 0]) FileTable.empty).any (fun table =>
          decide ((table.files 0).freed = false ∧
            0 < (table.files 0).releasing ∧
            (table.files 0).handles = 1)) = true by decide +kernel)
  obtain ⟨alive, ready, isOne⟩ := of_decide_eq_true bad
  have reached := reached_of_replay (fun _ _ _ => trivial) replayed
  have run : (TableOp.release 0).run.run table = .ok ((),
      table.setFile 0 { table.files 0 with
        releasing := (table.files 0).releasing - 1, freed := true }) := by
    simp only [TableOp.run, chkptRelease, onFile, StateT.run_bind,
      StateT.run_get, pure_bind, alive, Bool.false_eq_true, if_false,
      decide_eq_true ready, if_true]
    rfl
  have isZero := (holds table reached 0 _ run).2.2
  rw [isOne] at isZero
  cases isZero

end Table
end Gdpfs
