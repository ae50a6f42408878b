import Gdpfs.File.Ledger
import Mathlib.Data.List.Infix

/-!
# Accounting over whole runs of one file

A run opens a file, works on it, checkpoints it and closes it, in any order;
the object of a closed file may be released and the file opened again from its
log.  This module says when the record counter agrees with the log, when the
cached information does, and what a failed append leaves behind.
-/

namespace Gdpfs
namespace File

open Log FigTree Effect

/-- The calls that open a file. -/
inductive OpenCall
  | any
  | typed (type : FileType)
  | init (type : FileType) (perm : Nat) (strictInit : Bool)
  deriving DecidableEq, Repr

/-- Open a file. -/
def OpenCall.run (env : Env) (appends : Bool) : OpenCall → FileM Bool
  | .any => gdpfsFileOpen env appends
  | .typed type => gdpfsFileOpenType env appends type
  | .init type perm strictInit =>
      gdpfsFileOpenInit env appends type perm strictInit

/-- A step of a run.  `appended` is the callback of an append of `do_write`;
`release` is what is left of a file object when it was freed and the next
`open_file` allocates another one. -/
inductive FileOp
  | opens (call : OpenCall)
  | update (change : Update)
  | setInfo (info : FileInfo)
  | read (size offset : Nat)
  | chkpt
  | close
  | appended
  | release
  deriving DecidableEq, Repr

/-- Take a step. -/
def FileOp.run (env : Env) (appends : Bool) : FileOp → FileM Unit
  | .opens call => do
      let _ ← call.run env appends
  | .update change => change.run env appends
  | .setInfo info => gdpfsFileSetInfo env appends info
  | .read size offset => do
      let _ ← doRead env size offset
  | .chkpt => do
      let _ ← fileChkpt env appends
  | .close => modifyFile fileUnref
  | .appended => modifyFile freeFileref
  | .release => modifyFile fun _ => GdpfsFile.zero

section Failure

variable {env : Env} {world next : World} {appends : Bool}

/-! ## Failed appends -/

/-- The value, if any, that `ft_lookup` finds for a byte; nothing, if it fails
an assertion. -/
def lookupOf
    (log : List LogRecord)
    (this : Figtree)
    (x : Nat)
    (heap : Heap) : Option (Option Int) :=
  match (ftLookup log this x).run heap with
  | .ok (value, _) => some value
  | .error _ => none

/-- What `ft_lookup` finds in the index of a file; a null root has nothing. -/
def World.lookup (env : Env) (world : World) (x : Nat) :
    Option (Option Int) :=
  match world.file.figtree with
  | none => some none
  | some this => lookupOf (env.fetchable world.log) this x world.heap

/-- What is observed of a file is the same. -/
structure Unchanged (env : Env) (world next : World) : Prop where
  info : next.info = world.info
  lookup : ∀ x, next.lookup env x = world.lookup env x
  lastRecno : next.file.lastRecno = world.file.lastRecno
  outstandingReqs : next.file.outstandingReqs = world.file.outstandingReqs
  refCount : next.file.refCount = world.file.refCount

/-- An update whose append fails leaves the log alone, and yet changes what is
observed of the file: the record counter, the outstanding requests and the
references have gone up. -/
theorem failed_append_changes
    (update : Update)
    (fails : env.takes appends = false)
    (run : (update.run env appends).run world = .ok ((), next)) :
    next.log = world.log ∧ ¬Unchanged env world next := by
  obtain ⟨figtree, heap, _, rfl⟩ := allows_update update () next run
  constructor
  · simp only [World.updated, World.written, World.withIndex, World.withInfo,
      World.append, fails, Bool.false_eq_true, if_false]
  · intro unchanged
    have counted := unchanged.lastRecno
    dsimp only [World.updated, World.written, World.withIndex,
      World.withInfo] at counted
    omega

/-- A file system that is mounted read only, without a cache. -/
def readOnlyMount : Env := ⟨false, 4096, true, false⟩

/-- A regular file that was opened and never written. -/
def emptyFile : World where
  file := { GdpfsFile.zero with
    refCount := 1, lastRecno := 1, figtree := some ⟨0⟩
    figtreeInitialized := true }
  heap := ⟨[some ⟨[], [⟨0, 0, none, true⟩], 0, true⟩]⟩
  log := [dataRecord ⟨0, .regular, 420⟩ [] 0]
  cache := .empty

/-- The state that a failed write of a byte leaves. -/
def afterFailedWrite : World where
  file :=
    { refCount := 2
      newFile := false
      infoCacheValid := true
      infoCache := ⟨1, .regular, 420⟩
      lastRecno := 2
      outstandingReqs := 1
      indexFlushReqs := 0
      figtree := some ⟨0⟩
      figtreeInitialized := true }
  heap := ⟨[some ⟨[⟨iInit 0 0, 2⟩],
    [⟨0, 0, none, true⟩, ⟨0, 0, none, true⟩], 0, true⟩]⟩
  log := [dataRecord ⟨0, .regular, 420⟩ [] 0]
  cache := .empty

theorem failed_append_changes_write :
    (Update.run readOnlyMount true (.write [7] 0)).run emptyFile =
        .ok ((), afterFailedWrite) ∧
      afterFailedWrite.log = emptyFile.log ∧
      ¬Unchanged readOnlyMount emptyFile afterFailedWrite := by
  have run : (Update.run readOnlyMount true (.write [7] 0)).run emptyFile =
      .ok ((), afterFailedWrite) := by
    decide +kernel
  exact ⟨run, failed_append_changes (.write [7] 0) rfl run⟩

/-- On a read-only mount a write of one byte fails, and the file says that it
has one byte and two records. -/
theorem failed_write_unchanged_false :
    ¬∀ update next, (Update.run readOnlyMount true update).run emptyFile =
      .ok ((), next) → Unchanged readOnlyMount emptyFile next := by
  intro claimed
  have run : (Update.run readOnlyMount true (.write [7] 0)).run emptyFile =
      .ok ((), afterFailedWrite) := by
    decide +kernel
  have unchanged := claimed (.write [7] 0) afterFailedWrite run
  cases unchanged.lastRecno

end Failure

/-! ## Cached information -/

section Info

variable {env : Env} {world : World}

theorem loadInfo_append (log : List LogRecord) (datum : LogRecord) :
    loadInfo (log ++ [datum]) = infoOf datum.header := by
  rw [loadInfo, List.getLast?_concat]

/-- The information of the file is what the last record of the log says. -/
def InfoMatches (world : World) : Prop :=
  world.info = loadInfo world.log

/-- A file whose information was never loaded. -/
theorem infoMatches_of_invalid
    (invalid : world.file.infoCacheValid = false) :
    InfoMatches world := by
  rw [InfoMatches, World.info, invalid]
  rfl

/-- `do_write` of the cached information. -/
theorem infoMatches_written
    {next : World}
    (buf : List UInt8)
    (offset : Nat)
    (info : FileInfo)
    (takes : env.takes true = true)
    (cached : next.file.infoCacheValid = true → next.file.infoCache = info)
    (logged : next.log = (world.append (env.takes true)
      (dataRecord info buf offset)).log) :
    InfoMatches next := by
  have loaded : loadInfo next.log = info := by
    rw [logged, World.append, takes, if_pos rfl, loadInfo_append]
    rfl
  rw [InfoMatches, World.info, loaded]
  split
  · next valid => exact cached valid
  · rfl

theorem infoMatches_congr
    {next : World}
    (isMatch : InfoMatches world)
    (sameInfo : next.info = world.info)
    (sameLog : next.log = world.log) :
    InfoMatches next := by
  rw [InfoMatches, sameInfo, sameLog]
  exact isMatch

theorem Quiet.info_eq
    {next : World}
    (quiet : Quiet world next) :
    next.info = world.info := by
  rw [World.info, quiet.1, quiet.2]
  rfl

theorem infoMatches_openFile
    (takes : env.takes true = true)
    (isMatch : InfoMatches world)
    (type : FileType)
    (perm : Nat)
    (init strictInit : Bool) :
    Allows (openFile env true type perm init strictInit)
      (fun _ next => InfoMatches next) world := by
  rw [openFile, allows_run_bind (run_modifyFile _ _),
    allows_run_bind (run_modifyFile _ _)]
  refine (allows_openType _ _ _ _).bind ?_
  intro ok next outcome
  have nextMatch : InfoMatches next := by
    rcases outcome with ⟨_, rfl⟩ | ⟨rfl, _⟩ | rfl
    · exact isMatch
    · exact isMatch
    · exact infoMatches_written [] 0 ⟨0, type, perm⟩ takes (fun _ => rfl) rfl
  cases ok with
  | true =>
      rw [if_pos rfl]
      refine (allows_openIndex env strictInit next).bind ?_
      rintro _ after ⟨sameFile, sameLog⟩
      rw [allows_pure]
      refine infoMatches_congr nextMatch ?_ sameLog
      rw [World.info, sameFile, sameLog]
      rfl
  | false =>
      simp only [Bool.false_eq_true, if_false]
      rw [allows_run_bind (run_modifyFile _ _), allows_pure]
      exact nextMatch

/-- Every call of `gdpfs_file_set_info` repeats the information that is
cached, if any is. -/
def RepeatsInfo : FileOp → World → Prop
  | .setInfo info, world =>
      world.file.infoCacheValid = true → info = world.file.infoCache
  | _, _ => True

instance : ∀ op world, Decidable (RepeatsInfo op world)
  | .setInfo info, world =>
      inferInstanceAs (Decidable (world.file.infoCacheValid = true →
        info = world.file.infoCache))
  | .opens _, _ => .isTrue trivial
  | .update _, _ => .isTrue trivial
  | .read _ _, _ => .isTrue trivial
  | .chkpt, _ => .isTrue trivial
  | .close, _ => .isTrue trivial
  | .appended, _ => .isTrue trivial
  | .release, _ => .isTrue trivial

theorem infoMatches_step
    (takes : env.takes true = true)
    (op : FileOp)
    (repeats : RepeatsInfo op world)
    (isMatch : InfoMatches world) :
    Allows (op.run env true) (fun _ next => InfoMatches next) world := by
  cases op with
  | opens call =>
      refine Allows.bind ?_ fun _ _ => allows_pure.mpr
      cases call with
      | any => exact infoMatches_openFile takes isMatch _ _ _ _
      | typed type => exact infoMatches_openFile takes isMatch _ _ _ _
      | init type perm strictInit =>
          exact infoMatches_openFile takes isMatch _ _ _ _
  | update change =>
      refine (allows_update change).mono ?_
      rintro _ _ ⟨figtree, heap, _, rfl⟩
      exact infoMatches_written change.buf change.offset _ takes
        (fun _ => rfl) rfl
  | setInfo info =>
      rw [FileOp.run, gdpfsFileSetInfo]
      refine (allows_doWrite_empty _).bind ?_
      rintro _ _ rfl
      rw [allows_pure]
      exact infoMatches_written [] 0 info takes
        (fun valid => (repeats valid).symm) rfl
  | read size offset =>
      refine (allows_doRead env size offset world).bind ?_
      intro _ next quiet
      rw [allows_pure]
      exact infoMatches_congr isMatch quiet.info_eq quiet.2
  | chkpt =>
      refine (allows_fileChkpt world).bind ?_
      rintro chkpt _ ⟨heap, _, _, rfl⟩
      rw [allows_pure, InfoMatches]
      dsimp only [World.checkpointed]
      split
      · rw [loadInfo_append]
        rfl
      · exact isMatch
  | close => exact (allows_of_run (run_modifyFile _ _)).mpr isMatch
  | appended => exact (allows_of_run (run_modifyFile _ _)).mpr isMatch
  | release =>
      rw [FileOp.run, allows_of_run (run_modifyFile _ _)]
      exact infoMatches_of_invalid rfl

/-- In every run from a file object that was just allocated, with appends that
succeed, `gdpfs_file_get_info` returns what the last record of the log says, as
long as `gdpfs_file_set_info` only repeats the cached information. -/
theorem getInfo_matches_log
    {start : World}
    (writable : env.readOnly = false)
    (fresh : start.file = GdpfsFile.zero)
    (reached : Reached (FileOp.run env true) RepeatsInfo start world) :
    Ensures getInfoRaw (fun info _ => info = loadInfo world.log) world := by
  have takes : env.takes true = true := by
    rw [Env.takes, writable]
    rfl
  have isMatch : InfoMatches world := by
    refine reached.invariant InfoMatches ?_ fun op state =>
      infoMatches_step takes op
    exact infoMatches_of_invalid (by rw [fresh]; rfl)
  rw [ensures_of_run (run_getInfoRaw world)]
  exact isMatch

end Info

/-- A file system that is mounted for reading and writing, without a cache. -/
def plainMount : Env := ⟨false, 4096, false, false⟩

/-- A file object for a log that was just created. -/
def newLog : World := ⟨GdpfsFile.zero, Cells.Store.empty, [], .empty⟩

/-- A file system that is mounted for reading and writing, with a cache. -/
def cachedMount : Env := ⟨true, 4096, false, false⟩

/-- The log that some steps on a new file leave. -/
def logAfter (ops : List FileOp) : List LogRecord :=
  match replay (FileOp.run cachedMount true) (fun _ _ => true) ops newLog with
  | some world => world.log
  | none => []

/-- A file object for a log that is there when the file system is mounted,
which empties the cache. -/
def storedFile (log : List LogRecord) : World :=
  ⟨GdpfsFile.zero, Cells.Store.empty, log, .empty⟩

/-- A file of one byte. -/
def oneByte : List FileOp :=
  [.opens (.init .regular 420 true), .update (.write [7] 0)]

/-- A file of one byte whose index was checkpointed. -/
def chkptedByte : List FileOp :=
  [.opens (.init .regular 420 true), .update (.write [7] 0), .chkpt]

/-- A file is created and written, and its information repeated. -/
theorem getInfo_matches_log_repeated :
    ∃ world,
      Reached (FileOp.run plainMount true) RepeatsInfo newLog world ∧
        Ensures getInfoRaw (fun info _ => info = loadInfo world.log)
          world := by
  obtain ⟨world, replayed⟩ := Option.isSome_iff_exists.mp
    (show (replay (FileOp.run plainMount true)
      (fun op world => decide (RepeatsInfo op world))
      [.opens (.init .regular 420 true), .update (.write [7] 0),
        .setInfo ⟨1, .regular, 420⟩, .update (.setPerm 384)]
      newLog).isSome = true by decide +kernel)
  have reached : Reached (FileOp.run plainMount true) RepeatsInfo newLog
      world := reached_of_replay (fun _ _ => of_decide_eq_true) replayed
  exact ⟨world, reached, getInfo_matches_log rfl rfl reached⟩

/-- `gdpfs_file_set_info` appends other information than the cached one. -/
theorem setInfo_leaves_cache :
    ¬∀ world,
      Reached (FileOp.run plainMount true) (fun _ _ => True) newLog world →
        Ensures getInfoRaw (fun info _ => info = loadInfo world.log)
          world := by
  intro claimed
  obtain ⟨world, replayed, differs⟩ := (Option.any_eq_true _ _).mp
    (show (replay (FileOp.run plainMount true) (fun _ _ => true)
      [.opens (.init .regular 420 true), .setInfo ⟨5, .regular, 420⟩]
      newLog).any (fun world => decide (world.info ≠ loadInfo world.log)) =
        true by decide +kernel)
  have same := claimed world (reached_of_replay (fun _ _ _ => trivial) replayed)
  rw [ensures_of_run (run_getInfoRaw world)] at same
  exact of_decide_eq_true differs same

/-! ## Record numbers -/

section Recno

variable {env : Env} {world next : World}

/-- Whether the root of the index is dirty. -/
def World.rootDirty (world : World) : Bool :=
  match world.file.figtree with
  | none => false
  | some this =>
      match world.heap.read this.root with
      | none => false
      | some root => root.dirty

/-- A file is created with a type and with a log of its own. -/
def CreatesNew (op : FileOp) (world : World) : Prop :=
  ∀ type perm, op = .opens (.init type perm true) →
    type ≠ .unknown ∧ world.log = []

/-- A file is created as it should be, and every checkpoint of an index finds
its root dirty. -/
def FindsDirty (op : FileOp) (world : World) : Prop :=
  CreatesNew op world ∧
    (op = .chkpt → world.file.figtreeInitialized = true →
      world.rootDirty = true)

theorem Collected.nonempty_iff
    (collected : Collected world chkpt heap) :
    0 < chkpt.length ↔ world.rootDirty = true := by
  rcases collected with ⟨isNull, rfl, _⟩ | ⟨this, isTree, run⟩
  · simp [World.rootDirty, isNull]
  · obtain ⟨node, live, dirty⟩ := allows_getDirty this _ _ _ _ run
    simp only [World.rootDirty, isTree, live]
    exact dirty

/-- The counter of a file with an index is the number of records in the
log. -/
def Counted (world : World) : Prop :=
  world.file.figtreeInitialized = true →
    world.file.lastRecno = world.log.length

theorem length_append_log
    (takes : env.takes true = true)
    (datum : LogRecord) :
    (world.append (env.takes true) datum).log.length =
      world.log.length + 1 := by
  rw [World.append, takes, if_pos rfl, List.length_append]
  rfl

theorem counted_written
    (takes : env.takes true = true)
    (counted : Counted world)
    (buf : List UInt8)
    (offset : Nat)
    (info : FileInfo) :
    Counted (world.written env true buf offset info) := by
  intro initialized
  dsimp only [World.written] at initialized ⊢
  rw [counted initialized, length_append_log takes]

theorem counted_openFile
    (takes : env.takes true = true)
    (counted : Counted world)
    (type : FileType)
    (perm : Nat)
    (init strictInit : Bool)
    (strict : strictInit = true →
      init = true ∧ type ≠ .unknown ∧ world.log = []) :
    Allows (openFile env true type perm init strictInit)
      (fun _ next => Counted next) world := by
  rw [openFile, allows_run_bind (run_modifyFile _ _),
    allows_run_bind (run_modifyFile _ _)]
  refine (allows_openType _ _ _ _).bind ?_
  intro ok next outcome
  have nextCounted : Counted next ∧ (ok = true → strictInit = true →
      next.log.length = 1) := by
    rcases outcome with ⟨unknown, rfl⟩ | ⟨rfl, stops⟩ | rfl
    · exact ⟨counted, fun _ isStrict =>
        absurd unknown (strict isStrict).2.1⟩
    · refine ⟨counted, fun isOk isStrict => ?_⟩
      rw [stops (strict isStrict).1 isStrict] at isOk
      cases isOk
    · refine ⟨counted_written takes counted [] 0 _, fun _ isStrict => ?_⟩
      rw [World.written, length_append_log takes]
      exact congrArg (List.length · + 1) (strict isStrict).2.2
  cases ok with
  | true =>
      rw [if_pos rfl]
      refine (allows_openIndex env strictInit next).bind ?_
      rintro _ after ⟨sameFile, sameLog⟩
      rw [allows_pure, Counted, sameFile, sameLog]
      intro _
      dsimp only
      split
      · next isStrict => exact (nextCounted.2 rfl isStrict).symm
      · split
        · next initialized => exact nextCounted.1 initialized
        · rfl
  | false =>
      simp only [Bool.false_eq_true, if_false]
      rw [allows_run_bind (run_modifyFile _ _), allows_pure]
      exact nextCounted.1

theorem counted_step
    (takes : env.takes true = true)
    (op : FileOp)
    (dirty : FindsDirty op world)
    (counted : Counted world) :
    Allows (op.run env true) (fun _ next => Counted next) world := by
  cases op with
  | opens call =>
      refine Allows.bind ?_ fun _ _ => allows_pure.mpr
      cases call with
      | any => exact counted_openFile takes counted _ _ _ _ (by simp)
      | typed type => exact counted_openFile takes counted _ _ _ _ (by simp)
      | init type perm strictInit =>
          refine counted_openFile takes counted _ _ _ _ ?_
          rintro rfl
          exact ⟨rfl, dirty.1 type perm rfl⟩
  | update change =>
      refine (allows_update change).mono ?_
      rintro _ _ ⟨figtree, heap, _, rfl⟩
      exact @counted_written _ (world.withInfo (change.info world.info))
        takes counted _ _ _
  | setInfo info =>
      rw [FileOp.run, gdpfsFileSetInfo]
      refine (allows_doWrite_empty _).bind ?_
      rintro _ _ rfl
      exact allows_pure.mpr (counted_written takes counted _ _ _)
  | read size offset =>
      refine (allows_doRead env size offset world).bind ?_
      rintro _ next ⟨sameFile, sameLog⟩
      rw [allows_pure, Counted, sameFile, sameLog]
      exact counted
  | chkpt =>
      refine (allows_fileChkpt world).bind ?_
      rintro chkpt _ ⟨heap, collected, _, rfl⟩
      rw [allows_pure]
      intro initialized
      have nonempty := collected.nonempty_iff.mpr (dirty.2 rfl initialized)
      dsimp only [World.checkpointed]
      rw [if_pos nonempty, List.length_append]
      exact congrArg (· + 1) (counted initialized)
  | close => exact (allows_of_run (run_modifyFile _ _)).mpr counted
  | appended => exact (allows_of_run (run_modifyFile _ _)).mpr counted
  | release =>
      rw [FileOp.run, allows_of_run (run_modifyFile _ _)]
      intro initialized
      cases initialized

/-! Records of the log are never changed. -/

theorem prefix_append_log
    (env : Env)
    (world : World)
    (datum : LogRecord) :
    world.log <+: (world.append (env.takes true) datum).log := by
  rw [World.append]
  split
  · exact List.prefix_append _ _
  · exact List.prefix_rfl

theorem prefix_openFile
    (type : FileType)
    (perm : Nat)
    (init strictInit : Bool) :
    Allows (openFile env true type perm init strictInit)
      (fun _ next => world.log <+: next.log) world := by
  rw [openFile, allows_run_bind (run_modifyFile _ _),
    allows_run_bind (run_modifyFile _ _)]
  refine (allows_openType _ _ _ _).bind ?_
  intro ok next outcome
  have grown : world.log <+: next.log := by
    rcases outcome with ⟨_, rfl⟩ | ⟨rfl, _⟩ | rfl
    · exact List.prefix_rfl
    · exact List.prefix_rfl
    · exact prefix_append_log env world _
  cases ok with
  | true =>
      rw [if_pos rfl]
      refine (allows_openIndex env strictInit next).bind ?_
      rintro _ after ⟨_, sameLog⟩
      rw [allows_pure, sameLog]
      exact grown
  | false =>
      simp only [Bool.false_eq_true, if_false]
      rw [allows_run_bind (run_modifyFile _ _), allows_pure]
      exact grown

theorem prefix_step (op : FileOp) :
    Allows (op.run env true) (fun _ next => world.log <+: next.log)
      world := by
  cases op with
  | opens call =>
      refine Allows.bind ?_ fun _ _ => allows_pure.mpr
      cases call with
      | any => exact prefix_openFile _ _ _ _
      | typed type => exact prefix_openFile _ _ _ _
      | init type perm strictInit => exact prefix_openFile _ _ _ _
  | update change =>
      refine (allows_update change).mono ?_
      rintro _ _ ⟨figtree, heap, _, rfl⟩
      exact prefix_append_log env world _
  | setInfo info =>
      rw [FileOp.run, gdpfsFileSetInfo]
      refine (allows_doWrite_empty _).bind ?_
      rintro _ _ rfl
      exact allows_pure.mpr (prefix_append_log env world _)
  | read size offset =>
      refine (allows_doRead env size offset world).bind ?_
      rintro _ next ⟨_, sameLog⟩
      rw [allows_pure, sameLog]
      exact List.prefix_rfl
  | chkpt =>
      refine (allows_fileChkpt world).bind ?_
      rintro chkpt _ ⟨heap, _, _, rfl⟩
      rw [allows_pure]
      dsimp only [World.checkpointed]
      split
      · exact List.prefix_append _ _
      · exact List.prefix_rfl
  | close =>
      rw [FileOp.run, allows_of_run (run_modifyFile _ _)]
  | appended =>
      rw [FileOp.run, allows_of_run (run_modifyFile _ _)]
  | release =>
      rw [FileOp.run, allows_of_run (run_modifyFile _ _)]

theorem recordAt_of_prefix
    {log later : List LogRecord}
    (grown : log ++ [datum] <+: later) :
    recordAt later (log.length + 1) = some datum := by
  obtain ⟨rest, rfl⟩ := grown
  rw [recordAt, if_neg (Nat.succ_ne_zero _)]
  simp

/-- In a run that finds every checkpointed root dirty, the counter of a file
with an index is the number of records in its log.  The number under which a
write indexes its bytes is the number of the record that holds them, and the
number that a checkpoint puts into its pointers is the number of the record
that it becomes, now and in every later state of the run. -/
theorem recno_names_record
    {start : World}
    (writable : env.readOnly = false)
    (fresh : start.file = GdpfsFile.zero)
    (reached : Reached (FileOp.run env true) FindsDirty start world)
    (initialized : world.file.figtreeInitialized = true) :
    world.file.lastRecno = world.log.length ∧
      (∀ change next later,
        ((FileOp.update change).run env true).run world = .ok ((), next) →
        Reached (FileOp.run env true) FindsDirty next later →
        Indexed env world change.offset change.buf.length
            (world.file.lastRecno + 1) next.file.figtree next.heap ∧
          recordAt later.log (world.file.lastRecno + 1) =
            some (dataRecord (change.info world.info) change.buf
              change.offset)) ∧
      ∀ chkpt next later,
        (fileChkpt env true).run world = .ok (chkpt, next) →
        0 < chkpt.length →
        Reached (FileOp.run env true) FindsDirty next later →
        Collected world chkpt next.heap ∧
          recordAt later.log (world.file.lastRecno + 1) =
            some (chkptRecord (dataRecord world.info [] 0).header chkpt) := by
  have takes : env.takes true = true := by
    rw [Env.takes, writable]
    rfl
  have counted : Counted world := by
    refine reached.invariant Counted ?_ fun op state =>
      counted_step takes op
    rw [Counted, fresh]
    intro impossible
    cases impossible
  have grows : ∀ {next later},
      Reached (FileOp.run env true) FindsDirty next later →
      next.log <+: later.log := by
    intro next later run
    refine run.invariant (fun state => next.log <+: state.log)
      List.prefix_rfl fun op state _ grown => ?_
    exact (prefix_step op).mono fun _ _ more => grown.trans more
  have count := counted initialized
  refine ⟨count, ?_, ?_⟩
  · intro change next later run more
    obtain ⟨figtree, heap, indexed, rfl⟩ := allows_update change _ _ run
    refine ⟨indexed, ?_⟩
    rw [count]
    refine recordAt_of_prefix (List.IsPrefix.trans ?_ (grows more))
    dsimp only [World.updated, World.written, World.withIndex, World.withInfo,
      World.append]
    rw [if_pos takes]
  · intro chkpt next later run nonempty more
    obtain ⟨heap, collected, _, rfl⟩ := allows_fileChkpt world _ _ run
    refine ⟨collected, ?_⟩
    rw [count]
    refine recordAt_of_prefix (List.IsPrefix.trans ?_ (grows more))
    dsimp only [World.checkpointed]
    rw [if_pos nonempty]

end Recno

/-- Whether a file is created as it should be. -/
def createsNew (op : FileOp) (world : World) : Bool :=
  match op with
  | .opens (.init type _ true) => type ≠ .unknown && world.log.isEmpty
  | _ => true

theorem createsNew_spec
    (op : FileOp)
    (world : World)
    (checked : createsNew op world = true) :
    CreatesNew op world := by
  rintro type perm rfl
  simpa [createsNew] using checked

/-- Whether a step meets the condition on checkpoints, too. -/
def findsDirty (op : FileOp) (world : World) : Bool :=
  createsNew op world &&
    (op ≠ .chkpt || !world.file.figtreeInitialized || world.rootDirty)

theorem findsDirty_spec
    (op : FileOp)
    (world : World)
    (checked : findsDirty op world = true) :
    FindsDirty op world := by
  rw [findsDirty, Bool.and_eq_true] at checked
  refine ⟨createsNew_spec op world checked.1, ?_⟩
  rintro rfl initialized
  simpa [initialized] using checked.2

/-- A file is created, written, checkpointed and opened again. -/
theorem recno_names_record_reopened :
    ∃ world,
      Reached (FileOp.run plainMount true) FindsDirty newLog world ∧
        world.file.figtreeInitialized = true ∧
        world.file.lastRecno = world.log.length := by
  obtain ⟨world, replayed, initialized⟩ := (Option.any_eq_true _ _).mp
    (show (replay (FileOp.run plainMount true) findsDirty
      [.opens (.init .regular 420 true), .update (.write [7] 0), .appended,
        .chkpt, .close, .release, .opens .any] newLog).any
      (fun world => world.file.figtreeInitialized) = true by decide +kernel)
  have reached : Reached (FileOp.run plainMount true) FindsDirty newLog
      world := reached_of_replay findsDirty_spec replayed
  exact ⟨world, reached, initialized,
    (recno_names_record rfl rfl reached initialized).1⟩

/-- A checkpoint of a clean tree counts a record that is not appended. -/
theorem chkpt_counts_nothing :
    ¬∀ world,
      Reached (FileOp.run plainMount true) CreatesNew newLog world →
      world.file.figtreeInitialized = true →
      world.file.lastRecno = world.log.length := by
  intro claimed
  obtain ⟨world, replayed, differs⟩ := (Option.any_eq_true _ _).mp
    (show (replay (FileOp.run plainMount true) createsNew
      [.opens (.init .regular 420 true), .chkpt, .chkpt] newLog).any
      (fun world => world.file.figtreeInitialized &&
        decide (world.file.lastRecno ≠ world.log.length)) = true by
          decide +kernel)
  rw [Bool.and_eq_true, decide_eq_true_eq] at differs
  exact differs.2 (claimed world
    (reached_of_replay createsNew_spec replayed) differs.1)

end File
end Gdpfs
