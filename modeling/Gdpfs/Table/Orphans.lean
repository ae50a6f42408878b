import Gdpfs.File.Accounts
import Gdpfs.Table.Threads

/-!
# Files that are not on their way to being freed

All files of a mount, with operations run one at a time.  A file that nothing
refers to and that was evicted from the list of recently closed files is freed
by the callback of its checkpoint, which is appended only if its index has dirty
nodes.
-/

namespace Gdpfs
namespace Table

open Log File Effect

/-- What stops an operation. -/
inductive MountFault
  | file (fault : FileFault)
  /-- A file that is inserted into the list is in it. -/
  | assertion
  /-- There is no such file handle or callback, or the operation waits for
  one. -/
  | notReady
  deriving DecidableEq, Repr

/-- The files of a mount by name.  A file is `recently_closed` if its name is in
the list. -/
structure Mount where
  worlds : Nat → World
  fileHash : List Nat
  handles : Nat → Nat
  recentlyClosed : List Nat

/-- Code that works on the files of a mount. -/
abbrev MountM := StateT Mount (Except MountFault)

/-- Replace a file. -/
def Mount.setWorld (mount : Mount) (name : Nat) (world : World) : Mount :=
  { mount with worlds := Function.update mount.worlds name world }

/-- Run file code on a file. -/
def onWorld (name : Nat) (action : FileM α) : MountM α := do
  let mount ← get
  match action.run (mount.worlds name) with
  | .ok (value, world) => do
      set (mount.setWorld name world)
      pure value
  | .error fault => throw (.file fault)

/-- Go on only if there is something to go on with. -/
def require (ready : Bool) : MountM Unit :=
  if ready then pure () else throw .notReady

/-- `_file_dealloc`. -/
def mountDealloc (env : Env) (name : Nat) : MountM Unit := do
  let mount ← get
  require ((mount.worlds name).file.outstandingReqs == 0)
  let _ ← onWorld name (fileChkpt env true)

/-- `_recently_closed_insert`. -/
def mountInsert (env : Env) (name : Nat) : MountM Unit := do
  let mount ← get
  if name ∈ mount.recentlyClosed then throw .assertion
  else if mount.recentlyClosed.length = rcCap then
    match mount.recentlyClosed.getLast? with
    | none => throw .assertion
    | some old => do
        set { mount with
          recentlyClosed := name :: mount.recentlyClosed.dropLast }
        mountDealloc env old
  else set { mount with recentlyClosed := name :: mount.recentlyClosed }

/-- `_file_unref`, after it has counted down. -/
def mountUnref (env : Env) (name : Nat) : MountM Unit := do
  let mount ← get
  if (mount.worlds name).file.refCount = 0 then mountInsert env name
  else pure ()

/-- The part of `open_file` that finds the file, revives it or allocates a new
one. -/
def enterHash (name : Nat) : MountM Unit := do
  let mount ← get
  if name ∈ mount.fileHash then
    set { mount with recentlyClosed := mount.recentlyClosed.erase name }
  else
    set { mount.setWorld name
        { mount.worlds name with file := GdpfsFile.zero } with
      fileHash := name :: mount.fileHash }

/-- Count a file handle in or out. -/
def setHandles (name : Nat) (count : Nat) : MountM Unit := do
  let mount ← get
  set { mount with handles := Function.update mount.handles name count }

/-- Open a file; one of the wrong type is closed again. -/
def mountOpen (env : Env) (name : Nat) (call : OpenCall) : MountM Unit := do
  enterHash name
  let ok ← onWorld name (call.run env true)
  if ok then do
    let mount ← get
    setHandles name (mount.handles name + 1)
  else mountUnref env name

/-- Use an open file handle. -/
def withHandle (name : Nat) (action : FileM Unit) : MountM Unit := do
  let mount ← get
  require (0 < mount.handles name)
  onWorld name action

/-- `gdpfs_file_close`. -/
def mountClose (env : Env) (name : Nat) : MountM Unit := do
  let mount ← get
  require (0 < mount.handles name)
  setHandles name (mount.handles name - 1)
  onWorld name (modifyFile File.fileUnref)
  mountUnref env name

/-- `free_fileref`. -/
def mountAppended (env : Env) (name : Nat) : MountM Unit := do
  let mount ← get
  require (0 < (mount.worlds name).file.outstandingReqs)
  onWorld name (modifyFile File.freeFileref)
  mountUnref env name

/-- The part of `_file_chkpt_finish` after it has counted down to zero. -/
def mountRelease (name : Nat) : MountM Unit := do
  let mount ← get
  if (mount.worlds name).file.refCount ≠ 0 ∨ name ∈ mount.recentlyClosed then
    pure ()
  else
    set { mount.setWorld name
        { mount.worlds name with file := GdpfsFile.zero } with
      fileHash := mount.fileHash.filter (· ≠ name) }

/-- `_file_chkpt_finish`. -/
def mountFinish (name : Nat) : MountM Unit := do
  let mount ← get
  require (0 < (mount.worlds name).file.indexFlushReqs)
  onWorld name (modifyFile fun file =>
    { file with indexFlushReqs := file.indexFlushReqs - 1 })
  if (mount.worlds name).file.indexFlushReqs - 1 ≠ 0 then pure ()
  else mountRelease name

/-- An operation. -/
inductive MountOp
  | opens (name : Nat) (call : OpenCall)
  | read (name size offset : Nat)
  | update (name : Nat) (change : Update)
  | setInfo (name : Nat) (info : FileInfo)
  | close (name : Nat)
  | appended (name : Nat)
  | finish (name : Nat)
  deriving DecidableEq, Repr

/-- Run an operation; appends succeed. -/
def MountOp.run (env : Env) : MountOp → MountM Unit
  | .opens name call => mountOpen env name call
  | .read name size offset =>
      withHandle name (FileOp.run env true (.read size offset))
  | .update name change =>
      withHandle name (FileOp.run env true (.update change))
  | .setInfo name info =>
      withHandle name (FileOp.run env true (.setInfo info))
  | .close name => mountClose env name
  | .appended name => mountAppended env name
  | .finish name => mountFinish name

/-! ## The condition -/

/-- The file that leaves the list if another one is inserted. -/
def Mount.victim (mount : Mount) (name : Nat) : Option Nat :=
  if (mount.recentlyClosed.erase name).length = rcCap then
    (mount.recentlyClosed.erase name).getLast?
  else none

/-- The file as `open_file` finds or allocates it. -/
def Mount.found (mount : Mount) (name : Nat) : World :=
  if name ∈ mount.fileHash then mount.worlds name
  else { mount.worlds name with file := GdpfsFile.zero }

/-- The file that an operation drops the last reference of: with a close or a
callback, or because it has the wrong type. -/
def Mount.dropped (env : Env) (mount : Mount) : MountOp → Option Nat
  | .opens name call =>
      match (call.run env true).run (mount.found name) with
      | .ok (false, world) =>
          if world.file.refCount = 0 then some name else none
      | _ => none
  | .close name =>
      if (mount.worlds name).file.refCount - 1 = 0 then some name else none
  | .appended name =>
      if (mount.worlds name).file.refCount - 1 = 0 then some name else none
  | _ => none

/-- Every file that an operation evicts has a dirty index. -/
def evictsDirty (env : Env) (op : MountOp) (mount : Mount) : Bool :=
  match (mount.dropped env op).bind mount.victim with
  | none => true
  | some old => (mount.worlds old).rootDirty

/-! ## The invariant -/

/-- Something refers to the file, it is in the list, or the callback of a
checkpoint is pending. -/
def Mount.Kept (mount : Mount) (name : Nat) : Prop :=
  0 < (mount.worlds name).file.refCount ∨ name ∈ mount.recentlyClosed ∨
    0 < (mount.worlds name).file.indexFlushReqs

/-- No file in the hash is orphaned. -/
def NoOrphans (mount : Mount) : Prop :=
  ∀ name ∈ mount.fileHash, mount.Kept name

/-- No file in the hash is orphaned, with the exception of one. -/
def OthersKept (mount : Mount) (name : Nat) : Prop :=
  ∀ other ∈ mount.fileHash, other ≠ name → mount.Kept other

section Steps

variable {env : Env} {mount : Mount} {name : Nat}

theorem worlds_setWorld (world : World) (other : Nat) :
    (mount.setWorld name world).worlds other =
      if other = name then world else mount.worlds other :=
  Function.update_apply _ _ _ _

theorem allows_onWorld (action : FileM α) :
    Allows (onWorld name action)
      (fun value next => ∃ world,
        action.run (mount.worlds name) = .ok (value, world) ∧
        next = mount.setWorld name world) mount := by
  rw [onWorld, allows_bind, allows_get]
  cases run : action.run (mount.worlds name) with
  | error fault => exact allows_throw
  | ok result =>
      obtain ⟨value, world⟩ := result
      dsimp only
      rw [allows_bind, allows_set, allows_pure]
      exact ⟨world, rfl, rfl⟩

theorem allows_require (ready : Bool) :
    Allows (require ready) (fun _ next => ready = true ∧ mount = next)
      mount := by
  unfold require
  split
  · next isReady => exact allows_pure.mpr ⟨isReady, rfl⟩
  · exact allows_throw

theorem Mount.Kept.congr
    {next : Mount}
    {other : Nat}
    (kept : mount.Kept other)
    (sameWorld : next.worlds other = mount.worlds other)
    (sameList : other ∈ mount.recentlyClosed →
      other ∈ next.recentlyClosed) :
    next.Kept other := by
  unfold Mount.Kept at kept ⊢
  rw [sameWorld]
  exact kept.imp id (Or.imp sameList id)

/-- A file that changes leaves the other ones as they are. -/
theorem OthersKept.setWorld
    (kept : OthersKept mount name)
    (world : World) :
    OthersKept (mount.setWorld name world) name := by
  intro other member differ
  refine (kept other member differ).congr ?_ id
  rw [worlds_setWorld, if_neg differ]

theorem OthersKept.all
    (kept : OthersKept mount name)
    (here : mount.Kept name) :
    NoOrphans mount := by
  intro other member
  by_cases same : other = name
  · rw [same]
    exact here
  · exact kept other member same

theorem NoOrphans.others
    (kept : NoOrphans mount)
    (name : Nat) :
    OthersKept mount name :=
  fun other member _ => kept other member

/-- The eviction of a dirty file leaves the callback of its checkpoint. -/
theorem allows_mountDealloc
    {old : Nat}
    (kept : OthersKept mount old)
    (dirty : (mount.worlds old).rootDirty = true) :
    Allows (mountDealloc env old) (fun _ next => NoOrphans next) mount := by
  rw [mountDealloc, allows_bind, allows_get]
  refine (allows_require _).bind ?_
  rintro _ _ ⟨_, rfl⟩
  refine (allows_onWorld _).bind ?_
  rintro chkpt _ ⟨world, run, rfl⟩
  rw [allows_pure]
  obtain ⟨heap, collected, _, isWorld⟩ := allows_fileChkpt _ _ _ run
  have nonempty := collected.nonempty_iff.mpr dirty
  refine (kept.setWorld world).all (Or.inr (Or.inr ?_))
  rw [worlds_setWorld, if_pos rfl, isWorld]
  simp only [World.checkpointed, if_pos nonempty]
  exact Nat.succ_pos _

/-- The insertion of a file that was dropped. -/
theorem allows_mountInsert
    (kept : OthersKept mount name)
    (dirty : name ∉ mount.recentlyClosed →
      mount.recentlyClosed.length = rcCap →
      ∀ old, mount.recentlyClosed.getLast? = some old →
        (mount.worlds old).rootDirty = true) :
    Allows (mountInsert env name) (fun _ next => NoOrphans next) mount := by
  rw [mountInsert, allows_bind, allows_get]
  split
  · exact allows_throw
  · next isOut =>
      split
      · next full =>
          cases isLast : mount.recentlyClosed.getLast? with
          | none => exact allows_throw
          | some old =>
              obtain ⟨front, isList⟩ : ∃ front,
                  mount.recentlyClosed = front ++ [old] :=
                List.getLast?_eq_some_iff.mp isLast
              dsimp only
              rw [allows_bind, allows_set]
              refine allows_mountDealloc ?_ (dirty isOut full old isLast)
              intro other member differ
              by_cases same : other = name
              · rw [same]
                exact Or.inr (Or.inl List.mem_cons_self)
              · refine (kept other member same).congr rfl fun listed => ?_
                rw [isList] at listed ⊢
                simp only [List.dropLast_concat]
                simpa [differ] using Or.inr listed
      · rw [allows_set]
        intro other member
        by_cases same : other = name
        · rw [same]
          exact Or.inr (Or.inl List.mem_cons_self)
        · exact (kept other member same).congr rfl
            fun listed => List.mem_cons_of_mem _ listed

theorem allows_mountUnref
    (kept : OthersKept mount name)
    (dirty : (mount.worlds name).file.refCount = 0 →
      name ∉ mount.recentlyClosed →
      mount.recentlyClosed.length = rcCap →
      ∀ old, mount.recentlyClosed.getLast? = some old →
        (mount.worlds old).rootDirty = true) :
    Allows (mountUnref env name) (fun _ next => NoOrphans next) mount := by
  rw [mountUnref, allows_bind, allows_get]
  split
  · next isZero => exact allows_mountInsert kept (dirty isZero)
  · next positive =>
      exact allows_pure.mpr (kept.all (Or.inl (Nat.pos_of_ne_zero positive)))

/-- What an operation that drops a file evicts is dirty. -/
theorem dirty_of_evictsDirty
    {op : MountOp}
    (evicts : evictsDirty env op mount = true)
    (dropped : mount.dropped env op = some name)
    {list : List Nat}
    (isList : mount.recentlyClosed.erase name = list)
    (full : list.length = rcCap)
    {old : Nat}
    (isLast : list.getLast? = some old) :
    (mount.worlds old).rootDirty = true := by
  have victim : mount.victim name = some old := by
    rw [Mount.victim, isList, if_pos full, isLast]
  unfold evictsDirty at evicts
  rw [dropped, Option.bind_some, victim] at evicts
  exact evicts

/-- Dropping a reference of a file, as a close or a callback does. -/
theorem allows_drop
    {op : MountOp}
    {change : GdpfsFile → GdpfsFile}
    {handles : Nat → Nat}
    (orphanFree : NoOrphans mount)
    (evicts : evictsDirty env op mount = true)
    (drops : (change (mount.worlds name).file).refCount = 0 →
      mount.dropped env op = some name) :
    Allows (do
        onWorld name (modifyFile change)
        mountUnref env name) (fun _ next => NoOrphans next)
      { mount with handles := handles } := by
  refine (allows_onWorld _).bind ?_
  rintro _ _ ⟨world, run, rfl⟩
  rw [run_modifyFile] at run
  cases run
  have kept : OthersKept { mount with handles := handles } name :=
    orphanFree.others name
  refine allows_mountUnref (kept.setWorld _) ?_
  intro isZero isOut full old isLast
  rw [worlds_setWorld, if_pos rfl] at isZero
  have member : old ∈ mount.recentlyClosed := List.mem_of_getLast? isLast
  have differ : old ≠ name := fun same => isOut (same ▸ member)
  rw [worlds_setWorld, if_neg differ]
  exact dirty_of_evictsDirty evicts (drops isZero)
    (List.erase_of_not_mem isOut) full isLast

theorem allows_mountClose
    (orphanFree : NoOrphans mount)
    (evicts : evictsDirty env (.close name) mount = true) :
    Allows (mountClose env name) (fun _ next => NoOrphans next) mount := by
  rw [mountClose, allows_bind, allows_get]
  refine (allows_require _).bind ?_
  rintro _ _ ⟨_, rfl⟩
  rw [setHandles, bind_assoc, allows_bind, allows_get, allows_bind, allows_set]
  exact allows_drop orphanFree evicts fun isZero => if_pos isZero

theorem allows_mountAppended
    (orphanFree : NoOrphans mount)
    (evicts : evictsDirty env (.appended name) mount = true) :
    Allows (mountAppended env name) (fun _ next => NoOrphans next)
      mount := by
  rw [mountAppended, allows_bind, allows_get]
  refine (allows_require _).bind ?_
  rintro _ _ ⟨_, rfl⟩
  exact allows_drop orphanFree evicts fun isZero => if_pos isZero

/-- A file that was opened has a reference. -/
theorem refCount_openFile
    (type : FileType)
    (perm : Nat)
    (init strictInit : Bool)
    (world : World) :
    Allows (File.openFile env true type perm init strictInit)
      (fun ok next => ok = true → 0 < next.file.refCount) world := by
  rw [File.openFile, allows_run_bind (run_modifyFile _ _),
    allows_run_bind (run_modifyFile _ _)]
  refine (allows_openType type perm init strictInit).bind ?_
  intro ok next opened
  have positive : 0 < next.file.refCount := by
    rcases opened with ⟨_, rfl⟩ | ⟨rfl, _⟩ | rfl
    · exact Nat.succ_pos _
    · exact Nat.succ_pos _
    · exact Nat.succ_pos _
  split
  · refine (allows_openIndex env strictInit next).bind ?_
    rintro _ after ⟨sameFile, _⟩
    rw [allows_pure, sameFile]
    exact fun _ => positive
  · rw [allows_run_bind (run_modifyFile _ _), allows_pure]
    intro impossible
    cases impossible

theorem refCount_openCall (call : OpenCall) (world : World) :
    Allows (call.run env true)
      (fun ok next => ok = true → 0 < next.file.refCount) world := by
  cases call with
  | any => exact refCount_openFile _ _ _ _ _
  | typed type => exact refCount_openFile _ _ _ _ _
  | init type perm strictInit => exact refCount_openFile _ _ _ _ _

/-- Finding a file takes it out of the list. -/
theorem allows_enterHash (orphanFree : NoOrphans mount) :
    Allows (enterHash name)
      (fun _ next => OthersKept next name ∧
        next.worlds name = mount.found name ∧
        (∀ other, other ≠ name → next.worlds other = mount.worlds other) ∧
        (name ∉ next.recentlyClosed →
          mount.recentlyClosed.erase name = next.recentlyClosed)) mount := by
  rw [enterHash, allows_bind, allows_get]
  unfold Mount.found
  split
  · rw [allows_set]
    refine ⟨fun other member differ => ?_, rfl, fun _ _ => rfl,
      fun _ => rfl⟩
    exact (orphanFree other member).congr rfl
      fun listed => (List.mem_erase_of_ne differ).mpr listed
  · rw [allows_set]
    refine ⟨fun other member differ => ?_, ?_, fun other differ => ?_,
      fun isOut => List.erase_of_not_mem isOut⟩
    · have old : other ∈ mount.fileHash :=
        (List.mem_cons.mp member).resolve_left differ
      refine (orphanFree other old).congr ?_ id
      exact (worlds_setWorld _ _).trans (if_neg differ)
    · exact (worlds_setWorld _ _).trans (if_pos rfl)
    · exact (worlds_setWorld _ _).trans (if_neg differ)

theorem allows_mountOpen
    (orphanFree : NoOrphans mount)
    (call : OpenCall)
    (evicts : evictsDirty env (.opens name call) mount = true) :
    Allows (mountOpen env name call) (fun _ next => NoOrphans next)
      mount := by
  rw [mountOpen]
  refine (allows_enterHash orphanFree).bind ?_
  rintro _ entered ⟨kept, isFound, sameWorlds, sameList⟩
  refine (allows_onWorld _).bind ?_
  rintro ok _ ⟨world, run, rfl⟩
  rw [isFound] at run
  have positive := refCount_openCall call _ _ _ run
  cases ok with
  | true =>
      rw [if_pos rfl, allows_bind, allows_get, setHandles, allows_bind,
        allows_get, allows_set]
      have here : (entered.setWorld name world).Kept name := by
        refine Or.inl ?_
        rw [worlds_setWorld, if_pos rfl]
        exact positive rfl
      exact (kept.setWorld world).all here
  | false =>
      rw [if_neg Bool.false_ne_true]
      refine allows_mountUnref (kept.setWorld world) ?_
      intro isZero isOut full old isLast
      rw [worlds_setWorld, if_pos rfl] at isZero
      have member : old ∈ entered.recentlyClosed :=
        List.mem_of_getLast? isLast
      have differ : old ≠ name := fun same => isOut (same ▸ member)
      rw [worlds_setWorld, if_neg differ, sameWorlds old differ]
      have dropped : mount.dropped env (.opens name call) = some name := by
        simp only [Mount.dropped, run, if_pos isZero]
      exact dirty_of_evictsDirty evicts dropped (sameList isOut) full isLast

/-- Using a file handle drops no reference. -/
theorem allows_withHandle
    (orphanFree : NoOrphans mount)
    {action : FileM Unit}
    (keeps : ∀ world, Allows action
      (fun _ next => world.file.refCount ≤ next.file.refCount ∧
        next.file.indexFlushReqs = world.file.indexFlushReqs) world) :
    Allows (withHandle name action) (fun _ next => NoOrphans next)
      mount := by
  rw [withHandle, allows_bind, allows_get]
  refine (allows_require _).bind ?_
  rintro _ _ ⟨_, rfl⟩
  refine (allows_onWorld _).mono ?_
  rintro _ _ ⟨world, run, rfl⟩
  obtain ⟨refs, flushes⟩ := keeps _ _ _ run
  intro other member
  by_cases same : other = name
  · subst same
    refine (orphanFree other member).imp ?_ (Or.imp id ?_)
    · intro positive
      rw [worlds_setWorld, if_pos rfl]
      omega
    · intro pending
      rw [worlds_setWorld, if_pos rfl]
      omega
  · refine (orphanFree other member).congr ?_ id
    rw [worlds_setWorld, if_neg same]

theorem allows_mountFinish (orphanFree : NoOrphans mount) :
    Allows (mountFinish name) (fun _ next => NoOrphans next) mount := by
  rw [mountFinish, allows_bind, allows_get]
  refine (allows_require _).bind ?_
  rintro _ _ ⟨_, rfl⟩
  refine (allows_onWorld _).bind ?_
  rintro _ _ ⟨world, run, rfl⟩
  rw [run_modifyFile] at run
  cases run
  have kept := (orphanFree.others name).setWorld
    { mount.worlds name with
      file := { (mount.worlds name).file with
        indexFlushReqs := (mount.worlds name).file.indexFlushReqs - 1 } }
  split
  · next pending =>
      refine allows_pure.mpr (kept.all (Or.inr (Or.inr ?_)))
      rw [worlds_setWorld, if_pos rfl]
      exact Nat.pos_of_ne_zero pending
  · rw [mountRelease, allows_bind, allows_get]
    split
    · next used =>
        refine allows_pure.mpr (kept.all ?_)
        rcases used with positive | listed
        · exact Or.inl (Nat.pos_of_ne_zero positive)
        · exact Or.inr (Or.inl listed)
    · rw [allows_set]
      intro other member
      obtain ⟨hashed, differ⟩ := List.mem_filter.mp member
      have differ := of_decide_eq_true differ
      refine (kept other hashed differ).congr ?_ id
      exact (worlds_setWorld _ _).trans (if_neg differ)

/-- An operation that evicts no clean file leaves no orphan. -/
theorem allows_mountOp
    (op : MountOp)
    (orphanFree : NoOrphans mount)
    (evicts : evictsDirty env op mount = true) :
    Allows (op.run env) (fun _ next => NoOrphans next) mount := by
  cases op with
  | opens name call => exact allows_mountOpen orphanFree call evicts
  | read name size offset =>
      refine allows_withHandle orphanFree fun world => ?_
      rw [FileOp.run]
      refine (allows_doRead env size offset world).bind ?_
      rintro _ next ⟨sameFile, _⟩
      rw [allows_pure, sameFile]
      exact ⟨Nat.le_refl _, rfl⟩
  | update name change =>
      refine allows_withHandle orphanFree fun world => ?_
      refine (allows_update change).mono ?_
      rintro _ _ ⟨figtree, heap, _, rfl⟩
      exact ⟨Nat.le_succ _, rfl⟩
  | setInfo name info =>
      refine allows_withHandle orphanFree fun world => ?_
      rw [FileOp.run, gdpfsFileSetInfo]
      refine (allows_doWrite [] 0 info).bind ?_
      rintro _ _ ⟨figtree, heap, _, rfl⟩
      exact allows_pure.mpr ⟨Nat.le_succ _, rfl⟩
  | close name => exact allows_mountClose orphanFree evicts
  | appended name => exact allows_mountAppended orphanFree evicts
  | finish name => exact allows_mountFinish orphanFree

end Steps

/-! ## Runs -/

/-- A mount where no file is open yet. -/
def Mount.start (worlds : Nat → World) : Mount :=
  ⟨worlds, [], fun _ => 0, []⟩

/-- No file is orphaned: in a run in which every file that is evicted has a
dirty index, every file in the hash is referred to, is in the list or waits for
the callback of a checkpoint. -/
theorem no_orphans
    (env : Env)
    (worlds : Nat → World)
    (reached : Reached (MountOp.run env)
      (fun op mount => evictsDirty env op mount = true) (Mount.start worlds)
      mount) :
    NoOrphans mount := by
  refine Reached.invariant NoOrphans ?_
    (fun op _ evicts orphanFree => allows_mountOp op orphanFree evicts) reached
  intro name member
  cases member

/-- A log with a single record of an empty regular file. -/
def regularFile : World where
  file := GdpfsFile.zero
  heap := Cells.Store.empty
  log := [dataRecord ⟨0, .regular, 420⟩ [] 0]
  cache := .empty

/-- More files are opened, written and closed than the list holds; the first of
them is evicted with a dirty index, and waits for its checkpoint. -/
theorem no_orphans_closed :
    ∃ mount, Reached (MountOp.run plainMount)
        (fun op mount => evictsDirty plainMount op mount = true)
        (Mount.start fun _ => regularFile) mount ∧
      0 ∈ mount.fileHash ∧ 0 ∉ mount.recentlyClosed ∧
      (mount.worlds 0).file.indexFlushReqs = 1 ∧
      NoOrphans mount := by
  obtain ⟨mount, replayed, evicted⟩ := (Option.any_eq_true _ _).mp
    (show (replay (MountOp.run plainMount) (evictsDirty plainMount)
      ((List.range 257).flatMap fun name =>
        [.opens name .any, .update name (.write [7] 0), .appended name,
          .close name])
      (Mount.start fun _ => regularFile)).any (fun mount =>
        decide (0 ∈ mount.fileHash ∧ 0 ∉ mount.recentlyClosed ∧
          (mount.worlds 0).file.indexFlushReqs = 1)) = true by
      decide +kernel)
  obtain ⟨hashed, isOut, isPending⟩ := of_decide_eq_true evicted
  have reached := reached_of_replay (fun _ _ evicts => evicts) replayed
  exact ⟨mount, reached, hashed, isOut, isPending,
    no_orphans plainMount _ reached⟩

/-- Files that are opened as directories are closed again at once; the first of
them to be evicted has no index to checkpoint, and stays in the hash. -/
theorem wrong_type_orphans :
    ¬∀ mount, Reached (MountOp.run plainMount) (fun _ _ => True)
      (Mount.start fun _ => regularFile) mount → NoOrphans mount := by
  intro holds
  obtain ⟨mount, replayed, bad⟩ := (Option.any_eq_true _ _).mp
    (show (replay (MountOp.run plainMount) (fun _ _ => true)
      ((List.range 257).map fun name => .opens name (.typed .dir))
      (Mount.start fun _ => regularFile)).any (fun mount =>
        decide (0 ∈ mount.fileHash ∧
          (mount.worlds 0).file.refCount = 0 ∧
          0 ∉ mount.recentlyClosed ∧
          (mount.worlds 0).file.indexFlushReqs = 0)) = true by
      decide +kernel)
  obtain ⟨hashed, noRefs, isOut, noFlush⟩ := of_decide_eq_true bad
  have reached := reached_of_replay (fun _ _ _ => trivial) replayed
  rcases holds mount reached 0 hashed with positive | listed | pending
  · omega
  · exact isOut listed
  · omega

end Table
end Gdpfs
