import Gdpfs.File.Ops

/-!
# What the operations of a file leave behind

The counters, the cached information and the log after each operation, however
the index changed.
-/

namespace Gdpfs
namespace File

open Log FigTree Effect

section Steps

variable {env : Env} {world : World} {appends : Bool}

theorem run_modifyFile (change : GdpfsFile → GdpfsFile) (world : World) :
    (modifyFile change).run world =
      .ok ((), { world with file := change world.file }) :=
  rfl

/-- Whether the log takes a datum. -/
def Env.takes (env : Env) (appends : Bool) : Bool :=
  !env.readOnly && appends

/-- The file after an append. -/
def World.append (world : World) (taken : Bool) (datum : LogRecord) : World :=
  { world with log := if taken then world.log ++ [datum] else world.log }

theorem run_gdpfsLogAppend
    (env : Env)
    (appends : Bool)
    (datum : LogRecord)
    (world : World) :
    (gdpfsLogAppend env appends datum).run world =
      .ok (env.takes appends, world.append (env.takes appends) datum) := by
  unfold gdpfsLogAppend Env.takes World.append
  cases env.readOnly <;> cases appends <;> rfl

/-- The file after the cache was filled. -/
def World.fillCache
    (world : World)
    (env : Env)
    (buf : List UInt8)
    (offset : Nat) : World :=
  { world with
    cache := if env.useCache then world.cache.write offset buf
      else world.cache }

theorem run_gdpfsFileFillCache
    (env : Env)
    (buf : List UInt8)
    (offset : Nat)
    (world : World) :
    (gdpfsFileFillCache env buf offset).run world =
      .ok (env.useCache, world.fillCache env buf offset) := by
  unfold gdpfsFileFillCache World.fillCache
  cases env.useCache <;> rfl

theorem run_writeCache
    (env : Env)
    (buf : List UInt8)
    (offset : Nat)
    (world : World) :
    (writeCache env buf offset).run world =
      .ok ((), world.fillCache env buf offset) := by
  unfold writeCache
  cases useCache : env.useCache
  · simp only [World.fillCache, useCache, Bool.false_eq_true, if_false]
    rfl
  · rw [if_pos rfl, StateT.run_bind, run_gdpfsFileFillCache]
    rfl

/-- The information of the file, from the cache or from the log. -/
def World.info (world : World) : FileInfo :=
  if world.file.infoCacheValid then world.file.infoCache
  else loadInfo world.log

/-- The file with valid cached information. -/
def World.withInfo (world : World) (info : FileInfo) : World :=
  { world with
    file := { world.file with infoCache := info, infoCacheValid := true } }

theorem run_getInfoRaw (world : World) :
    getInfoRaw.run world = .ok (world.info, world.withInfo world.info) := by
  obtain ⟨⟨refCount, newFile, valid, _, _, _, _, _, _⟩, heap, log, cache⟩ :=
    world
  cases valid <;> rfl

theorem allows_onTree (action : FigM α) :
    Allows (onTree action)
      (fun value next => ∃ heap,
        action.run world.heap = .ok (value, heap) ∧
        next = { world with heap := heap }) world := by
  intro value next run
  rw [onTree, StateT.run_bind] at run
  cases ran : action.run world.heap with
  | error fault =>
      simp only [StateT.run_get, pure_bind, ran] at run
      cases run
  | ok result =>
      simp only [StateT.run_get, pure_bind, ran] at run
      cases run
      exact ⟨result.2, rfl, rfl⟩

/-- What `ft_write` does to the index of a file, if there are bytes to
write. -/
def Indexed
    (env : Env)
    (world : World)
    (offset : Int)
    (size recno : Nat)
    (figtree : Option Figtree)
    (heap : Heap) : Prop :=
  if 0 < size then
    ∃ this this', world.file.figtree = some this ∧
      figtree = some this' ∧
      (ftWrite (env.fetchable world.log) this (offset % 4294967296).toNat
        ((offset + size - 1) % 4294967296).toNat recno).run world.heap =
          .ok (this', heap)
  else figtree = world.file.figtree ∧ heap = world.heap

/-- The file with another index. -/
def World.withIndex
    (world : World)
    (figtree : Option Figtree)
    (heap : Heap) : World :=
  { world with file := { world.file with figtree := figtree }, heap := heap }

theorem allows_indexWrite
    (offset : Int)
    (recno : Nat)
    (nonempty : 0 < size) :
    Allows (indexWrite env offset size recno)
      (fun _ next => ∃ figtree heap,
        Indexed env world offset size recno figtree heap ∧
        next = world.withIndex figtree heap) world := by
  rw [indexWrite, allows_bind, allows_get]
  cases isTree : world.file.figtree with
  | none => exact allows_throw
  | some this =>
      refine (allows_onTree _).bind ?_
      rintro this' _ ⟨heap, run, rfl⟩
      rw [allows_of_run (run_modifyFile _ _)]
      refine ⟨_, heap, ?_, rfl⟩
      rw [Indexed, if_pos nonempty]
      exact ⟨this, this', isTree, rfl, run⟩

theorem allows_writeIndex (buf : List UInt8) (offset : Nat) :
    Allows (writeIndex env buf offset)
      (fun _ next => ∃ figtree heap,
        Indexed env world offset buf.length (world.file.lastRecno + 1) figtree
          heap ∧
        next = { world with
          file := { world.file with
            lastRecno := world.file.lastRecno + 1, figtree := figtree }
          heap := heap }) world := by
  rw [writeIndex, allows_run_bind (run_modifyFile _ _), allows_bind,
    allows_get]
  by_cases nonempty : 0 < buf.length
  · rw [if_pos nonempty]
    exact allows_indexWrite _ _ nonempty
  · rw [if_neg nonempty, allows_pure]
    refine ⟨world.file.figtree, world.heap, ?_, rfl⟩
    rw [Indexed, if_neg nonempty]
    exact ⟨rfl, rfl⟩

/-- The file after `do_write`, but for its index. -/
def World.written
    (world : World)
    (env : Env)
    (appends : Bool)
    (buf : List UInt8)
    (offset : Nat)
    (info : FileInfo) : World :=
  { world with
    file := { world.file with
      refCount := world.file.refCount + 1
      outstandingReqs := world.file.outstandingReqs + 1
      lastRecno := world.file.lastRecno + 1 }
    log := (world.append (env.takes appends)
      (dataRecord info buf offset)).log
    cache := (world.fillCache env buf offset).cache }

theorem allows_doWrite
    (buf : List UInt8)
    (offset : Nat)
    (info : FileInfo) :
    Allows (doWrite env appends buf offset info)
      (fun _ next => ∃ figtree heap,
        Indexed env world offset buf.length (world.file.lastRecno + 1) figtree
          heap ∧
        next = (world.written env appends buf offset info).withIndex figtree
          heap) world := by
  rw [doWrite, allows_run_bind (run_modifyFile _ _),
    allows_run_bind (run_modifyFile _ _),
    allows_run_bind (run_writeCache _ _ _ _)]
  refine (allows_writeIndex buf offset).bind ?_
  rintro _ _ ⟨figtree, heap, indexed, rfl⟩
  rw [allows_run_bind (run_gdpfsLogAppend _ _ _ _), allows_pure]
  exact ⟨figtree, heap, indexed, rfl⟩

/-! ## Updates -/

/-- The operations that change the cached information and append it. -/
inductive Update
  | write (buf : List UInt8) (offset : Nat)
  | ftruncate (fileSize : Nat)
  | setPerm (perm : Nat)
  deriving DecidableEq, Repr

namespace Update

/-- The call of an update; what it returns is left out. -/
def run (env : Env) (appends : Bool) : Update → FileM Unit
  | .write buf offset => do
      let _ ← gdpfsFileWrite env appends buf offset
  | .ftruncate fileSize => do
      let _ ← gdpfsFileFtruncate env appends fileSize
  | .setPerm perm => gdpfsFileSetPerm env appends perm

/-- The bytes that an update writes. -/
def buf : Update → List UInt8
  | .write buf _ => buf
  | .ftruncate _ => []
  | .setPerm _ => []

/-- Where an update writes its bytes. -/
def offset : Update → Nat
  | .write _ offset => offset
  | .ftruncate _ => 0
  | .setPerm _ => 0

/-- The information that an update leaves. -/
def info (info : FileInfo) : Update → FileInfo
  | .write buf offset =>
      { info with
        fileSize := max info.fileSize (size64 (offset + buf.length)) }
  | .ftruncate _ => { info with fileSize := 0 }
  | .setPerm perm => { info with filePerm := perm }

end Update

/-- The file after an update, but for its index. -/
def World.updated
    (world : World)
    (env : Env)
    (appends : Bool)
    (update : Update) : World :=
  (world.withInfo (update.info world.info)).written env appends update.buf
    update.offset (update.info world.info)

theorem allows_update (update : Update) :
    Allows (update.run env appends)
      (fun _ next => ∃ figtree heap,
        Indexed env world update.offset update.buf.length
          (world.file.lastRecno + 1) figtree heap ∧
        next = (world.updated env appends update).withIndex figtree heap)
      world := by
  cases update with
  | write buf offset =>
      rw [Update.run, gdpfsFileWrite, bind_assoc,
        allows_run_bind (run_getInfoRaw _), bind_assoc,
        allows_run_bind (run_modifyFile _ _)]
      refine (allows_doWrite _ _ _).bind ?_
      intro _ _ holds
      exact allows_pure.mpr holds
  | ftruncate fileSize =>
      rw [Update.run, gdpfsFileFtruncate, bind_assoc,
        allows_run_bind (run_getInfoRaw _), bind_assoc,
        allows_run_bind (run_modifyFile _ _)]
      refine (allows_doWrite _ _ _).bind ?_
      intro _ _ holds
      exact allows_pure.mpr holds
  | setPerm perm =>
      rw [Update.run, gdpfsFileSetPerm,
        allows_run_bind (run_getInfoRaw _),
        allows_run_bind (run_modifyFile _ _)]
      refine (allows_doWrite _ _ _).bind ?_
      intro _ _ holds
      exact allows_pure.mpr holds

/-! ## Reading and building the index -/

/-- Nothing but the index and the cache has changed. -/
def Quiet (world next : World) : Prop :=
  next.file = { world.file with figtree := next.file.figtree } ∧
    next.log = world.log

theorem Quiet.refl (world : World) : Quiet world world :=
  ⟨rfl, rfl⟩

theorem Quiet.trans
    {first second third : World}
    (before : Quiet first second)
    (after : Quiet second third) :
    Quiet first third := by
  obtain ⟨sameFile, sameLog⟩ := before
  obtain ⟨sameFile', sameLog'⟩ := after
  refine ⟨?_, sameLog'.trans sameLog⟩
  rw [sameFile', sameFile]

/-- Quiet actions one after the other. -/
theorem Quiet.bind
    {action : FileM α}
    {rest : α → FileM β}
    (first : Allows action (fun _ next => Quiet world next) world)
    (second : ∀ value next,
      Allows (rest value) (fun _ after => Quiet next after) next) :
    Allows (action >>= rest) (fun _ after => Quiet world after) world := by
  refine first.bind fun value next quiet => ?_
  exact (second value next).mono fun _ after more => quiet.trans more

theorem quiet_onTree (action : FigM α) (world : World) :
    Allows (onTree action) (fun _ next => Quiet world next) world := by
  refine (allows_onTree action).mono ?_
  rintro _ _ ⟨heap, _, rfl⟩
  exact ⟨rfl, rfl⟩

theorem quiet_fillCache
    (env : Env)
    (buf : List UInt8)
    (offset : Nat)
    (world : World) :
    Allows (gdpfsFileFillCache env buf offset)
      (fun _ next => Quiet world next) world := by
  rw [allows_of_run (run_gdpfsFileFillCache _ _ _ _)]
  exact ⟨rfl, rfl⟩

theorem quiet_bufferWrite
    (buf : List UInt8)
    (position : Int)
    (bytes : List UInt8)
    (world : World) :
    Allows (bufferWrite buf position bytes)
      (fun _ next => Quiet world next) world := by
  unfold bufferWrite
  split
  · exact allows_pure.mpr (Quiet.refl world)
  · exact allows_throw

theorem quiet_readBytes (ent : LogEnt) (size : Nat) (world : World) :
    Allows (readBytes ent size) (fun _ next => Quiet world next) world := by
  unfold readBytes
  split
  · exact allows_pure.mpr (Quiet.refl world)
  · exact allows_throw

theorem quiet_readFig
    (env : Env)
    (offset : Nat)
    (fig : FtEnt)
    (buf : List UInt8)
    (world : World) :
    Allows (readFig env offset fig buf) (fun _ next => Quiet world next)
      world := by
  rw [readFig, allows_bind, allows_get]
  dsimp only
  split
  · split
    · exact allows_throw
    · exact quiet_bufferWrite _ _ _ _
  · split
    · split
      · exact allows_throw
      · split
        · exact allows_throw
        · refine Quiet.bind (quiet_readBytes _ _ _) fun bytes next => ?_
          split
          · exact quiet_bufferWrite _ _ _ _
          · exact allows_throw
    · exact allows_throw

theorem quiet_readFigs
    (env : Env)
    (offset fuel : Nat)
    (iter : FigtreeIter)
    (buf : List UInt8)
    (world : World) :
    Allows (readFigs env offset fuel iter buf)
      (fun _ next => Quiet world next) world := by
  induction fuel generalizing iter buf world with
  | zero => exact allows_throw
  | succ fuel inductionHypothesis =>
      rw [readFigs, allows_bind, allows_get]
      refine Quiet.bind (quiet_onTree _ _) fun found next => ?_
      obtain ⟨found, iter'⟩ := found
      cases found with
      | none => exact allows_pure.mpr (Quiet.refl next)
      | some fig =>
          exact Quiet.bind (quiet_readFig _ _ _ _ _)
            fun buf after => inductionHypothesis _ buf after

theorem quiet_readIndex (env : Env) (size offset : Nat) (world : World) :
    Allows (readIndex env size offset) (fun _ next => Quiet world next)
      world := by
  rw [readIndex, allows_bind, allows_get]
  split
  · exact allows_throw
  · exact Quiet.bind (quiet_onTree _ _)
      fun iter next => quiet_readFigs _ _ _ iter _ next

/-- A read loads the information of the file and changes nothing else. -/
theorem allows_doRead (env : Env) (size offset : Nat) (world : World) :
    Allows (doRead env size offset)
      (fun _ next => Quiet (world.withInfo world.info) next) world := by
  rw [doRead, allows_run_bind (run_getInfoRaw _)]
  split
  · exact allows_pure.mpr (Quiet.refl _)
  · rw [allows_bind, allows_get]
    split
    · exact allows_pure.mpr (Quiet.refl _)
    · split
      · refine Quiet.bind (quiet_readIndex _ _ _ _) fun buf next => ?_
        refine Quiet.bind (quiet_fillCache _ _ _ _) fun _ after => ?_
        exact allows_pure.mpr (Quiet.refl after)
      · exact allows_pure.mpr (Quiet.refl _)

theorem quiet_populateCache
    (env : Env)
    (fuel : Nat)
    (buf : List UInt8)
    (offset : Nat)
    (world : World) :
    Allows (populateCache env fuel buf offset)
      (fun _ next => Quiet world next) world := by
  induction fuel generalizing buf offset world with
  | zero => exact allows_pure.mpr (Quiet.refl world)
  | succ fuel inductionHypothesis =>
      rw [populateCache]
      split
      · exact allows_pure.mpr (Quiet.refl world)
      · refine Quiet.bind (quiet_fillCache _ _ _ _) fun ok next => ?_
        split
        · exact inductionHypothesis _ _ next
        · exact allows_throw

theorem quiet_replayRecord
    (env : Env)
    (recno : Nat)
    (datum : LogRecord)
    (world : World) :
    Allows (replayRecord env recno datum) (fun _ next => Quiet world next)
      world := by
  unfold replayRecord
  split
  · next nonempty =>
      refine Quiet.bind ?_ fun _ next => ?_
      · refine (allows_indexWrite _ _ nonempty).mono ?_
        rintro _ _ ⟨figtree, heap, _, rfl⟩
        exact ⟨rfl, rfl⟩
      · exact Quiet.bind (quiet_readBytes _ _ _)
          fun buf after => quiet_populateCache _ _ buf _ after
  · exact allows_pure.mpr (Quiet.refl world)

theorem quiet_replay
    (env : Env)
    (ents : List (Nat × LogRecord))
    (world : World) :
    Allows (forM ents fun ent => replayRecord env ent.1 ent.2)
      (fun _ next => Quiet world next) world := by
  induction ents generalizing world with
  | nil => exact allows_pure.mpr (Quiet.refl world)
  | cons ent ents inductionHypothesis =>
      rw [List.forM_cons]
      exact Quiet.bind (quiet_replayRecord _ _ _ _)
        fun _ next => inductionHypothesis next

theorem allows_scanBack
    (log : List LogRecord)
    (recno : Nat)
    (ents : List (Nat × LogRecord))
    (world : World) :
    Allows (scanBack log recno ents) (fun _ next => next = world) world := by
  induction recno generalizing ents with
  | zero => exact allows_pure.mpr rfl
  | succ recno inductionHypothesis =>
      rw [scanBack]
      split
      · exact allows_throw
      · split
        · exact allows_throw
        · split
          · exact allows_pure.mpr rfl
          · exact inductionHypothesis _

/-- Building the index counts the records of the log. -/
theorem allows_buildIndex (env : Env) (world : World) :
    Allows (buildIndex env)
      (fun _ next =>
        next.file = { world.file with
          lastRecno := world.log.length
          figtree := next.file.figtree
          figtreeInitialized := true } ∧
        next.log = world.log) world := by
  rw [buildIndex, allows_bind, allows_get]
  dsimp only
  split
  · exact allows_throw
  · rw [allows_run_bind (run_modifyFile _ _)]
    refine (allows_scanBack _ _ _ _).bind ?_
    rintro ⟨recno, ents⟩ _ rfl
    refine (allows_onTree _).bind ?_
    rintro this _ ⟨heap, _, rfl⟩
    rw [allows_run_bind (run_modifyFile _ _)]
    refine (quiet_replay env ents _).bind ?_
    rintro _ next ⟨sameFile, sameLog⟩
    rw [allows_of_run (run_modifyFile _ _)]
    refine ⟨?_, sameLog⟩
    dsimp only
    rw [sameFile]

theorem allows_openIndex
    (env : Env)
    (strictInit : Bool)
    (world : World) :
    Allows (openIndex env strictInit)
      (fun _ next =>
        next.file = { world.file with
          lastRecno := if strictInit then 1
            else if world.file.figtreeInitialized then world.file.lastRecno
            else world.log.length
          figtree := next.file.figtree
          figtreeInitialized := true } ∧
        next.log = world.log) world := by
  rw [openIndex, allows_bind, allows_get]
  cases strictInit with
  | true =>
      rw [if_pos rfl]
      refine (allows_onTree _).bind ?_
      rintro this _ ⟨heap, _, rfl⟩
      rw [allows_of_run (run_modifyFile _ _)]
      exact ⟨rfl, rfl⟩
  | false =>
      simp only [Bool.false_eq_true, if_false]
      by_cases initialized : world.file.figtreeInitialized = true
      · rw [if_pos initialized, allows_pure, if_pos initialized,
          ← initialized]
        exact ⟨rfl, rfl⟩
      · rw [if_neg initialized, if_neg initialized]
        exact allows_buildIndex env world

/-- Without bytes to write, `do_write` does not touch the index. -/
theorem allows_doWrite_empty (info : FileInfo) :
    Allows (doWrite env appends [] 0 info)
      (fun _ next => next = world.written env appends [] 0 info) world := by
  refine (allows_doWrite [] 0 info).mono ?_
  rintro _ _ ⟨figtree, heap, indexed, rfl⟩
  obtain ⟨rfl, rfl⟩ : figtree = world.file.figtree ∧ heap = world.heap := by
    simpa [Indexed] using indexed
  rfl

/-- `open_file` leaves the file alone, loads its information, or initializes a
new file. -/
theorem allows_openType
    (type : FileType)
    (perm : Nat)
    (init strictInit : Bool) :
    Allows (openType env appends type perm init strictInit)
      (fun ok next =>
        type = .unknown ∧ next = world ∨
        next = world.withInfo world.info ∧
          (init = true → strictInit = true → ok = false) ∨
        next = (world.withInfo ⟨0, type, perm⟩).written env appends [] 0
          ⟨0, type, perm⟩) world := by
  unfold openType
  split
  · next unknown => exact allows_pure.mpr (Or.inl ⟨unknown, rfl⟩)
  · rw [allows_run_bind (run_getInfoRaw _)]
    split
    · split
      · rw [allows_run_bind (run_modifyFile _ _)]
        refine (allows_doWrite_empty _).bind ?_
        rintro _ _ rfl
        exact allows_pure.mpr (Or.inr (Or.inr rfl))
      · refine allows_pure.mpr (Or.inr (Or.inl ⟨rfl, fun _ strict => ?_⟩))
        simp [strict]
    · next noInit =>
        exact allows_pure.mpr (Or.inr (Or.inl
          ⟨rfl, fun isInit => absurd isInit noInit⟩))

/-! ## Checkpoints -/

/-- The file after a checkpoint of the given nodes, but for its index. -/
def World.checkpointed (world : World) (chkpt : List FtNode) : World :=
  { world.withInfo world.info with
    file := { (world.withInfo world.info).file with
      lastRecno := world.file.lastRecno + 1
      indexFlushReqs := world.file.indexFlushReqs +
        if 0 < chkpt.length then 1 else 0 }
    log :=
      if 0 < chkpt.length then
        world.log ++
          [chkptRecord (dataRecord world.info [] 0).header chkpt]
      else world.log }

/-- The nodes of a checkpoint are the dirty ones, if there is an index. -/
def Collected
    (world : World)
    (chkpt : List FtNode)
    (heap : Heap) : Prop :=
  world.file.figtree = none ∧ chkpt = [] ∧ heap = world.heap ∨
    ∃ this, world.file.figtree = some this ∧
      (getDirty this (world.file.lastRecno + 1)).run world.heap =
        .ok (chkpt, heap)

theorem allows_collectDirty (world : World) :
    Allows collectDirty
      (fun chkpt next => ∃ heap, Collected world chkpt heap ∧
        next = { world with
          file := { world.file with lastRecno := world.file.lastRecno + 1 }
          heap := heap }) world := by
  rw [collectDirty, allows_run_bind (run_modifyFile _ _), allows_bind,
    allows_get]
  dsimp only
  cases isTree : world.file.figtree with
  | none =>
      exact allows_pure.mpr
        ⟨world.heap, Or.inl ⟨isTree, rfl, rfl⟩, by rw [← isTree]⟩
  | some this =>
      refine (allows_onTree _).mono ?_
      rintro chkpt _ ⟨heap, run, rfl⟩
      exact ⟨heap, Or.inr ⟨this, isTree, run⟩, by rw [← isTree]⟩

theorem allows_fileChkpt (world : World) :
    Allows (fileChkpt env appends)
      (fun chkpt next => ∃ heap, Collected world chkpt heap ∧
        (0 < chkpt.length → env.takes appends = true) ∧
        next = { world.checkpointed chkpt with heap := heap }) world := by
  rw [fileChkpt, allows_run_bind (run_getInfoRaw _)]
  refine (allows_collectDirty _).bind ?_
  rintro chkpt _ ⟨heap, collected, rfl⟩
  by_cases nonempty : 0 < chkpt.length
  · rw [if_pos nonempty, allows_run_bind (run_modifyFile _ _),
      allows_run_bind (run_gdpfsLogAppend _ _ _ _)]
    cases takes : env.takes appends with
    | false => exact allows_throw
    | true =>
        rw [if_pos rfl, allows_pure]
        refine ⟨heap, collected, fun _ => rfl, ?_⟩
        simp only [World.append, World.checkpointed, if_pos nonempty, if_true]
        rfl
  · rw [if_neg nonempty, allows_pure]
    refine ⟨heap, collected, fun isPositive => absurd isPositive nonempty, ?_⟩
    simp only [World.checkpointed, if_neg nonempty]
    rfl

end Steps

end File
end Gdpfs
