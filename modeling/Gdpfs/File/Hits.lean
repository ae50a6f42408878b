import Gdpfs.File.Mirror
import Gdpfs.File.Turns

/-!
# Cache hits

A file that is opened from its log has a cache file with holes.  A hit returns
what a read through the index would return as long as no fill makes the file
system allocate a block with bytes that are in the log and not in the cache.
-/

namespace Gdpfs
namespace File

open Log FigTree Effect
open Cells (Owns Holds cell Store)

/-- The part of `do_read` after a cache miss. -/
def readMissed (env : Env) (size offset : Nat) : FileM (List UInt8) :=
  if 0 < size then readIndex env size offset else pure []

/-! ## Writes and reads -/

/-- A write, with the callback of its append, or a read that keeps the cache
right: it stays below the last byte index; a write meets no child of the index
that is not in memory; and what is filled into the cache fits. -/
def OpFits (env : Env) : FileOp → World → Prop
  | .update (.write buf offset), world =>
      env.takes true = true ∧ offset + buf.length ≤ byteIndexMax ∧
        world.WayLoaded env ⟨buf, offset, world.info⟩ ∧
        FillFits env.block world.log world.cache offset buf.length
  | .read size offset, world =>
      ∀ count, readSize world.info.fileSize size offset = some count →
        getCache env world.file.newFile world.cache count offset = none →
        offset + count ≤ byteIndexMax ∧
          FillFits env.block world.log world.cache offset count
  | .appended, _ => True
  | _, _ => False

section Ops

variable {env : Env} {world next : World} {size offset : Nat}
  {buf : List UInt8}

/-- A write that fits keeps a file in step. -/
theorem InStep.allows_write
    (inStep : InStep env world)
    (enabled : env.useCache = true)
    (fits : OpFits env (.update (.write buf offset)) world) :
    Allows (FileOp.run env true (.update (.write buf offset)))
      (fun _ next => InStep env next ∧
        next.file.newFile = world.file.newFile) world := by
  obtain ⟨takes, below, way, fits⟩ := fits
  refine Allows.and ?_ ((allows_update (.write buf offset)).mono ?_)
  · rw [FileOp.run, Update.run, gdpfsFileWrite, bind_assoc,
      allows_run_bind (run_getInfoRaw _), bind_assoc,
      allows_run_bind (run_modifyFile _ _)]
    have inStep' := inStep.withInfo ((Update.write buf offset).info world.info)
    refine (inStep'.ensures_doWrite enabled takes fits below way
      _).allows.bind ?_
    exact fun _ _ kept => allows_pure.mpr kept.1
  · rintro _ next ⟨figtree, heap, _, rfl⟩
    rfl

/-- A read that fits keeps a file in step. -/
theorem InStep.allows_read
    (inStep : InStep env world)
    (enabled : env.useCache = true)
    (fits : OpFits env (.read size offset) world) :
    Allows (FileOp.run env true (.read size offset))
      (fun _ next => InStep env next ∧
        next.file.newFile = world.file.newFile) world := by
  have quiet : Allows (FileOp.run env true (.read size offset))
      (fun _ next => next.file.newFile = world.file.newFile) world := by
    refine (allows_doRead env size offset world).bind ?_
    rintro _ next ⟨isFile, _⟩
    rw [allows_pure, isFile]
    rfl
  refine Allows.and ?_ quiet
  have inStep' := inStep.withInfo world.info
  rw [FileOp.run, doRead, bind_assoc, allows_run_bind (run_getInfoRaw _)]
  cases isCount : readSize world.info.fileSize size offset with
  | none => exact allows_pure.mpr inStep'
  | some count =>
      dsimp only
      rw [bind_assoc, allows_bind, allows_get]
      have same : getCache env (world.withInfo world.info).file.newFile
          (world.withInfo world.info).cache count offset =
          getCache env world.file.newFile world.cache count offset := rfl
      rw [same]
      cases found : getCache env world.file.newFile world.cache count
          offset with
      | some bytes => exact allows_pure.mpr inStep'
      | none =>
          obtain ⟨below, fill⟩ := fits count isCount found
          dsimp only
          by_cases nonempty : 0 < count
          · rw [if_pos nonempty, bind_assoc]
            refine (inStep'.ensures_readIndex nonempty below).allows.bind ?_
            rintro _ next ⟨rfl, isNext, inStep''⟩
            rw [bind_assoc, allows_run_bind (run_gdpfsFileFillCache _ _ _ _)]
            have isLog : (world.withInfo world.info).log = next.log := by
              rw [isNext]
            have isCache : world.cache = next.cache := by
              rw [isNext]
              rfl
            rw [isLog]
            rw [isCache, show world.log = next.log from isLog] at fill
            exact allows_pure.mpr (inStep''.fillCache enabled fill below)
          · rw [if_neg nonempty]
            exact allows_pure.mpr inStep'

/-- A step that fits keeps a file in step. -/
theorem InStep.allows_op
    {op : FileOp}
    (inStep : InStep env world)
    (enabled : env.useCache = true)
    (fits : OpFits env op world) :
    Allows (FileOp.run env true op)
      (fun _ next => InStep env next ∧
        next.file.newFile = world.file.newFile) world := by
  cases op with
  | update change =>
      cases change with
      | write buf offset => exact inStep.allows_write enabled fits
      | ftruncate fileSize => exact fits.elim
      | setPerm perm => exact fits.elim
  | read size offset => exact inStep.allows_read enabled fits
  | opens call => exact fits.elim
  | setInfo info => exact fits.elim
  | chkpt => exact fits.elim
  | close => exact fits.elim
  | appended =>
      rw [FileOp.run, allows_of_run (run_modifyFile _ _)]
      exact ⟨inStep.withFile rfl rfl, rfl⟩
  | release => exact fits.elim

end Ops

/-! ## Opening a file -/

/-- The last checkpoint of a log, if there is one, stores an index that names
the last record up to it of every byte. -/
def ChkptIndexes (log : List LogRecord) : Prop :=
  lastChkpt log = 0 ∨
    ∃ header nodes h, ∃ tree : Tree (h + 1),
      recordAt log (lastChkpt log) = some (chkptRecord header nodes) ∧
      0 < nodes.length ∧
      Rep log (h + 1)
        (.log (lastChkpt log, (nodes.length - 1) * sizeofFtNode)) tree 0 ∧
      Fig.Sound partlyLoaded ⟨h, tree⟩ ∧
      ∀ x, x < byteIndexMax → look (h + 1) tree x =
        (latestRecno (log.take (lastChkpt log)) x).map Int.ofNat

/-- A log from which a file can be opened. -/
structure Openable (log : List LogRecord) : Prop where
  written : ∀ datum ∈ log, Written datum
  data : ∀ datum ∈ afterChkpt log, ∃ contents origin,
    IsData datum contents origin ∧ origin + contents.length ≤ byteIndexMax
  index : ChkptIndexes log

/-- Replaying a record keeps the cache right: the record meets no child of the
index that is not in memory, and what is copied into the cache fits. -/
def RecordFits
    (env : Env)
    (ent : Nat × LogRecord)
    (world : World) : Prop :=
  ∀ contents origin, IsData ent.2 contents origin →
    world.WayLoaded env ⟨contents, origin, infoOf ent.2.header⟩ ∧
      FillFits env.block (world.log.take (ent.1 - 1)) world.cache origin
        contents.length

/-- Each record fits when it is replayed. -/
def ReplaysFit
    (env : Env)
    (ents : List (Nat × LogRecord))
    (world : World) : Prop :=
  ∀ before ent after, ents = before ++ ent :: after →
    Allows (forM before fun ent => replayRecord env ent.1 ent.2)
      (fun _ next => RecordFits env ent next) world

/-- The part of `open_file` that loads the root of the index. -/
def loadRoot : FileM Unit := do
  let log := (← get).log
  let this ← onTree (if lastChkpt log = 0 then ftInit
    else openRoot log (lastChkpt log))
  modifyFile fun file => { file with figtree := some this }

/-- The records that are replayed when the file is opened fit. -/
def OpenFits (env : Env) (world : World) : Prop :=
  ∀ file, Allows loadRoot
    (fun _ next => ReplaysFit env (collected world.log) next)
    { world with file := file }

section Open

variable {env : Env} {world start : World} {this : Figtree} {fig : Fig}
  {done rest : List LogRecord}

/-- The index and the cache while records are replayed. -/
structure Replaying
    (env : Env)
    (done rest : List LogRecord)
    (world : World)
    (this : Figtree)
    (fig : Fig) : Prop where
  isLog : world.log = done ++ rest
  isTree : world.file.figtree = some this
  sound : fig.Sound partlyLoaded
  holds : Holds (FigRep (env.fetchable world.log) fig this) 0 world.heap
  latest : ∀ x, x < byteIndexMax →
    fig.look x = (latestRecno done x).map Int.ofNat
  mirrors : Mirrors env.block world.log rest world.cache

theorem Replaying.ensures_replayRecord
    (enabled : env.useCache = true)
    (positive : 0 < env.block)
    (replaying : Replaying env done (datum :: rest) world this fig)
    (data : IsData datum contents origin)
    (below : origin + contents.length ≤ byteIndexMax)
    (fits : RecordFits env (done.length + 1, datum) world) :
    Ensures (replayRecord env (done.length + 1) datum)
      (fun _ next => Quiet world next ∧ ∃ this' fig',
        Replaying env (done ++ [datum]) rest next this' fig') world := by
  obtain ⟨way, fill⟩ := fits contents origin data
  have covered : ∀ x, covers datum x = true ↔
      origin ≤ x ∧ x < origin + contents.length :=
    fun x => covers_eq data.payload data.place
  refine (ensures_replayRecord_index enabled replaying.isTree replaying.sound
    replaying.holds replaying.latest le_rfl data below
    (way this fig replaying.isTree replaying.sound replaying.holds)).mono ?_
  rintro _ _ ⟨this', fig', heap, rfl, sound', holds', latest'⟩
  have isLog := replaying.isLog
  refine ⟨⟨rfl, rfl⟩, this', fig', ?_, rfl, sound', holds', latest', ?_⟩
  · rw [List.append_assoc]
    exact isLog
  · have records : world.log.take (done.length + 1 - 1) = done := by
      rw [isLog, Nat.add_sub_cancel, List.take_left]
    rw [records] at fill
    have uncovered : ∀ x, ¬(origin ≤ x ∧ x < origin + contents.length) →
        Uncovered rest x → Uncovered (datum :: rest) x := by
      intro x within settled other member
      rcases List.mem_cons.mp member with rfl | inRest
      · exact Bool.eq_false_iff.mpr (mt (covered x).mp within)
      · exact settled other inRest
    refine replaying.mirrors.filled
      (filled_populate positive le_rfl world.cache origin) fill below ?_
      (fun x within settled => ⟨uncovered x within settled, rfl⟩) ?_
    · intro x within settled
      rw [isLog, ← List.singleton_append, ← List.append_assoc,
        content_append_uncovered settled, content_append,
        if_pos ((covered x).mpr within),
        byteOf_eq data.payload data.place within.1]
    · intro x within settled none
      refine content_of_uncovered fun other member => ?_
      rw [isLog] at member
      rcases List.mem_append.mp member with inDone | inRest
      · exact none other inDone
      · exact uncovered x within settled other inRest

/-- Replaying records that fit. -/
theorem Replaying.ensures_replay
    (enabled : env.useCache = true)
    (positive : 0 < env.block)
    (replaying : Replaying env done rest world this fig)
    (data : ∀ datum ∈ rest, ∃ contents origin, IsData datum contents origin ∧
      origin + contents.length ≤ byteIndexMax)
    (fits : ReplaysFit env (numbered (done.length + 1) rest) world) :
    Ensures (forM (numbered (done.length + 1) rest) fun ent =>
        replayRecord env ent.1 ent.2)
      (fun _ next => Quiet world next ∧ ∃ this' fig',
        Replaying env (done ++ rest) [] next this' fig') world := by
  induction rest generalizing done world this fig with
  | nil =>
      refine ensures_pure.mpr ⟨Quiet.refl world, this, fig, ?_⟩
      rwa [List.append_nil]
  | cons datum rest inductionHypothesis =>
      obtain ⟨contents, origin, isData, below⟩ :=
        data datum List.mem_cons_self
      have first := allows_pure.mp (fits [] (done.length + 1, datum) _ rfl)
      obtain ⟨_, next, run, quiet, this', fig', replaying'⟩ :=
        replaying.ensures_replayRecord enabled positive isData below first
      rw [numbered, List.forM_cons, ensures_run_bind run]
      have others := inductionHypothesis replaying'
        (fun other member => data other (List.mem_cons_of_mem _ member)) ?_
      · rw [List.length_append, List.length_singleton,
          List.append_assoc] at others
        exact others.mono fun _ last kept =>
          ⟨quiet.trans kept.1, kept.2⟩
      · intro before ent after split
        rw [List.length_append, List.length_singleton] at split
        have later := fits ((done.length + 1, datum) :: before) ent after
          (by rw [numbered, split]; rfl)
        rwa [List.forM_cons, allows_run_bind run] at later

/-- The root of the index that is loaded. -/
theorem ensures_root
    {log : List LogRecord}
    (index : ChkptIndexes log)
    (heap : Heap) :
    Ensures (if lastChkpt log = 0 then ftInit
        else openRoot log (lastChkpt log))
      (fun this next => ∃ fig : Fig, fig.Sound partlyLoaded ∧
        Holds (FigRep log fig this) 0 next ∧
        ∀ x, x < byteIndexMax → fig.look x =
          (latestRecno (log.take (lastChkpt log)) x).map Int.ofNat)
      heap := by
  rcases index with isZero | ⟨header, nodes, h, tree, filed, nonempty, rep,
    sound, latest⟩
  · rw [isZero, if_pos rfl]
    refine ((@ensures_ftInit log) (Owns.nothing heap)).mono ?_
    exact fun this next holds => ⟨Fig.empty, Fig.empty_sound _, holds,
      fun _ _ => rfl⟩
  · have nonzero : lastChkpt log ≠ 0 := by
      intro isZero
      rw [isZero] at filed
      cases filed
    rw [if_neg nonzero]
    refine (ensures_openRoot filed rep nonempty (Owns.nothing heap)).mono ?_
    exact fun this next holds => ⟨⟨h, tree⟩, sound, holds, latest⟩

theorem run_loadRoot
    {file : GdpfsFile}
    {log : List LogRecord}
    {cache : CacheFile}
    {heap next : Heap}
    (run : (if lastChkpt log = 0 then ftInit
      else openRoot log (lastChkpt log)).run heap = .ok (this, next)) :
    loadRoot.run ⟨file, heap, log, cache⟩ =
      .ok ((), ⟨{ file with figtree := some this }, next, log, cache⟩) := by
  rw [loadRoot, run_get_bind]
  dsimp only
  rw [run_bind_of_run (run_onTree run)]
  rfl

/-- Building the index of a log keeps the cache right. -/
theorem allows_buildIndex_inStep
    (enabled : env.useCache = true)
    (positive : 0 < env.block)
    (openable : Openable world.log)
    (mirrors : Mirrors env.block world.log [] world.cache)
    (fits : OpenFits env world) :
    Allows (buildIndex env)
      (fun _ next => InStep env next ∧
        next.file.newFile = world.file.newFile) world := by
  rw [buildIndex, allows_bind, allows_get]
  dsimp only
  split
  · exact allows_throw
  · rw [allows_run_bind (run_modifyFile _ _)]
    refine (allows_scanBack_collected _ _ _ _ ?_).bind ?_
    · exact fun _ impossible => absurd impossible List.not_mem_nil
    rintro _ _ ⟨rfl, rfl, _⟩
    rw [List.take_length, List.append_nil]
    dsimp only
    obtain ⟨this, heap, run, fig, sound, holds, latest⟩ :=
      ensures_root openable.index world.heap
    rw [allows_run_bind (run_onTree run),
      allows_run_bind (run_modifyFile _ _)]
    have fits' := fits { world.file with lastRecno := world.log.length } () _
      (run_loadRoot run)
    have split : world.log = world.log.take (lastChkpt world.log) ++
        afterChkpt world.log := (List.take_append_drop _ _).symm
    have length : (world.log.take (lastChkpt world.log)).length =
        lastChkpt world.log :=
      List.length_take_of_le (lastChkpt_le world.log)
    rw [collected, ← length] at fits' ⊢
    have fetches : env.fetchable world.log = world.log :=
      Env.fetchable_of_cacheDir (Env.cacheDir_of_useCache enabled)
    rw [← fetches] at holds
    have replaying : Replaying env _ _ (World.mk
        { world.file with lastRecno := world.log.length, figtree := some this }
        heap world.log world.cache) this fig :=
      ⟨split, rfl, sound, holds, latest, mirrors.weaken _⟩
    refine (replaying.ensures_replay enabled positive openable.data
      fits').allows.bind ?_
    rintro _ next ⟨⟨isFile, isLog⟩, this', fig', replayed⟩
    rw [allows_of_run (run_modifyFile _ _)]
    have whole := replayed.isLog
    rw [List.append_nil] at whole
    refine ⟨⟨⟨this', fig', replayed.isTree, replayed.sound, replayed.holds,
      ?_, ?_, ?_⟩, replayed.mirrors⟩, ?_⟩
    · dsimp only
      rw [whole]
      exact replayed.latest
    · dsimp only
      rw [isLog]
      exact openable.written
    · dsimp only
      rw [isFile, isLog]
    · dsimp only
      rw [isFile]

/-- A file that is opened from its log is in step. -/
theorem allows_openFile_inStep
    (enabled : env.useCache = true)
    (positive : 0 < env.block)
    (fresh : start.file = GdpfsFile.zero)
    (openable : Openable start.log)
    (mirrors : Mirrors env.block start.log [] start.cache)
    (fits : OpenFits env start)
    (appends : Bool)
    (type : FileType)
    (perm : Nat) :
    Allows (openFile env appends type perm false false)
      (fun ok next => ok = true →
        InStep env next ∧ next.file.newFile = false) start := by
  rw [openFile, allows_run_bind (run_modifyFile _ _),
    allows_run_bind (run_modifyFile _ _), allows_run_bind (run_openType _ _)]
  split
  · generalize isMiddle : ite (type = .unknown) _ _ = middle
    have same : middle = { start with file := middle.file } ∧
        middle.file.figtreeInitialized = false ∧
        middle.file.newFile = false := by
      rw [← isMiddle, fresh]
      split
      · exact ⟨rfl, rfl, rfl⟩
      · exact ⟨rfl, rfl, rfl⟩
    obtain ⟨isStart, unbuilt, isOld⟩ := same
    rw [openIndex, bind_assoc, allows_bind, allows_get,
      if_neg Bool.false_ne_true, unbuilt, if_neg Bool.false_ne_true]
    rw [isStart]
    refine (@allows_buildIndex_inStep env { start with file := middle.file }
      enabled positive openable mirrors fits).bind ?_
    rintro _ next ⟨inStep, isNew⟩
    exact allows_pure.mpr fun _ => ⟨inStep, isNew.trans isOld⟩
  · rw [allows_run_bind (run_modifyFile _ _), allows_pure]
    exact fun impossible => absurd impossible Bool.false_ne_true

end Open

/-! ## Hits -/

/-- In a file that was opened from its log, with an index that names the last
record of every byte, as long as every record that is replayed, every write and
every read fits, a cache hit returns what a read through the index returns. -/
theorem cache_hit_returns_content
    {env : Env}
    {start opened world : World}
    {bytes : List UInt8}
    (enabled : env.useCache = true)
    (positive : 0 < env.block)
    (fresh : start.file = GdpfsFile.zero)
    (openable : Openable start.log)
    (mirrors : Mirrors env.block start.log [] start.cache)
    (openFits : OpenFits env start)
    (opens : (openFile env true type perm false false).run start =
      .ok (true, opened))
    (reached : Reached (FileOp.run env true) (OpFits env) opened world)
    (hit : getCache env world.file.newFile world.cache size offset =
      some bytes) :
    Ensures (readMissed env size offset) (fun found _ => found = bytes)
      world := by
  have kept : InStep env world ∧ world.file.newFile = false := by
    refine Reached.invariant (fun world => InStep env world ∧
      world.file.newFile = false) ?_ ?_ reached
    · exact allows_openFile_inStep enabled positive fresh openable mirrors
        openFits true type perm true opened opens rfl
    · rintro op state fits ⟨inStep, isOld⟩
      refine (inStep.allows_op enabled fits).mono ?_
      exact fun _ next kept => ⟨kept.1, kept.2.trans isOld⟩
  obtain ⟨inStep, isOld⟩ := kept
  rw [isOld] at hit
  obtain ⟨rfl, below⟩ := inStep.mirrors.hit hit
  unfold readMissed
  split
  · next nonempty =>
      refine (inStep.ensures_readIndex nonempty (below nonempty)).mono ?_
      exact fun found _ kept => kept.1
  · next isEmpty =>
      obtain rfl : size = 0 := Nat.eq_zero_of_not_pos isEmpty
      exact ensures_pure.mpr rfl

/-- Whether a step goes through an index of a single node and fills the whole
cache file. -/
def fillsWhole (env : Env) : FileOp → World → Bool
  | .update (.write buf offset), world =>
      env.takes true && world.isShort && offset == 0 &&
        decide (world.cache.bytes.length ≤ buf.length) &&
        decide (buf.length < byteIndexMax)
  | .read size offset, world =>
      offset == 0 &&
        (readSize world.info.fileSize size offset).all fun count =>
          decide (world.cache.bytes.length ≤ count) &&
            decide (count < byteIndexMax)
  | _, _ => false

theorem opFits_of_fillsWhole
    {env : Env}
    {op : FileOp}
    {world : World}
    (whole : fillsWhole env op world = true) :
    OpFits env op world := by
  cases op with
  | update change =>
      cases change with
      | write buf offset =>
          simp only [fillsWhole, Bool.and_eq_true, beq_iff_eq,
            decide_eq_true_eq] at whole
          obtain ⟨⟨⟨⟨takes, short⟩, rfl⟩, covers⟩, below⟩ := whole
          refine ⟨takes, by omega, wayLoaded_of_isShort short ?_,
            fillFits_whole _ _ covers⟩
          dsimp only
          omega
      | ftruncate fileSize => cases whole
      | setPerm perm => cases whole
  | read size offset =>
      simp only [fillsWhole, Bool.and_eq_true, beq_iff_eq] at whole
      obtain ⟨rfl, covers⟩ := whole
      intro count isCount _
      rw [isCount, Option.all_some, Bool.and_eq_true, decide_eq_true_eq,
        decide_eq_true_eq] at covers
      exact ⟨by omega, fillFits_whole _ _ covers.1⟩
  | opens call => cases whole
  | setInfo info => cases whole
  | chkpt => cases whole
  | close => cases whole
  | appended => cases whole
  | release => cases whole

/-- A byte, and a checkpoint. -/
def chkptedLog : List LogRecord :=
  [dataRecord ⟨0, .regular, 420⟩ [] 0, dataRecord ⟨1, .regular, 420⟩ [7] 0,
    chkptRecord (dataRecord ⟨1, .regular, 420⟩ [] 0).header
      [leafNode false 0 2]]

example : logAfter chkptedByte = chkptedLog := by
  decide +kernel

theorem openable_chkptedLog : Openable chkptedLog := by
  refine ⟨?_, fun _ impossible => absurd impossible List.not_mem_nil, Or.inr
    ⟨_, _, 0, leafTree false 0 2, rfl, Nat.succ_pos 0,
      ⟨_, rfl, rfl, nodeRep_leafNode _ _ _ _⟩,
      sound_leafTree _ _ _ _ _ (by decide), fun x _ => ?_⟩⟩
  · simp only [chkptedLog, List.mem_cons, List.not_mem_nil, or_false,
      forall_eq_or_imp, forall_eq]
    exact ⟨written_dataRecord _ _ _, written_dataRecord _ _ _,
      written_chkptRecord _ _⟩
  · cases x with
    | zero => rfl
    | succ x =>
        have uncovered : Uncovered chkptedLog (x + 1) := by
          intro datum member
          simp only [chkptedLog, List.mem_cons, List.not_mem_nil,
            or_false] at member
          rcases member with rfl | rfl | rfl
          · rw [Bool.eq_false_iff, ne_eq, covers_dataRecord]
            exact fun inside => Nat.not_lt_zero _ inside.2
          · rw [Bool.eq_false_iff, ne_eq, covers_dataRecord]
            exact fun inside => absurd inside.2 (by simp)
          · rfl
        have found : latestRecno (chkptedLog.take (lastChkpt chkptedLog))
            (x + 1) = none := latestRecno_of_uncovered uncovered
        rw [found]
        exact lookIn_past le_rfl (Nat.succ_pos x)

/-- A byte is read from the log, and then written. -/
theorem cache_hit_returns_content_rewritten :
    ∃ opened world,
      (openFile cachedMount true .regular 0 false false).run
        (storedFile chkptedLog) = .ok (true, opened) ∧
      Reached (FileOp.run cachedMount true) (OpFits cachedMount) opened
        world ∧
      getCache cachedMount world.file.newFile world.cache 1 0 = some [8] ∧
      Ensures (readMissed cachedMount 1 0) (fun found _ => found = [8])
        world := by
  have ran : outcome (do
      let ok ← openFile cachedMount true .regular 0 false false
      let opened ← get
      pure (ok, (replay (FileOp.run cachedMount true) (fillsWhole cachedMount)
        [.read 1 0, .update (.write [8] 0)] opened).map fun world =>
          getCache cachedMount world.file.newFile world.cache 1 0))
      (storedFile chkptedLog) = some (true, some (some [8])) := by
    decide +kernel
  obtain ⟨ok, opened, opens, ran⟩ := ensures_bind.mp (ensures_of_outcome ran)
  obtain ⟨_, _, read, ran⟩ := ensures_bind.mp ran
  cases read
  rw [ensures_pure, Prod.mk.injEq, Option.map_eq_some_iff] at ran
  obtain ⟨rfl, world, replayed, hit⟩ := ran
  have reached := reached_of_replay
    (fun _ _ => opFits_of_fillsWhole) replayed
  refine ⟨opened, world, opens, reached, hit, ?_⟩
  refine cache_hit_returns_content rfl (by decide) rfl openable_chkptedLog
    (mirrors_empty _ _ _) ?_ opens reached hit
  rintro file _ next run before ent after split
  cases before <;> cases split

/-- A write to another part of a block turns the byte into a zero. -/
theorem cache_hit_hides_byte :
    outcome (do
      let _ ← openFile cachedMount true .regular 0 false false
      let _ ← gdpfsFileWrite cachedMount true [9] 100
      let world ← get
      let found ← readMissed cachedMount 1 0
      pure (getCache cachedMount world.file.newFile world.cache 1 0, found))
      (storedFile chkptedLog) = some (some [0], [7]) := by
  decide +kernel

end File
end Gdpfs
