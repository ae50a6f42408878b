import Gdpfs.File.Session
import Gdpfs.File.Uncached

/-!
# Opening a file that was closed

`open_file` takes the index from the last checkpoint and replays the records
after it.  On a log that holds the plain file this leaves an index and a cache
that are faithful to the log, whatever was in the cache before.
-/

namespace Gdpfs
namespace File

open Log FigTree Effect
open Cells (Owns Holds cell Store)

/-! ## Building the index -/

/-- An index of some of the records of a log. -/
structure Indexes
    (env : Env)
    (log done : List LogRecord)
    (world : World)
    (this : Figtree)
    (fig : Fig) : Prop where
  isLog : world.log = log
  isTree : world.file.figtree = some this
  sound : fig.Sound (partlyStored log)
  holds : Holds (FigRep (env.fetchable log) fig this) 0 world.heap
  latest : ∀ x, x < byteIndexMax →
    fig.look x = (latestRecno done x).map Int.ofNat

section Build

variable {env : Env} {world : World} {this : Figtree} {fig : Fig}
  {log done rest : List LogRecord} {datum : LogRecord}

theorem Indexes.ensures_replayRecord
    (enabled : env.useCache = true)
    (indexes : Indexes env log done world this fig)
    (data : IsData datum contents origin)
    (below : origin + contents.length ≤ byteIndexMax)
    (fits : RecordFits env (done.length + 1, datum) world) :
    Ensures (replayRecord env (done.length + 1) datum)
      (fun _ next => ∃ this' fig',
        Indexes env log (done ++ [datum]) next this' fig') world := by
  obtain ⟨rfl, isTree, sound, holds, latest⟩ := indexes
  have loaded : fig.Sound partlyLoaded :=
    (@Sound.weaken (partlyStored world.log) partlyLoaded) rfl id
      (fun _ => trivial) sound
  have way := (fits contents origin data).1 this fig isTree loaded holds
  refine (ensures_replayRecord_index enabled isTree sound holds latest le_rfl
    data below way).mono ?_
  rintro _ _ ⟨this', fig', heap, rfl, sound', holds', latest'⟩
  exact ⟨this', fig', rfl, rfl, sound', holds', latest'⟩

/-- Replaying records that fit. -/
theorem Indexes.ensures_replay
    (enabled : env.useCache = true)
    (indexes : Indexes env log done world this fig)
    (data : ∀ datum ∈ rest, ∃ contents origin, IsData datum contents origin ∧
      origin + contents.length ≤ byteIndexMax)
    (fits : ReplaysFit env (numbered (done.length + 1) rest) world) :
    Ensures (forM (numbered (done.length + 1) rest) fun ent =>
        replayRecord env ent.1 ent.2)
      (fun _ next => ∃ this' fig',
        Indexes env log (done ++ rest) next this' fig') world := by
  induction rest generalizing done world this fig with
  | nil =>
      refine ensures_pure.mpr ⟨this, fig, ?_⟩
      rwa [List.append_nil]
  | cons datum rest inductionHypothesis =>
      obtain ⟨contents, origin, isData, below⟩ :=
        data datum List.mem_cons_self
      have first := allows_pure.mp (fits [] (done.length + 1, datum) _ rfl)
      obtain ⟨_, next, run, this', fig', indexes'⟩ :=
        indexes.ensures_replayRecord enabled isData below first
      rw [numbered, List.forM_cons, ensures_run_bind run]
      have others := inductionHypothesis indexes'
        (fun other member => data other (List.mem_cons_of_mem _ member)) ?_
      · rwa [List.length_append, List.length_singleton,
          List.append_assoc] at others
      · intro before ent after split
        rw [List.length_append, List.length_singleton] at split
        have later := fits ((done.length + 1, datum) :: before) ent after
          (by rw [numbered, split]; rfl)
        rwa [List.forM_cons, allows_run_bind run] at later

/-- Records without data name no bytes. -/
theorem latestRecno_of_empty
    (data : ∀ datum ∈ rest, ∃ contents origin, IsData datum contents origin ∧
      origin + contents.length ≤ byteIndexMax)
    (empty : ∀ datum ∈ rest, datum.header.entSize = 0)
    (x : Nat) :
    latestRecno (done ++ rest) x = latestRecno done x := by
  induction rest using List.reverseRecOn with
  | nil => rw [List.append_nil]
  | append_singleton rest datum inductionHypothesis =>
      obtain ⟨contents, origin, isData, _⟩ := data datum (by simp)
      have none : contents.length = 0 :=
        isData.size.symm.trans (empty datum (by simp))
      have uncovered : ∀ x, ¬covers datum x = true := by
        intro x covered
        have range := (covers_eq isData.payload isData.place).mp covered
        omega
      rw [← List.append_assoc, latestRecno_uncovered uncovered]
      exact inductionHypothesis
        (fun other member => data other (List.mem_append_left _ member))
        fun other member => empty other (List.mem_append_left _ member)

/-- The root of the last checkpoint, whose children stay in the log. -/
theorem ensures_root_stored
    (dir : env.cacheDir = true ∨ lastChkpt log = 0)
    (index : ChkptIndexes log)
    (filed : NodesFiled log)
    (heap : Heap) :
    Ensures (if lastChkpt log = 0 then ftInit
        else openRoot log (lastChkpt log))
      (fun this next => ∃ fig : Fig, fig.Sound (partlyStored log) ∧
        Holds (FigRep (env.fetchable log) fig this) 0 next ∧
        ∀ x, x < byteIndexMax → fig.look x =
          (latestRecno (log.take (lastChkpt log)) x).map Int.ofNat)
      heap := by
  rcases index with isZero | ⟨header, nodes, h, tree, isChkpt, nonempty, rep,
    _, latest⟩
  · rw [isZero, if_pos rfl]
    refine ((@ensures_ftInit (env.fetchable log)) (Owns.nothing heap)).mono ?_
    exact fun this next holds => ⟨Fig.empty, Fig.empty_sound _, holds,
      fun _ _ => rfl⟩
  · have nonzero : lastChkpt log ≠ 0 := by
      intro isZero
      rw [isZero] at isChkpt
      cases isChkpt
    rw [if_neg nonzero,
      Env.fetchable_of_cacheDir (dir.resolve_right nonzero)]
    refine (ensures_openRoot isChkpt rep nonempty (Owns.nothing heap)).mono ?_
    exact fun this next holds => ⟨⟨h, tree⟩, filed.sound rfl trivial rep,
      holds, latest⟩

/-- The nodes of the last checkpoint, if there is one, can be fetched, and there
is nothing to replay or every record that is replayed fits. -/
structure RebuildFits (env : Env) (world : World) : Prop where
  dir : env.cacheDir = true ∨ lastChkpt world.log = 0
  replay : NoData world.log ∨
    env.useCache = true ∧ 0 < env.block ∧ OpenFits env world

/-- Building the index of a log that holds a file. -/
theorem ensures_buildIndex_stored
    (nonempty : world.log ≠ [])
    (openable : Openable world.log)
    (filed : NodesFiled world.log)
    (fits : RebuildFits env world) :
    Ensures (buildIndex env)
      (fun _ next =>
        (∃ this fig, Indexes env world.log world.log next this fig) ∧
          (NoData world.log → next.cache = world.cache)) world := by
  have sized : ∀ datum ∈ world.log,
      datum.header.entSize = datum.payload.size :=
    fun datum member => (openable.written datum member).size
  have split : world.log.take (lastChkpt world.log) ++ afterChkpt world.log =
      world.log := List.take_append_drop _ _
  have length : (world.log.take (lastChkpt world.log)).length =
      lastChkpt world.log :=
    List.length_take_of_le (lastChkpt_le world.log)
  rw [buildIndex, ensures_bind, ensures_get]
  dsimp only
  rw [if_neg (by simpa using nonempty),
    ensures_run_bind (run_modifyFile _ _)]
  refine ((allows_scanBack_collected _ _ _ _ ?_).ensures
    (ensures_scanBack sized le_rfl [])).bind ?_
  · exact fun _ impossible => absurd impossible List.not_mem_nil
  rintro _ _ ⟨rfl, rfl, _⟩
  rw [List.take_length, List.append_nil]
  dsimp only
  obtain ⟨this, heap, run, fig, sound, holds, latest⟩ :=
    ensures_root_stored fits.dir openable.index filed world.heap
  rw [ensures_run_bind (run_onTree run),
    ensures_run_bind (run_modifyFile _ _)]
  let start : World := ⟨{ world.file with
    lastRecno := world.log.length, figtree := some this }, heap, world.log,
    world.cache⟩
  have indexes : Indexes env world.log (world.log.take (lastChkpt world.log))
      start this fig := ⟨rfl, rfl, sound, holds, latest⟩
  by_cases noData : NoData world.log
  · -- Without data to replay nothing else happens.
    have empty : ∀ ent ∈ collected world.log, ent.2.header.entSize = 0 :=
      fun ent member => noData ent.2 (mem_of_numbered member)
    rw [replay_empty empty, ensures_run_bind rfl,
      ensures_of_run (run_modifyFile _ _)]
    refine ⟨⟨this, fig, rfl, rfl, sound, holds, fun x inside => ?_⟩,
      fun _ => rfl⟩
    rw [latest x inside, ← latestRecno_of_empty openable.data noData, split]
  · obtain ⟨enabled, _, opens⟩ := fits.replay.resolve_left noData
    have replays := opens { world.file with lastRecno := world.log.length } ()
      _ (run_loadRoot run)
    rw [collected, ← length] at replays ⊢
    refine (indexes.ensures_replay enabled openable.data replays).bind ?_
    rintro _ next ⟨this', fig', indexes'⟩
    rw [ensures_of_run (run_modifyFile _ _)]
    rw [split] at indexes'
    exact ⟨⟨this', fig', indexes'.isLog, indexes'.isTree, indexes'.sound,
      indexes'.holds, indexes'.latest⟩, fun none => absurd none noData⟩

end Build

/-! ## Opening -/

section Opening

variable {env : Env} {ops : List FileOp} {world : World} {appends : Bool}

/-- Building the index of a file that is not open. -/
theorem Faithful.ensures_buildIndex
    (faithful : Faithful env ops world)
    (closed : world.file.figtreeInitialized = false)
    (nonempty : world.log ≠ [])
    (fits : RebuildFits env world) :
    Ensures (buildIndex env)
      (fun _ next => Faithful env ops next ∧
        next.file.figtreeInitialized = true) world := by
  have durable := faithful.durable
  have old : world.file.newFile = false := by
    cases isNew : world.file.newFile with
    | false => rfl
    | true =>
        have opened := faithful.built isNew
        cases closed.symm.trans opened
  have mirrored : env.useCache = true → ¬NoData world.log →
      Allows (buildIndex env) (fun _ next => InStep env next) world := by
    intro enabled some
    obtain ⟨_, positive, opens⟩ := fits.replay.resolve_left some
    exact (allows_buildIndex_inStep enabled positive durable.openable
      (faithful.cache enabled).mirrors opens).mono fun _ _ kept => kept.1
  refine ((ensures_buildIndex_stored nonempty durable.openable durable.filed
    fits).and ((allows_buildIndex env world).and
      (show Allows (buildIndex env) (fun _ next => env.useCache = true →
        ¬NoData world.log → InStep env next) world from
        fun value next run enabled some =>
          mirrored enabled some value next run))).mono ?_
  rintro _ next ⟨⟨⟨this, fig, indexes⟩, same⟩, ⟨isFile, isLog⟩, inStep⟩
  have isOld : next.file.newFile = false := by
    rw [isFile]
    exact old
  have opened : next.file.figtreeInitialized = true := by
    rw [isFile]
  refine ⟨⟨?_, ?_, fun _ => ?_, fun _ => ⟨this, fig, ?_⟩, fun _ => opened,
    fun enabled => ⟨?_, fun isNew => ?_⟩⟩, opened⟩
  · rw [isLog]
    exact durable
  · refine infoMatches_congr faithful.info ?_ isLog
    rw [World.info, isFile, isLog]
    rfl
  · rw [isLog]
    exact nonempty
  · rw [isLog]
    refine ⟨indexes.isTree, indexes.sound, ?_, ?_, ?_, ?_⟩
    · rw [isLog]
      exact indexes.holds
    · rw [isLog]
      exact indexes.latest
    · rw [isLog]
      exact durable.openable.written
    · rw [isFile, isLog]
  · by_cases noData : NoData world.log
    · rw [same noData, isLog]
      exact (faithful.cache enabled).mirrors
    · exact (inStep enabled noData).mirrors
  · cases isOld.symm.trans isNew

/-- Building the index if it was not built before. -/
theorem Faithful.allows_openIndex
    (faithful : Faithful env ops world)
    (fits : world.file.figtreeInitialized = false →
      RebuildFits env world) :
    Allows (openIndex env false) (fun _ next => Faithful env ops next)
      world := by
  rw [openIndex, allows_bind, allows_get, if_neg Bool.false_ne_true]
  split
  · exact allows_pure.mpr faithful
  · next closed =>
      have unopened := Bool.eq_false_iff.mpr closed
      intro value next run
      have nonempty : world.log ≠ [] := by
        intro isEmpty
        rw [buildIndex, run_get_bind, isEmpty] at run
        cases run
      exact ((faithful.ensures_buildIndex unopened nonempty
        (fits unopened)).allows value next run).1

/-- Checking the type of a file that has one. -/
theorem allows_openType_old
    {type : FileType}
    {init strictInit : Bool}
    (old : init = true → world.info.fileType ≠ .new) :
    Allows (openType env appends type perm init strictInit)
      (fun _ next => next = world ∨ next = world.withInfo world.info)
      world := by
  rw [openType]
  split
  · exact allows_pure.mpr (Or.inl rfl)
  · rw [allows_run_bind (run_getInfoRaw _)]
    split
    · next isInit =>
        rw [if_neg (old isInit)]
        exact allows_pure.mpr (Or.inr rfl)
    · exact allows_pure.mpr (Or.inr rfl)

/-- Opening a file that exists, or finding that it does not. -/
theorem Faithful.allows_openFile
    {type : FileType}
    {init : Bool}
    (faithful : Faithful env ops world)
    (old : init = true → world.log ≠ [])
    (fits : world.file.figtreeInitialized = false →
      RebuildFits env world) :
    Allows (openFile env appends type perm init false)
      (fun _ next => Faithful env ops next) world := by
  rw [openFile, allows_run_bind (run_modifyFile _ _),
    allows_run_bind (run_modifyFile _ _)]
  have counted : Faithful env ops { world with
      file := { fileRef world.file with
        newFile := (fileRef world.file).newFile || false } } :=
    faithful.withFile rfl rfl rfl rfl (Bool.or_false _)
  refine (allows_openType_old fun isInit => ?_).bind ?_
  · rw [show World.info _ = loadInfo world.log from counted.info]
    exact faithful.durable.typed (old isInit)
  rintro ok next outcome
  have fits' : next.file.figtreeInitialized = false →
      RebuildFits env next := by
    rcases outcome with rfl | rfl
    · exact fun closed => ⟨(fits closed).dir, (fits closed).replay⟩
    · exact fun closed => ⟨(fits closed).dir, (fits closed).replay⟩
  have faithful' : Faithful env ops next := by
    rcases outcome with rfl | rfl
    · exact counted
    · exact counted.loaded
  split
  · exact (faithful'.allows_openIndex fits').bind fun _ _ kept =>
      allows_pure.mpr kept
  · rw [allows_run_bind (run_modifyFile _ _), allows_pure]
    exact faithful'.withFile rfl rfl rfl rfl rfl

/-- Creating a file with a log that was just created. -/
theorem Faithful.allows_create
    {type : FileType}
    (faithful : Faithful env ops world)
    (noLog : world.log = [])
    (takes : env.takes true = true)
    (known : type ≠ .unknown)
    (isType : type ≠ .new)
    (perm : Nat) :
    Allows (openFile env true type perm true true)
      (fun _ next => Faithful env ops next) world := by
  rw [openFile, allows_run_bind (run_modifyFile _ _),
    allows_run_bind (run_modifyFile _ _), Bool.or_true]
  have isNew : World.info { world with
      file := { fileRef world.file with newFile := true } } =
      loadInfo world.log := faithful.info
  refine (ensures_openType_new (by rw [isNew, noLog]; rfl) known perm
    true).allows.bind ?_
  rintro _ _ ⟨rfl, rfl⟩
  rw [if_pos rfl, openIndex, bind_assoc, allows_bind, allows_get, if_pos rfl,
    bind_assoc]
  have logged : (world.append (env.takes true)
      (dataRecord ⟨0, type, perm⟩ [] 0)).log =
      [dataRecord ⟨0, type, perm⟩ [] 0] := by
    rw [World.append, if_pos takes, noLog]
    rfl
  obtain ⟨this, heap', run, holds⟩ := @ensures_ftInit
    [dataRecord ⟨0, type, perm⟩ [] 0] _ _ (Owns.nothing world.heap)
  refine (allows_run_bind (run_onTree run)).mpr ?_
  rw [allows_run_bind (run_modifyFile _ _), allows_pure]
  have durable : Durable ops [dataRecord ⟨0, type, perm⟩ [] 0] :=
    Durable.create (noLog ▸ faithful.durable) isType perm
  refine ⟨?_, ?_, fun _ => ?_, fun _ => ⟨this, Fig.empty, ?_⟩, fun _ => rfl,
    fun enabled => ?_⟩
  · exact logged.symm ▸ durable
  · exact (congrArg loadInfo logged).symm
  · exact logged.symm ▸ List.cons_ne_nil _ _
  · refine ⟨rfl, Fig.empty_sound _, logged.symm ▸ holds, fun x _ => ?_, ?_,
      (congrArg List.length logged).symm⟩
    · refine Eq.trans ?_ (congrArg (fun log =>
        (latestRecno log x).map Int.ofNat) logged.symm)
      have nothing : ¬covers (dataRecord ⟨0, type, perm⟩ [] 0) x = true := by
        rw [covers_dataRecord]
        simp
      rw [← List.nil_append [dataRecord _ _ _], latestRecno_append,
        if_neg nothing]
      rfl
    · exact logged.symm ▸ durable.openable.written
  · have ok := faithful.cache enabled
    have blank : ∀ x, world.cache.bytes.getD x 0 = 0 := by
      intro x
      cases isHole : world.cache.hole env.block x with
      | true => exact ok.mirrors.zeros x isHole
      | false =>
          have same := ok.mirrors.same x isHole
            fun _ impossible => absurd impossible List.not_mem_nil
          rw [noLog] at same
          exact same
    have isCache : (world.fillCache env [] 0).cache = world.cache := by
      rw [World.fillCache]
      split <;> rfl
    have bytes : ∀ x, content [dataRecord ⟨0, type, perm⟩ [] 0] x = 0 := by
      intro x
      rw [← List.nil_append [dataRecord _ _ _], content_dataRecord,
        if_neg (by simp)]
      rfl
    have exact : ∀ x, world.cache.bytes.getD x 0 =
        content [dataRecord ⟨0, type, perm⟩ [] 0] x :=
      fun x => (blank x).trans (bytes x).symm
    have whole : CacheOk env.block true
        [dataRecord ⟨0, type, perm⟩ [] 0] world.cache :=
      ⟨⟨ok.mirrors.zeros, fun x _ _ => exact x, ok.mirrors.small⟩,
        fun _ => exact⟩
    exact logged.symm ▸ isCache.symm ▸ whole

/-- What a call that opens a file needs: a file is created with a log of its
own, and opened with what its index and its cache need. -/
def CallFits (env : Env) : OpenCall → World → Prop
  | .init type _ true, world =>
      type ≠ .unknown ∧ type ≠ .new ∧ env.takes true = true ∧ world.log = []
  | .init _ _ false, world =>
      world.log ≠ [] ∧
        (world.file.figtreeInitialized = false → RebuildFits env world)
  | _, world =>
      world.file.figtreeInitialized = false → RebuildFits env world

theorem Faithful.allows_opens
    (faithful : Faithful env ops world)
    {call : OpenCall}
    (fits : CallFits env call world) :
    Allows (call.run env true) (fun _ next => Faithful env ops next)
      world := by
  have noInit : false = true → world.log ≠ [] :=
    fun impossible => absurd impossible Bool.false_ne_true
  cases call with
  | any => exact faithful.allows_openFile noInit fits
  | typed type => exact faithful.allows_openFile noInit fits
  | init type perm strictInit =>
      cases strictInit with
      | false => exact faithful.allows_openFile (fun _ => fits.1) fits.2
      | true =>
          obtain ⟨known, isType, takes, noLog⟩ := fits
          exact faithful.allows_create noLog takes known isType perm

end Opening

end File
end Gdpfs
