import Gdpfs.File.Content
import Gdpfs.FigTree.Runs

/-!
# The index follows the log

Writing keeps the FIG tree of a file in step with its log: the tree names, for
every byte, the last record that covers it.
-/

namespace Gdpfs
namespace File

open Log FigTree Effect
open Cells (Owns Holds cell Store)

/-- The index of a file is a sound tree that names the last record of every
byte, and the counter is at the end of the log. -/
structure Tracks
    (env : Env)
    (regime : Regime)
    (world : World)
    (this : Figtree)
    (fig : Fig) : Prop where
  isTree : world.file.figtree = some this
  sound : fig.Sound regime
  holds : Holds (FigRep (env.fetchable world.log) fig this) 0 world.heap
  latest : ∀ x, x < regime.limit →
    fig.look x = (latestRecno world.log x).map Int.ofNat
  written : ∀ datum ∈ world.log, Written datum
  count : world.file.lastRecno = world.log.length

section Track

variable {env : Env} {regime : Regime} {world : World} {this : Figtree}
  {fig : Fig} {offset : Nat} {buf : List UInt8}

theorem Tracks.names
    (tracks : Tracks env regime world this fig) :
    Names env regime.partly regime.limit world this fig := by
  obtain ⟨cells, rep, owns⟩ := tracks.holds
  exact
    { isTree := tracks.isTree
      seen := seen_of_sound tracks.sound rep owns (by simp)
      sorted := Sound.sorted tracks.sound
      latest := tracks.latest
      written := tracks.written }

/-- The range of bytes that a write of some bytes indexes. -/
def writeRange (offset size : Nat) : Interval :=
  iInit offset (offset + size - 1)

theorem covers_dataRecord
    (info : FileInfo)
    (buf : List UInt8)
    (offset x : Nat) :
    covers (dataRecord info buf offset) x = true ↔
      offset ≤ x ∧ x < offset + buf.length :=
  covers_eq rfl rfl

theorem byteOf_dataRecord
    (info : FileInfo)
    (buf : List UInt8)
    (lower : offset ≤ x) :
    byteOf (dataRecord info buf offset) x = buf.getD (x - offset) 0 :=
  byteOf_eq rfl rfl lower

theorem index_of_lt
    {offset : Nat}
    (small : offset < 4294967296) :
    ((offset : Int) % 4294967296).toNat = offset := by
  omega

/-- Indexing bytes under the number of a record. -/
theorem ensures_indexWrite
    (isTree : world.file.figtree = some this)
    (sound : fig.Sound regime)
    (holds : Holds (FigRep (env.fetchable world.log) fig this) 0 world.heap)
    (edge : regime.limit ≤ byteIndexMax ∨
      fig.EdgeClear (writeRange offset size))
    (nonempty : 0 < size)
    (below : offset + size ≤ regime.limit)
    (way : fig.wayLoaded (writeRange offset size) = true)
    (recno : Nat) :
    Ensures (indexWrite env (offset : Int) size recno)
      (fun _ next => ∃ this' fig' heap,
        next = { world with
          file := { world.file with figtree := some this' }
          heap := heap } ∧
        fig'.Sound regime ∧
        Holds (FigRep (env.fetchable world.log) fig' this') 0 heap ∧
        ∀ x, x < regime.limit → fig'.look x =
          if offset ≤ x ∧ x < offset + size then some (recno : Int)
          else fig.look x) world := by
  have bounded : regime.limit ≤ 4294967296 := regime.bounded
  have start : ((offset : Int) % 4294967296).toNat = offset :=
    index_of_lt (by omega)
  have stop : (((offset : Int) + size - 1) % 4294967296).toNat =
      offset + size - 1 := by
    omega
  rw [indexWrite, ensures_bind, ensures_get, isTree]
  dsimp only
  rw [start, stop]
  have ends : offset ≤ offset + size - 1 := by omega
  have upper : offset + size - 1 < regime.limit := by omega
  have edgeClear : fig.EdgeClear (iInit offset (offset + size - 1)) :=
    edge.elim (sound.edgeClear rfl ends upper) id
  obtain ⟨this', heap, run, fig', sound', holds', changes⟩ :=
    ensures_write sound holds ends upper edgeClear (Or.inr way) recno
  rw [ensures_run_bind (run_onTree run), ensures_of_run (run_modifyFile _ _)]
  refine ⟨this', fig', heap, rfl, sound', holds', fun x inside => ?_⟩
  rw [changes way x inside]
  simp only [iInit]
  congr 1
  exact propext ⟨fun range => by omega, fun range => by omega⟩

/-- Indexing the bytes of the record that is appended next. -/
theorem ensures_writeIndex
    (tracks : Tracks env regime world this fig)
    (edge : 0 < buf.length → regime.limit ≤ byteIndexMax ∨
      fig.EdgeClear (writeRange offset buf.length))
    (below : offset + buf.length ≤ regime.limit)
    (way : 0 < buf.length →
      fig.wayLoaded (writeRange offset buf.length) = true)
    (info : FileInfo) :
    Ensures (writeIndex env buf offset)
      (fun _ next => ∃ this' fig' heap,
        next = { world with
          file := { world.file with
            lastRecno := world.file.lastRecno + 1, figtree := some this' }
          heap := heap } ∧
        fig'.Sound regime ∧
        Holds (FigRep (env.fetchable world.log) fig' this') 0 heap ∧
        ∀ x, x < regime.limit → fig'.look x =
          (latestRecno (world.log ++ [dataRecord info buf offset]) x).map
            Int.ofNat) world := by
  rw [writeIndex, ensures_run_bind (run_modifyFile _ _), ensures_bind,
    ensures_get]
  dsimp only
  by_cases nonempty : 0 < buf.length
  · have isTree : (World.mk
        { world.file with lastRecno := world.file.lastRecno + 1 }
        world.heap world.log world.cache).file.figtree = some this :=
      tracks.isTree
    rw [if_pos nonempty]
    refine (ensures_indexWrite isTree tracks.sound tracks.holds
      (edge nonempty) nonempty below (way nonempty)
      (world.file.lastRecno + 1)).mono ?_
    rintro _ _ ⟨this', fig', heap, rfl, sound', holds', looks⟩
    refine ⟨this', fig', heap, rfl, sound', holds', fun x inside => ?_⟩
    rw [looks x inside, latestRecno_append, tracks.count,
      tracks.latest x inside]
    by_cases covered : covers (dataRecord info buf offset) x = true
    · rw [if_pos covered, if_pos ((covers_dataRecord info buf offset x).mp
        covered)]
      rfl
    · rw [if_neg covered, if_neg (mt (covers_dataRecord info buf offset
        x).mpr covered)]
  · rw [if_neg nonempty, ensures_pure]
    refine ⟨this, fig, world.heap, ?_, tracks.sound, tracks.holds,
      fun x inside => ?_⟩
    · rw [← tracks.isTree]
    · have none : ¬covers (dataRecord info buf offset) x = true := by
        rw [covers_dataRecord]
        omega
      rw [latestRecno_append, if_neg none, tracks.latest x inside]

/-- The file after an update of the log that its index already knows. -/
theorem Tracks.appended
    {next : World}
    (written : ∀ datum ∈ world.log, Written datum)
    (count : world.file.lastRecno = world.log.length)
    (info : FileInfo)
    (sound : fig.Sound regime)
    (holds : Holds (FigRep (env.fetchable world.log) fig this) 0 next.heap)
    (latest : ∀ x, x < regime.limit → fig.look x =
      (latestRecno (world.log ++ [dataRecord info buf offset]) x).map
        Int.ofNat)
    (isTree : next.file.figtree = some this)
    (isLog : next.log = world.log ++ [dataRecord info buf offset])
    (isCount : next.file.lastRecno = world.file.lastRecno + 1) :
    Tracks env regime next this fig := by
  have grown : world.log <+: next.log := isLog ▸ List.prefix_append _ _
  obtain ⟨cells, rep, owns⟩ := holds
  refine ⟨isTree, sound,
    ⟨cells, Rep.grow (Env.fetchable_grow grown) rep, owns⟩, ?_, ?_, ?_⟩
  · rw [isLog]
    exact latest
  · rw [isLog]
    intro datum member
    rcases List.mem_append.mp member with old | new
    · exact written datum old
    · rw [List.mem_singleton.mp new]
      exact written_dataRecord info buf offset
  · rw [isCount, isLog, count, List.length_append]
    rfl

/-- `do_write` keeps the index in step with the log. -/
theorem ensures_doWrite
    (tracks : Tracks env regime world this fig)
    (takes : env.takes true = true)
    (edge : 0 < buf.length → regime.limit ≤ byteIndexMax ∨
      fig.EdgeClear (writeRange offset buf.length))
    (below : offset + buf.length ≤ regime.limit)
    (way : 0 < buf.length →
      fig.wayLoaded (writeRange offset buf.length) = true)
    (info : FileInfo) :
    Ensures (doWrite env true buf offset info)
      (fun _ next => ∃ this' fig' heap,
        next = (world.written env true buf offset info).withIndex
          (some this') heap ∧
        next.log = world.log ++ [dataRecord info buf offset] ∧
        Tracks env regime next this' fig') world := by
  rw [doWrite, ensures_run_bind (run_modifyFile _ _),
    ensures_run_bind (run_modifyFile _ _),
    ensures_run_bind (run_writeCache _ _ _ _)]
  have tracks' : Tracks env regime
      { world.fillCache env buf offset with
        file := { fileRef world.file with
          outstandingReqs := world.file.outstandingReqs + 1 } } this fig :=
    ⟨tracks.isTree, tracks.sound, tracks.holds, tracks.latest,
      tracks.written, tracks.count⟩
  refine Ensures.bind (ensures_writeIndex tracks' edge below way info) ?_
  rintro _ _ ⟨this', fig', heap, rfl, sound', holds', latest'⟩
  rw [ensures_run_bind (run_gdpfsLogAppend _ _ _ _), ensures_pure]
  have logged : (world.append (env.takes true)
      (dataRecord info buf offset)).log =
      world.log ++ [dataRecord info buf offset] := by
    rw [World.append, if_pos takes]
  exact ⟨this', fig', heap, rfl, logged, Tracks.appended tracks.written
    tracks.count info sound' holds' latest' rfl logged rfl⟩

/-- Updates keep the index in step with the log. -/
theorem ensures_update
    (tracks : Tracks env regime world this fig)
    (takes : env.takes true = true)
    (update : Update)
    (edge : 0 < update.buf.length → regime.limit ≤ byteIndexMax ∨
      fig.EdgeClear (writeRange update.offset update.buf.length))
    (below : update.offset + update.buf.length ≤ regime.limit)
    (way : 0 < update.buf.length →
      fig.wayLoaded (writeRange update.offset update.buf.length) = true) :
    Ensures (update.run env true)
      (fun _ next => ∃ this' fig' heap,
        next = (world.updated env true update).withIndex (some this') heap ∧
        next.log = world.log ++ [dataRecord (update.info world.info)
          update.buf update.offset] ∧
        Tracks env regime next this' fig') world := by
  have tracks' : Tracks env regime
      (world.withInfo (update.info world.info)) this fig :=
    ⟨tracks.isTree, tracks.sound, tracks.holds, tracks.latest,
      tracks.written, tracks.count⟩
  have written := ensures_doWrite tracks' takes edge below way
    (update.info world.info)
  cases update with
  | write buf offset =>
      rw [Update.run, gdpfsFileWrite, bind_assoc,
        ensures_run_bind (run_getInfoRaw _), bind_assoc,
        ensures_run_bind (run_modifyFile _ _)]
      exact Ensures.bind written fun _ _ holds => ensures_pure.mpr holds
  | ftruncate fileSize =>
      rw [Update.run, gdpfsFileFtruncate, bind_assoc,
        ensures_run_bind (run_getInfoRaw _), bind_assoc,
        ensures_run_bind (run_modifyFile _ _)]
      exact Ensures.bind written fun _ _ holds => ensures_pure.mpr holds
  | setPerm perm =>
      rw [Update.run, gdpfsFileSetPerm,
        ensures_run_bind (run_getInfoRaw _),
        ensures_run_bind (run_modifyFile _ _)]
      exact Ensures.bind written fun _ _ holds => ensures_pure.mpr holds

/-! ## New files -/

theorem run_writeIndex_nil (offset : Nat) (world : World) :
    (writeIndex env [] offset).run world =
      .ok ((), { world with
        file := { world.file with
          lastRecno := world.file.lastRecno + 1 } }) :=
  rfl

/-- Without bytes to write, `do_write` goes through on any file. -/
theorem ensures_doWrite_empty (info : FileInfo) :
    Ensures (doWrite env true [] 0 info)
      (fun _ next => next = world.written env true [] 0 info) world := by
  rw [doWrite, ensures_run_bind (run_modifyFile _ _),
    ensures_run_bind (run_modifyFile _ _),
    ensures_run_bind (run_writeCache _ _ _ _),
    ensures_run_bind (run_writeIndex_nil _ _),
    ensures_run_bind (run_gdpfsLogAppend _ _ _ _), ensures_pure]
  rfl

/-- A file without records is initialized. -/
theorem ensures_openType_new
    (isNew : world.info.fileType = .new)
    {type : FileType}
    (known : type ≠ .unknown)
    (perm : Nat)
    (strictInit : Bool) :
    Ensures (openType env true type perm true strictInit)
      (fun ok next => ok = true ∧
        next = (world.withInfo ⟨0, type, perm⟩).written env true [] 0
          ⟨0, type, perm⟩) world := by
  rw [openType, if_neg known, ensures_run_bind (run_getInfoRaw _),
    if_pos rfl, if_pos isNew, ensures_run_bind (run_modifyFile _ _)]
  refine Ensures.bind (ensures_doWrite_empty _) ?_
  rintro _ _ rfl
  exact ensures_pure.mpr ⟨rfl, rfl⟩

/-- A file that was just created is empty. -/
theorem ensures_create
    (regime : Regime)
    (takes : env.takes true = true)
    (fresh : world.file = GdpfsFile.zero)
    (noLog : world.log = [])
    {type : FileType}
    (known : type ≠ .unknown)
    (perm : Nat) :
    Ensures (gdpfsFileCreate env true type perm)
      (fun ok next => ok = true ∧
        next.log = [dataRecord ⟨0, type, perm⟩ [] 0] ∧
        next.file.infoCacheValid = true ∧
        next.file.infoCache = ⟨0, type, perm⟩ ∧
        next.file.newFile = true ∧
        next.cache = (world.fillCache env [] 0).cache ∧
        ∃ this, Tracks env regime next this Fig.empty) world := by
  obtain ⟨file, heap, log, cache⟩ := world
  dsimp only at fresh noLog
  subst noLog
  have isNew : (World.mk { fileRef file with newFile := true } heap []
      cache).info.fileType = .new := by
    rw [fresh]
    rfl
  rw [gdpfsFileCreate, gdpfsFileOpenInit, openFile,
    ensures_run_bind (run_modifyFile _ _),
    ensures_run_bind (run_modifyFile _ _)]
  rw [Bool.or_true]
  refine Ensures.bind (ensures_openType_new isNew known perm true) ?_
  rintro _ _ ⟨rfl, rfl⟩
  rw [if_pos rfl, openIndex, bind_assoc, ensures_bind, ensures_get,
    if_pos rfl, bind_assoc]
  obtain ⟨this, heap', run, holds⟩ := @ensures_ftInit
    (env.fetchable [dataRecord ⟨0, type, perm⟩ [] 0]) _ _ (Owns.nothing heap)
  have logged : ((World.mk file heap [] cache).append
      (env.takes true) (dataRecord ⟨0, type, perm⟩ [] 0)).log =
      [dataRecord ⟨0, type, perm⟩ [] 0] := by
    rw [World.append, if_pos takes]
    rfl
  refine (ensures_run_bind (run_onTree run)).mpr ?_
  rw [ensures_run_bind (run_modifyFile _ _), ensures_pure]
  refine ⟨rfl, logged, rfl, rfl, rfl, rfl, this, rfl, Fig.empty_sound regime,
    ?_, ?_, ?_, ?_⟩
  · exact logged.symm ▸ holds
  · intro x _
    have nothing : ¬covers (dataRecord ⟨0, type, perm⟩ [] 0) x = true := by
      rw [covers_dataRecord]
      simp
    refine Eq.trans ?_ (congrArg (fun log =>
      (latestRecno log x).map Int.ofNat) logged.symm)
    simp only [latestRecno, List.reverse_singleton, newestCover, nothing,
      Bool.false_eq_true, if_false]
    rfl
  · intro datum member
    have member' : datum ∈ [dataRecord ⟨0, type, perm⟩ [] 0] :=
      (congrArg (datum ∈ ·) logged).mp member
    rw [List.mem_singleton.mp member']
    exact written_dataRecord _ _ _
  · exact (congrArg List.length logged).symm

end Track

end File
end Gdpfs
