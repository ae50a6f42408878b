import Gdpfs.File.Durable

/-!
# Files that are open

A file that is open has an index and, with a cache, a cache file.  As long as
both are faithful to the log, reads return the bytes of the plain file, and
every operation leaves them faithful to the log that it leaves.
-/

namespace Gdpfs
namespace File

open Log FigTree Effect
open Cells (Owns Holds cell Store)

/-! ## The cache -/

/-- A cache file that may be asked for bytes: its bytes outside of holes are
those of the log, and those of a new file are anywhere. -/
structure CacheOk
    (block : Nat)
    (newFile : Bool)
    (log : List LogRecord)
    (cache : CacheFile) : Prop where
  mirrors : Mirrors block log [] cache
  exact : newFile = true → ∀ x, cache.bytes.getD x 0 = content log x

section Cache

variable {block offset : Nat} {newFile : Bool} {log later : List LogRecord}
  {cache next : CacheFile} {buf : List UInt8}

theorem Filled.zeros
    (filled : Filled block cache offset buf next)
    (zeros : ∀ x, cache.hole block x = true → cache.bytes.getD x 0 = 0)
    (isHole : next.hole block x = true) :
    next.bytes.getD x 0 = 0 := by
  have outside : ¬(offset ≤ x ∧ x < offset + buf.length) := by
    intro inside
    rw [filled.hole_eq_false (Or.inl inside)] at isHole
    cases isHole
  have before : cache.hole block x = true := by
    refine Bool.not_eq_false _ ▸ fun known => ?_
    rw [filled.hole_eq_false (Or.inr known)] at isHole
    cases isHole
  rw [filled.bytes, if_neg outside]
  exact zeros x before

/-- Bytes of a log are filled into the cache of an earlier log that gives the
other bytes the same values. -/
theorem CacheOk.fill
    (ok : CacheOk block newFile log cache)
    (fits : newFile = false → FillFits block log cache offset buf.length)
    (below : offset + buf.length ≤ byteIndexMax)
    (inside : ∀ x, offset ≤ x ∧ x < offset + buf.length →
      buf.getD (x - offset) 0 = content later x)
    (outside : ∀ x, ¬(offset ≤ x ∧ x < offset + buf.length) →
      content later x = content log x) :
    CacheOk block newFile later (cache.write offset buf) := by
  have filled := (@filled_write block) cache offset buf
  cases newFile with
  | false =>
      refine ⟨ok.mirrors.filled filled (fits rfl) below
        (fun x within _ => inside x within)
        (fun x within settled => ⟨settled, outside x within⟩)
        (fun x within _ none => ?_), fun impossible => ?_⟩
      · rw [outside x within, content_of_uncovered none]
      · cases impossible
  | true =>
      have exact : ∀ x, (cache.write offset buf).bytes.getD x 0 =
          content later x := by
        intro x
        rw [filled.bytes]
        by_cases within : offset ≤ x ∧ x < offset + buf.length
        · rw [if_pos within]
          exact inside x within
        · rw [if_neg within, outside x within]
          exact ok.exact rfl x
      refine ⟨⟨fun x => filled.zeros ok.mirrors.zeros, fun x _ _ => exact x,
        ?_⟩, fun _ => exact⟩
      have length := filled.length
      have small := ok.mirrors.small
      split at length <;> omega

/-- What the cache returns is what the log holds. -/
theorem CacheOk.hit
    {env : Env}
    {bytes : List UInt8}
    (ok : CacheOk env.block newFile log cache)
    (found : getCache env newFile cache size offset = some bytes) :
    bytes = slice (content log) offset size := by
  cases newFile with
  | false => exact (ok.mirrors.hit found).1
  | true =>
      obtain ⟨_, whole, rfl⟩ := getCache_some found
      rw [read_eq_slice whole, funext (ok.exact rfl)]

end Cache

/-! ## Files and their logs -/

/-- A file, open or not, whose log holds the plain file, and whose index and
cache are faithful to the log. -/
structure Faithful
    (env : Env)
    (ops : List FileOp)
    (world : World) : Prop where
  durable : Durable ops world.log
  info : InfoMatches world
  logged : world.file.figtreeInitialized = true → world.log ≠ []
  tracks : world.file.figtreeInitialized = true →
    ∃ this fig, Tracks env (partlyStored world.log) world this fig
  built : world.file.newFile = true → world.file.figtreeInitialized = true
  cache : env.useCache = true →
    CacheOk env.block world.file.newFile world.log world.cache

section Faithful

variable {env : Env} {ops : List FileOp} {world : World} {size offset : Nat}

/-- The file with another object that says the same of its index. -/
theorem Faithful.withFile
    {file : GdpfsFile}
    (faithful : Faithful env ops world)
    (info : World.info { world with file := file } = world.info)
    (sameTree : file.figtree = world.file.figtree)
    (sameCount : file.lastRecno = world.file.lastRecno)
    (sameState : file.figtreeInitialized = world.file.figtreeInitialized)
    (sameNew : file.newFile = world.file.newFile) :
    Faithful env ops { world with file := file } := by
  refine ⟨faithful.durable, info.trans faithful.info, ?_, ?_, ?_, ?_⟩
  · exact fun built => faithful.logged (sameState.symm.trans built)
  · intro built
    obtain ⟨this, fig, tracks⟩ :=
      faithful.tracks (sameState.symm.trans built)
    exact ⟨this, fig, sameTree.trans tracks.isTree, tracks.sound,
      tracks.holds, tracks.latest, tracks.written,
      sameCount.trans tracks.count⟩
  · exact fun isNew => sameState.trans
      (faithful.built (sameNew.symm.trans isNew))
  · intro enabled
    dsimp only
    rw [sameNew]
    exact faithful.cache enabled

theorem Faithful.loaded
    (faithful : Faithful env ops world) :
    Faithful env ops (world.withInfo world.info) :=
  faithful.withFile rfl rfl rfl rfl rfl

/-- A step that writes nothing. -/
theorem Faithful.same
    (faithful : Faithful env ops world)
    (after : (Plain.after ops).step op = Plain.after ops)
    (ever : (Plain.ever ops).keep op = Plain.ever ops) :
    Faithful env (ops ++ [op]) world :=
  ⟨faithful.durable.same after ever, faithful.info, faithful.logged,
    faithful.tracks, faithful.built, faithful.cache⟩

/-! ## Reads -/

/-- A read through the index of an open file. -/
theorem Faithful.ensures_readIndex
    (faithful : Faithful env ops world)
    (opened : world.file.figtreeInitialized = true)
    (nonempty : 0 < size)
    (below : offset + size ≤ byteIndexMax) :
    Ensures (readIndex env size offset)
      (fun buf next => buf = slice (content world.log) offset size ∧
        next = { world with heap := next.heap } ∧ Faithful env ops next)
      world := by
  obtain ⟨this, fig, tracks⟩ := faithful.tracks opened
  refine ((File.ensures_readIndex tracks.names (Nat.le_succ _) nonempty
    below).and (placed_readIndex env size offset world)).mono ?_
  rintro buf next ⟨⟨kept, isNext, isBuf⟩, placed⟩
  obtain ⟨fig', sound', holds', looks⟩ :=
    placed.fig kept tracks.sound tracks.holds
  refine ⟨isBuf, isNext, ?_⟩
  rw [isNext]
  refine ⟨faithful.durable, faithful.info, faithful.logged, fun _ =>
    ⟨this, fig', tracks.isTree, sound', holds', fun x inside => ?_,
      tracks.written, tracks.count⟩, faithful.built, faithful.cache⟩
  rw [looks x]
  exact tracks.latest x inside

/-- What a read fills into the cache fits, if the cache is asked for holes. -/
def ReadFits (env : Env) (world : World) (size offset : Nat) : Prop :=
  ∀ count, readSize world.info.fileSize size offset = some count →
    getCache env world.file.newFile world.cache count offset = none →
    env.useCache = true → world.file.newFile = false →
      FillFits env.block world.log world.cache offset count

/-- Bytes of the file are filled into the cache. -/
theorem Faithful.fillCache
    (faithful : Faithful env ops world)
    (fits : env.useCache = true → world.file.newFile = false →
      FillFits env.block world.log world.cache offset size)
    (below : offset + size ≤ byteIndexMax) :
    Faithful env ops (world.fillCache env
      (slice (content world.log) offset size) offset) := by
  refine ⟨faithful.durable, faithful.info, faithful.logged, fun built => ?_,
    faithful.built, fun enabled => ?_⟩
  · obtain ⟨this, fig, tracks⟩ := faithful.tracks built
    exact ⟨this, fig, tracks.isTree, tracks.sound, tracks.holds,
      tracks.latest, tracks.written, tracks.count⟩
  · have length := length_slice (content world.log) offset size
    dsimp only [World.fillCache]
    rw [if_pos enabled]
    refine (faithful.cache enabled).fill ?_ (by omega) (fun x within => ?_)
      fun _ _ => rfl
    · rw [length]
      exact fits enabled
    · rw [List.getD_eq_getElem?_getD, getElem?_slice _ _ (by omega),
        Nat.add_sub_cancel' within.1]
      rfl

/-- A read of an open file returns the bytes of the plain file. -/
theorem Faithful.ensures_doRead
    (faithful : Faithful env ops world)
    (opened : world.file.figtreeInitialized = true)
    (bounded : size + offset < 18446744073709551616) :
    Ensures (doRead env size offset)
      (fun bytes next => bytes = (Plain.after ops).read size offset ∧
        (ReadFits env world size offset → Faithful env ops next)) world := by
  have durable := faithful.durable
  have small := durable.small
  have isSize : world.info.fileSize = (Plain.after ops).size := by
    rw [show world.info = loadInfo world.log from faithful.info]
    exact durable.size
  have same := durable.slice_eq size offset
  have loaded := faithful.loaded
  unfold ReadFits
  rw [doRead, ensures_run_bind (run_getInfoRaw _), isSize]
  rcases readSize_eq (Plain.after ops).size bounded with
    ⟨isNone, isZero⟩ | isSome
  · rw [isNone]
    dsimp only
    rw [ensures_pure, Plain.read, isZero]
    exact ⟨rfl, fun _ => loaded⟩
  · rw [isSome]
    dsimp only
    rw [ensures_bind, ensures_get]
    dsimp only [World.withInfo]
    cases found : getCache env world.file.newFile world.cache
        (min size ((Plain.after ops).size - offset)) offset with
    | some hit =>
        have enabled := (getCache_some found).1
        dsimp only
        rw [ensures_pure, (faithful.cache enabled).hit found]
        exact ⟨same, fun _ => loaded⟩
    | none =>
        dsimp only
        by_cases nonempty : 0 < min size ((Plain.after ops).size - offset)
        · have below : offset + min size ((Plain.after ops).size - offset) ≤
              byteIndexMax := by omega
          rw [if_pos nonempty]
          refine Ensures.bind (loaded.ensures_readIndex opened nonempty
            below) ?_
          rintro _ next ⟨rfl, isNext, faithful'⟩
          have isLog : next.log = world.log := by
            rw [isNext]
            rfl
          rw [ensures_run_bind (run_gdpfsFileFillCache _ _ _ _),
            ensures_pure]
          refine ⟨same, fun fits => ?_⟩
          have fill := @Faithful.fillCache _ _ _
            (min size ((Plain.after ops).size - offset)) offset faithful' ?_
            below
          · rw [isLog] at fill
            exact fill
          · intro enabled old
            rw [isNext] at old ⊢
            exact fits _ rfl found enabled old
        · rw [if_neg nonempty, ensures_pure, Plain.read,
            Nat.eq_zero_of_not_pos nonempty]
          exact ⟨rfl, fun _ => loaded⟩

/-! ## Updates -/

/-- An update of an open file fits its past, is taken by the log, meets no
child of the index that is not in memory, and fits the cache, if the cache is
asked for holes. -/
structure UpdateFits
    (env : Env)
    (ops : List FileOp)
    (change : Update)
    (world : World) : Prop where
  opened : world.file.figtreeInitialized = true
  takes : env.takes true = true
  past : Fits ops (.update change)
  way : world.WayLoaded env ⟨change.buf, change.offset, world.info⟩
  fill : env.useCache = true → world.file.newFile = false →
    FillFits env.block world.log world.cache change.offset change.buf.length

theorem Tracks.ofLog
    {later : List LogRecord}
    {next : World}
    {this : Figtree}
    {fig : Fig}
    (tracks : Tracks env (partlyStored world.log) next this fig)
    (grown : world.log <+: later) :
    Tracks env (partlyStored later) next this fig :=
  ⟨tracks.isTree, tracks.sound.kept_partly fun _ _ _ => fetchNode_grow grown,
    tracks.holds, tracks.latest, tracks.written, tracks.count⟩

theorem Faithful.ensures_update
    {change : Update}
    (faithful : Faithful env ops world)
    (fits : UpdateFits env ops change world) :
    Ensures (change.run env true)
      (fun _ next => Faithful env (ops ++ [.update change]) next) world := by
  obtain ⟨opened, takes, past, way, fill⟩ := fits
  obtain ⟨this, fig, tracks⟩ := faithful.tracks opened
  have nonempty := faithful.logged opened
  obtain ⟨below, _⟩ := past.small faithful.durable.small
  have loaded : fig.Sound partlyLoaded :=
    (@Sound.weaken (partlyStored world.log) partlyLoaded) rfl id
      (fun _ => trivial) tracks.sound
  refine (File.ensures_update tracks takes change
    (fun _ => Or.inl le_rfl) below (way this fig tracks.isTree loaded tracks.holds)).mono ?_
  rintro _ next ⟨this', fig', heap, isNext, isLog, tracks'⟩
  have grown : world.log <+: next.log := isLog ▸ List.prefix_append _ _
  have state : next.file.figtreeInitialized = true ∧
      next.file.newFile = world.file.newFile := by
    rw [isNext]
    exact ⟨opened, rfl⟩
  have isCache : next.cache =
      (world.fillCache env change.buf change.offset).cache := by
    rw [isNext]
    rfl
  refine ⟨?_, ?_, fun _ => ?_, fun _ => ⟨this', fig', tracks'.ofLog grown⟩,
    fun _ => state.1, fun enabled => ?_⟩
  · rw [isLog]
    exact faithful.durable.update past faithful.info nonempty
  · rw [InfoMatches, isLog, loadInfo_append, isNext]
    rfl
  · rw [isLog]
    exact List.append_ne_nil_of_right_ne_nil _ (List.cons_ne_nil _ _)
  · rw [isCache, World.fillCache, if_pos enabled, state.2]
    refine (faithful.cache enabled).fill (fill enabled) below
      (fun x within => ?_) fun x outside => ?_
    · rw [isLog, content_dataRecord, if_pos within]
    · rw [isLog, content_dataRecord, if_neg outside]

/-! ## Checkpoints -/

/-- A checkpoint finds the root of the index dirty, and no node dirty below a
clean one. -/
structure ChkptFits (world : World) : Prop where
  opened : world.file.figtreeInitialized = true
  dirty : world.rootDirty = true
  onTop : ∀ this, world.file.figtree = some this →
    this.noneLeft world.heap = true

theorem Faithful.allows_fileChkpt
    {appends : Bool}
    (faithful : Faithful env ops world)
    (fits : ChkptFits world) :
    Allows (fileChkpt env appends)
      (fun _ next => Faithful env ops next ∧
        ∃ header nodes, next.log = world.log ++ [chkptRecord header nodes])
      world := by
  obtain ⟨opened, dirty, onTop⟩ := fits
  obtain ⟨this, fig, tracks⟩ := faithful.tracks opened
  have nonempty := faithful.logged opened
  refine (File.allows_fileChkpt world).mono ?_
  rintro nodes next ⟨heap, collected, _, isNext⟩
  obtain ⟨isNull, _⟩ | ⟨this', isTree, run⟩ := collected
  · cases isNull.symm.trans tracks.isTree
  cases isTree.symm.trans tracks.isTree
  obtain ⟨cells, rep, owns⟩ := tracks.holds
  have isDirty : Node.dirty (C := Tree fig.height) fig.tree = true := by
    obtain ⟨_, node, below, isRoot, rfl, nodeRep⟩ := rep
    cases isRoot
    have live := (owns.of_eq (add_assoc _ _ _)).read
    simp only [World.rootDirty, isTree, live] at dirty
    exact nodeRep.dirty.symm.trans dirty
  obtain ⟨stores, entries, tree, holds, each⟩ :=
    allows_getDirty_stored tracks.sound
      (fun _ _ _ => fetchNode_grow Env.fetchable_prefix) rep owns isDirty
      (onTop _ isTree) (world.file.lastRecno + 1) nodes heap run
  rw [tracks.count] at each
  let header := (dataRecord world.info [] 0).header
  have isLog : next.log = world.log ++ [chkptRecord header nodes] := by
    rw [isNext]
    exact if_pos stores
  have files := Files.append world.log (chkptRecord header nodes)
  obtain ⟨sound, looks, copy, copyRep, copySame⟩ := each _ files.archive
  have grown : world.log <+: world.log ++ [chkptRecord header nodes] :=
    List.prefix_append _ _
  have uncovered : ∀ x, ¬covers (chkptRecord header nodes) x = true := by
    intro x impossible
    cases impossible
  have durable : Durable ops next.log := by
    rw [isLog]
    refine faithful.durable.chkpt faithful.info nonempty stores entries
      copyRep fun x inside => ?_
    rw [copySame x]
    exact tracks.latest x inside
  refine ⟨⟨durable, ?_, fun _ => ?_, fun _ => ?_, ?_, fun enabled => ?_⟩,
    header, nodes, isLog⟩
  · rw [InfoMatches, isLog, loadInfo_append, isNext]
    rfl
  · rw [isLog]
    exact List.append_ne_nil_of_right_ne_nil _ (List.cons_ne_nil _ _)
  · refine ⟨this, ⟨fig.height, tree⟩, ?_⟩
    rw [isLog]
    obtain ⟨cells', rep', owns'⟩ := holds
    refine ⟨?_, sound, ?_, fun x inside => ?_, ?_, ?_⟩
    · rw [isNext]
      exact isTree
    · rw [isLog, isNext]
      exact ⟨cells', Rep.grow (Env.fetchable_grow grown) rep', owns'⟩
    · rw [isLog, latestRecno_uncovered uncovered]
      exact (looks x).trans (tracks.latest x inside)
    · rw [isLog]
      rw [isLog] at durable
      exact durable.openable.written
    · rw [isLog, isNext, List.length_append]
      exact congrArg Nat.succ tracks.count
  · rw [isNext]
    exact faithful.built
  · have ok := faithful.cache enabled
    have same : ∀ x, content next.log x = content world.log x := by
      intro x
      rw [isLog, content_append, if_neg (uncovered x)]
    rw [isNext] at same ⊢
    refine ⟨⟨ok.mirrors.zeros, fun x known _ => ?_, ok.mirrors.small⟩,
      fun isNew x => ?_⟩
    · rw [same x]
      exact ok.mirrors.same x known fun _ impossible =>
        absurd impossible List.not_mem_nil
    · rw [same x]
      exact ok.exact isNew x

end Faithful

end File
end Gdpfs
