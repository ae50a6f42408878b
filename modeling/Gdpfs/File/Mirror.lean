import Gdpfs.File.Replay
import Gdpfs.File.Serial
import Gdpfs.FigTree.Reread

/-!
# Cache files that mirror a log

The file system reports a byte of the cache file as a hole or not.  Where it
reports no hole, `gdpfs_file_get_cache` takes the byte for the byte of the file.
This module says when filling the cache keeps that right.
-/

namespace Gdpfs
namespace File

open Log FigTree Effect
open Cells (Owns Holds cell Store)

/-! ## Filling a cache -/

section Fill

variable {cache : CacheFile} {block offset size : Nat} {buf : List UInt8}

/-- Whether a write to some blocks reaches the block of a byte. -/
def reaches (block offset size x : Nat) : Bool :=
  offset / block ≤ x / block && x / block ≤ (offset + size - 1) / block

theorem allocated_eq :
    cache.allocated block x =
      cache.extents.any fun extent => reaches block extent.1 extent.2 x :=
  rfl

/-- A cache after it was filled, byte by byte. -/
structure Filled
    (block : Nat)
    (cache : CacheFile)
    (offset : Nat)
    (buf : List UInt8)
    (next : CacheFile) : Prop where
  bytes : ∀ x, next.bytes.getD x 0 =
    if offset ≤ x ∧ x < offset + buf.length then buf.getD (x - offset) 0
    else cache.bytes.getD x 0
  length : next.bytes.length =
    if buf.isEmpty then cache.bytes.length
    else max cache.bytes.length (offset + buf.length)
  allocated : ∀ x, next.allocated block x =
    (cache.allocated block x ||
      !buf.isEmpty && reaches block offset buf.length x)

theorem filled_write (cache : CacheFile) (offset : Nat) (buf : List UInt8) :
    Filled block cache offset buf (cache.write offset buf) := by
  refine ⟨getD_write cache offset buf, ?_, fun x => ?_⟩
  · unfold CacheFile.write
    split
    · rfl
    · rw [length_overwrite]
      omega
  · unfold CacheFile.write
    cases buf with
    | nil => simp
    | cons byte rest =>
        rw [allocated_eq, allocated_eq]
        simp [Bool.or_comm]

theorem reaches_of_inside
    (block : Nat)
    (inside : offset ≤ x ∧ x < offset + size) :
    reaches block offset size x = true := by
  rw [reaches, Bool.and_eq_true, decide_eq_true_eq, decide_eq_true_eq]
  exact ⟨Nat.div_le_div_right inside.1, Nat.div_le_div_right (by omega)⟩

/-- Adjacent writes reach the blocks that one write reaches. -/
theorem reaches_append
    {more : Nat}
    (positive : 0 < block)
    (nonempty : 0 < size)
    (others : 0 < more)
    (x : Nat) :
    (reaches block offset size x ||
      reaches block (offset + size) more x) =
      reaches block offset (size + more) x := by
  have next : (offset + size) / block ≤ (offset + size - 1) / block + 1 := by
    have step := Nat.div_le_div_right (c := block)
      (show offset + size ≤ offset + size - 1 + block by omega)
    rwa [Nat.add_div_right _ positive] at step
  have first : offset / block ≤ (offset + size) / block :=
    Nat.div_le_div_right (by omega)
  have last : (offset + size - 1) / block ≤
      (offset + size + more - 1) / block :=
    Nat.div_le_div_right (by omega)
  rw [Bool.eq_iff_iff, Bool.or_eq_true]
  simp only [reaches, Bool.and_eq_true, decide_eq_true_eq, ← Nat.add_assoc]
  omega

theorem hole_eq_false :
    cache.hole block x = false ↔
      x < cache.bytes.length ∧ cache.allocated block x = true := by
  rw [CacheFile.hole, Bool.or_eq_false_iff, decide_eq_false_iff_not,
    Nat.not_le, Bool.not_eq_false']

/-- What is filled is no hole, and no hole becomes one. -/
theorem Filled.hole_eq_false
    {next : CacheFile}
    (filled : Filled block cache offset buf next)
    (known : offset ≤ x ∧ x < offset + buf.length ∨
      cache.hole block x = false) :
    next.hole block x = false := by
  have length := filled.length
  rw [File.hole_eq_false, filled.allocated]
  rcases known with inside | before
  · have nonempty : buf.isEmpty = false := by
      rw [List.isEmpty_eq_false_iff]
      rintro rfl
      simp only [List.length_nil] at inside
      omega
    rw [nonempty, if_neg Bool.false_ne_true] at length
    rw [nonempty, reaches_of_inside block inside]
    exact ⟨by omega, Bool.or_true _⟩
  · obtain ⟨short, isAllocated⟩ := File.hole_eq_false.mp before
    rw [isAllocated]
    refine ⟨?_, rfl⟩
    split at length
    · omega
    · omega

/-- The holes that a fill leaves depend on how much is filled. -/
theorem Filled.hole_eq
    {buf' : List UInt8}
    {next next' : CacheFile}
    (filled : Filled block cache offset buf next)
    (filled' : Filled block cache offset buf' next')
    (length : buf'.length = buf.length)
    (x : Nat) :
    next'.hole block x = next.hole block x := by
  have empty : buf'.isEmpty = buf.isEmpty := by
    rw [Bool.eq_iff_iff, List.isEmpty_iff_length_eq_zero,
      List.isEmpty_iff_length_eq_zero, length]
  rw [CacheFile.hole, CacheFile.hole, filled.allocated, filled'.allocated,
    filled.length, filled'.length, empty, length]

/-- Two fills, the second right behind the first. -/
theorem Filled.append
    {buf' : List UInt8}
    {middle next : CacheFile}
    (positive : 0 < block)
    (nonempty : buf ≠ [])
    (first : Filled block cache offset buf middle)
    (second : Filled block middle (offset + buf.length) buf' next) :
    Filled block cache offset (buf ++ buf') next := by
  have whole : (buf ++ buf').isEmpty = false := by
    simp [nonempty]
  have isBuf : buf.isEmpty = false := List.isEmpty_eq_false_iff.mpr nonempty
  have positive' := List.length_pos_iff.mpr nonempty
  refine ⟨fun x => ?_, ?_, fun x => ?_⟩
  · rw [second.bytes, first.bytes, List.length_append]
    by_cases late : offset + buf.length ≤ x
    · rw [if_neg (show ¬(offset ≤ x ∧ x < offset + buf.length) by omega)]
      refine if_congr (by omega) ?_ rfl
      rw [List.getD_eq_getElem?_getD, List.getD_eq_getElem?_getD,
        List.getElem?_append_right (by omega), Nat.sub_sub]
    · rw [if_neg (fun inside => late inside.1)]
      by_cases lower : offset ≤ x
      · rw [if_pos (by omega), if_pos (by omega),
          List.getD_eq_getElem?_getD, List.getD_eq_getElem?_getD,
          List.getElem?_append_left (by omega)]
      · rw [if_neg (by omega), if_neg (by omega)]
  · rw [second.length, first.length, isBuf, whole, List.length_append]
    split
    · next isEmpty =>
        rw [List.isEmpty_iff.mp isEmpty]
        simp
    · simp only [Bool.false_eq_true, if_false]
      omega
  · rw [second.allocated, first.allocated, isBuf, whole, Bool.or_assoc,
      List.length_append]
    congr 1
    cases buf' with
    | nil => simp
    | cons byte rest =>
        exact reaches_append positive positive' (Nat.succ_pos _) x

theorem populate_nil (fuel : Nat) (cache : CacheFile) (offset : Nat) :
    cache.populate fuel [] offset = cache := by
  cases fuel <;> rfl

/-- A record is copied as if it was written at once. -/
theorem filled_populate
    {fuel : Nat}
    (positive : 0 < block)
    (enough : buf.length ≤ fuel)
    (cache : CacheFile)
    (offset : Nat) :
    Filled block cache offset buf (cache.populate fuel buf offset) := by
  induction fuel generalizing buf cache offset with
  | zero =>
      rw [List.length_eq_zero_iff.mp (Nat.le_zero.mp enough)]
      exact filled_write cache offset []
  | succ fuel inductionHypothesis =>
      by_cases isEmpty : buf.isEmpty = true
      · rw [List.isEmpty_iff.mp isEmpty]
        exact filled_write cache offset []
      · rw [CacheFile.populate, if_neg isEmpty]
        have first := (@filled_write block) cache offset (buf.take 1024)
        by_cases short : buf.length ≤ 1024
        · rw [List.drop_of_length_le short, populate_nil,
            List.take_of_length_le short]
          exact filled_write cache offset buf
        · have length : (buf.take 1024).length = 1024 := by
            rw [List.length_take]
            omega
          have second := inductionHypothesis
            (show (buf.drop 1024).length ≤ fuel by
              rw [List.length_drop]; omega)
            (cache.write offset (buf.take 1024))
            (offset + (buf.take 1024).length)
          have nonempty : buf.take 1024 ≠ [] :=
            List.ne_nil_of_length_pos (by omega)
          have both := first.append positive nonempty second
          rwa [length, List.take_append_drop] at both

end Fill

/-! ## Bytes that no record holds -/

/-- No record holds the byte. -/
def Uncovered (records : List LogRecord) (x : Nat) : Prop :=
  ∀ datum ∈ records, covers datum x = false

section Uncovered

variable {log rest : List LogRecord}

theorem latestRecno_of_uncovered
    (uncovered : Uncovered log x) :
    latestRecno log x = none := by
  cases found : latestRecno log x with
  | none => rfl
  | some recno =>
      obtain ⟨datum, isDatum, covered, _⟩ := recordAt_latestRecno found
      have member : datum ∈ log := by
        unfold recordAt at isDatum
        split at isDatum
        · cases isDatum
        · exact List.mem_of_getElem? isDatum
      rw [uncovered datum member] at covered
      cases covered

theorem content_of_uncovered
    (none : Uncovered log x) :
    content log x = 0 :=
  content_of_none (latestRecno_of_uncovered none)

theorem content_append_uncovered
    (none : Uncovered rest x) :
    content (log ++ rest) x = content log x := by
  induction rest using List.reverseRecOn with
  | nil => rw [List.append_nil]
  | append_singleton rest datum inductionHypothesis =>
      have last : ¬covers datum x = true := by
        rw [none datum (by simp)]
        exact Bool.false_ne_true
      rw [← List.append_assoc, content_append, if_neg last]
      exact inductionHypothesis fun other member =>
        none other (List.mem_append_left _ member)

end Uncovered

/-! ## Mirrors -/

/-- A fill takes no byte out of a hole that it does not fill and that a record
holds. -/
def FillFits
    (block : Nat)
    (records : List LogRecord)
    (cache : CacheFile)
    (offset size : Nat) : Prop :=
  ∀ x, ¬(offset ≤ x ∧ x < offset + size) → cache.hole block x = true →
    (cache.write offset (List.replicate size 0)).hole block x = false →
    Uncovered records x

/-- A fill that covers the whole cache file fits. -/
theorem fillFits_whole
    {cache : CacheFile}
    (block : Nat)
    (records : List LogRecord)
    (covers : cache.bytes.length ≤ size) :
    FillFits block records cache 0 size := by
  intro x outside _ known
  have after := (hole_eq_false.mp known).1
  have length := ((@filled_write block) cache 0 (List.replicate size 0)).length
  rw [List.length_replicate] at length
  split at length
  · omega
  · omega

/-- What is no hole of a cache file is what the log gives the file, up to the
bytes that the rest of the records holds; there are zeros in the holes. -/
structure Mirrors
    (block : Nat)
    (log rest : List LogRecord)
    (cache : CacheFile) : Prop where
  zeros : ∀ x, cache.hole block x = true → cache.bytes.getD x 0 = 0
  same : ∀ x, cache.hole block x = false → Uncovered rest x →
    cache.bytes.getD x 0 = content log x
  small : cache.bytes.length ≤ byteIndexMax

section Mirrors

variable {block offset : Nat} {log later rest more records : List LogRecord}
  {cache next : CacheFile} {buf : List UInt8}

/-- An empty cache mirrors any log. -/
theorem mirrors_empty
    (block : Nat)
    (log rest : List LogRecord) :
    Mirrors block log rest .empty := by
  refine ⟨fun _ _ => rfl, fun x impossible => ?_, Nat.zero_le _⟩
  cases impossible

theorem Mirrors.weaken
    (mirrors : Mirrors block log [] cache)
    (rest : List LogRecord) :
    Mirrors block log rest cache := by
  refine ⟨mirrors.zeros, fun x known _ => mirrors.same x known ?_,
    mirrors.small⟩
  exact fun _ impossible => absurd impossible List.not_mem_nil

/-- Filling a cache with bytes of the file. -/
theorem Mirrors.filled
    (mirrors : Mirrors block log rest cache)
    (filled : Filled block cache offset buf next)
    (fits : FillFits block records cache offset buf.length)
    (below : offset + buf.length ≤ byteIndexMax)
    (inside : ∀ x, offset ≤ x ∧ x < offset + buf.length → Uncovered more x →
      buf.getD (x - offset) 0 = content later x)
    (outside : ∀ x, ¬(offset ≤ x ∧ x < offset + buf.length) →
      Uncovered more x → Uncovered rest x ∧ content later x = content log x)
    (beyond : ∀ x, ¬(offset ≤ x ∧ x < offset + buf.length) →
      Uncovered more x → Uncovered records x → content later x = 0) :
    Mirrors block later more next := by
  refine ⟨fun x isHole => ?_, fun x known settled => ?_, ?_⟩
  · have outside' : ¬(offset ≤ x ∧ x < offset + buf.length) := by
      intro inside'
      rw [filled.hole_eq_false (Or.inl inside')] at isHole
      cases isHole
    have before : cache.hole block x = true := by
      refine Bool.not_eq_false _ ▸ fun known => ?_
      rw [filled.hole_eq_false (Or.inr known)] at isHole
      cases isHole
    rw [filled.bytes, if_neg outside']
    exact mirrors.zeros x before
  · rw [filled.bytes]
    by_cases within : offset ≤ x ∧ x < offset + buf.length
    · rw [if_pos within]
      exact inside x within settled
    · rw [if_neg within]
      obtain ⟨settled', same⟩ := outside x within settled
      cases before : cache.hole block x with
      | false =>
          rw [same]
          exact mirrors.same x before settled'
      | true =>
          have zeros := (@filled_write block) cache offset
            (List.replicate buf.length 0)
          have after := (filled.hole_eq zeros List.length_replicate x).trans
            known
          rw [mirrors.zeros x before,
            beyond x within settled (fits x within before after)]
  · have length := filled.length
    have small := mirrors.small
    split at length
    · omega
    · omega

/-- Bytes that are written are filled in and appended to the log. -/
theorem Mirrors.write
    (mirrors : Mirrors block log [] cache)
    (fits : FillFits block log cache offset buf.length)
    (below : offset + buf.length ≤ byteIndexMax)
    (info : FileInfo) :
    Mirrors block (log ++ [dataRecord info buf offset]) []
      (cache.write offset buf) := by
  refine mirrors.filled (filled_write cache offset buf) fits below
    (fun x within _ => ?_) (fun x within settled => ⟨settled, ?_⟩)
    (fun x within _ none => ?_)
  · rw [content_append, if_pos ((covers_dataRecord info buf offset x).mpr
      within), byteOf_dataRecord info buf within.1]
  · rw [content_append, if_neg (mt (covers_dataRecord info buf offset x).mp
      within)]
  · rw [content_append, if_neg (mt (covers_dataRecord info buf offset x).mp
      within), content_of_uncovered none]

/-- Bytes that are read are filled in. -/
theorem Mirrors.read
    (mirrors : Mirrors block log [] cache)
    (fits : FillFits block log cache offset size)
    (below : offset + size ≤ byteIndexMax) :
    Mirrors block log []
      (cache.write offset (slice (content log) offset size)) := by
  have length := length_slice (content log) offset size
  rw [← length] at fits below
  refine mirrors.filled (filled_write cache offset _) fits below
    (fun x within _ => ?_) (fun x _ settled => ⟨settled, rfl⟩)
    (fun x _ _ none => content_of_uncovered none)
  rw [List.getD_eq_getElem?_getD, getElem?_slice _ _ (by omega),
    Nat.add_sub_cancel' within.1]
  rfl

/-- Up to the next hole there is none. -/
theorem hole_of_seekHole
    (found : cache.seekHole block offset = some lrv)
    (lower : offset ≤ x)
    (upper : x < lrv) :
    cache.hole block x = false := by
  unfold CacheFile.seekHole at found
  split at found
  · cases found
  · obtain ⟨i, isFirst, rfl⟩ := Option.map_eq_some_iff.mp found
    have none := (List.find?_range_eq_some.mp isFirst).2.2 (x - offset)
      (by omega)
    rw [Nat.add_sub_cancel' lower] at none
    simpa using none

/-- A hit returns the bytes of the file. -/
theorem Mirrors.hit
    {env : Env}
    {bytes : List UInt8}
    (mirrors : Mirrors env.block log [] cache)
    (found : getCache env false cache size offset = some bytes) :
    bytes = slice (content log) offset size ∧
      (0 < size → offset + size ≤ byteIndexMax) := by
  obtain ⟨enabled, whole, rfl⟩ := getCache_some found
  have known : ∀ i, i < size → cache.hole env.block (offset + i) = false := by
    intro i inside
    have nonzero : (size == 0) = false := by
      rw [beq_eq_false_iff_ne]
      omega
    rw [getCache, enabled, nonzero] at found
    cases sought : cache.seekHole env.block offset with
    | none => simp [sought] at found
    | some lrv =>
        simp only [sought, Bool.not_true, Bool.false_eq_true, if_false,
          Bool.or_false, Bool.false_or, Option.ite_none_right_eq_some,
          Bool.and_eq_true, decide_eq_true_eq] at found
        exact hole_of_seekHole sought (Nat.le_add_right _ _) (by omega)
  refine ⟨?_, fun nonempty => ?_⟩
  · rw [read_eq_slice whole]
    refine eq_slice (length_slice _ _ _) fun i inside => ?_
    rw [getElem?_slice _ _ inside, mirrors.same _ (known i inside)]
    exact fun _ impossible => absurd impossible List.not_mem_nil
  · have last := (hole_eq_false.mp (known (size - 1) (by omega))).1
    have small := mirrors.small
    omega

end Mirrors

/-! ## Files in step with their log -/

/-- The index names the last record of every byte, and the cache mirrors the
log. -/
structure InStep (env : Env) (world : World) : Prop where
  tracks : ∃ this fig, Tracks env partlyLoaded world this fig
  mirrors : Mirrors env.block world.log [] world.cache

section InStep

variable {env : Env} {world : World} {offset size : Nat} {buf : List UInt8}

/-- Nothing else of the file object matters. -/
theorem InStep.withFile
    {file : GdpfsFile}
    (inStep : InStep env world)
    (sameTree : file.figtree = world.file.figtree)
    (sameCount : file.lastRecno = world.file.lastRecno) :
    InStep env { world with file := file } := by
  obtain ⟨this, fig, tracks⟩ := inStep.tracks
  exact ⟨⟨this, fig, sameTree.trans tracks.isTree, tracks.sound, tracks.holds,
    tracks.latest, tracks.written, sameCount.trans tracks.count⟩,
    inStep.mirrors⟩

theorem InStep.withInfo
    (inStep : InStep env world)
    (info : FileInfo) :
    InStep env (world.withInfo info) :=
  inStep.withFile rfl rfl

/-- The body of the loop of `do_read` changes nothing but the buffer. -/
theorem allows_readFig
    (env : Env)
    (offset : Nat)
    (fig : FtEnt)
    (buf : List UInt8)
    (world : World) :
    Allows (readFig env offset fig buf) (fun _ next => next = world)
      world := by
  have bufferWrite : ∀ position bytes, Allows (bufferWrite buf position bytes)
      (fun _ next => next = world) world := by
    intro position bytes
    unfold File.bufferWrite
    split
    · exact allows_pure.mpr rfl
    · exact allows_throw
  rw [readFig, allows_bind, allows_get]
  dsimp only
  split
  · split
    · exact allows_throw
    · exact bufferWrite _ _
  · split
    · split
      · exact allows_throw
      · split
        · exact allows_throw
        · unfold readBytes
          split
          · rw [pure_bind]
            split
            · exact bufferWrite _ _
            · exact allows_throw
          · exact allows_throw
    · exact allows_throw

theorem placed_readFigs
    (env : Env)
    (offset fuel : Nat)
    (iter : FigtreeIter)
    (buf : List UInt8)
    (world : World) :
    Allows (readFigs env offset fuel iter buf)
      (fun _ next => Placed world.heap next.heap) world := by
  induction fuel generalizing iter buf world with
  | zero => exact allows_throw
  | succ fuel inductionHypothesis =>
      rw [readFigs, allows_bind, allows_get]
      refine (allows_onTree _).bind ?_
      rintro ⟨found, iter'⟩ _ ⟨heap, run, rfl⟩
      have placed := placed_ftiNext _ _ _ _ _ run
      cases found with
      | none => exact allows_pure.mpr placed
      | some fig =>
          refine (allows_readFig _ _ _ _ _).bind ?_
          rintro buf' _ rfl
          exact (inductionHypothesis _ buf' _).mono fun _ _ more =>
            placed.trans more

/-- A read through the index moves no place that the index names. -/
theorem placed_readIndex (env : Env) (size offset : Nat) (world : World) :
    Allows (readIndex env size offset)
      (fun _ next => Placed world.heap next.heap) world := by
  rw [readIndex, allows_bind, allows_get]
  split
  · exact allows_throw
  · refine (allows_onTree _).bind ?_
    rintro iter _ ⟨heap, run, rfl⟩
    have placed := placed_ftRead _ _ _ _ _ _ _ run
    exact (placed_readFigs _ _ _ _ _ _).mono fun _ _ more =>
      placed.trans more

/-- A read through the index. -/
theorem InStep.ensures_readIndex
    (inStep : InStep env world)
    (nonempty : 0 < size)
    (below : offset + size ≤ byteIndexMax) :
    Ensures (readIndex env size offset)
      (fun buf next => buf = slice (content world.log) offset size ∧
        next = { world with heap := next.heap } ∧ InStep env next) world := by
  obtain ⟨this, fig, tracks⟩ := inStep.tracks
  refine ((File.ensures_readIndex tracks.names (Nat.le_succ _) nonempty
    below).and (placed_readIndex env size offset world)).mono ?_
  rintro buf next ⟨⟨kept, isNext, isBuf⟩, placed⟩
  obtain ⟨fig', sound', holds', looks⟩ :=
    placed.fig kept tracks.sound tracks.holds
  refine ⟨isBuf, isNext, ⟨this, fig', ?_⟩, ?_⟩
  · rw [isNext]
    refine ⟨tracks.isTree, sound', holds', fun x inside => ?_, tracks.written,
      tracks.count⟩
    rw [looks x]
    exact tracks.latest x inside
  · rw [isNext]
    exact inStep.mirrors

/-- The cache is filled with bytes of the file. -/
theorem InStep.fillCache
    (inStep : InStep env world)
    (enabled : env.useCache = true)
    (fits : FillFits env.block world.log world.cache offset size)
    (below : offset + size ≤ byteIndexMax) :
    InStep env (world.fillCache env
      (slice (content world.log) offset size) offset) := by
  obtain ⟨this, fig, tracks⟩ := inStep.tracks
  refine ⟨⟨this, fig, tracks.isTree, tracks.sound, tracks.holds,
    tracks.latest, tracks.written, tracks.count⟩, ?_⟩
  rw [World.fillCache, if_pos enabled]
  exact inStep.mirrors.read fits below

/-- `do_write` keeps a file in step. -/
theorem InStep.ensures_doWrite
    (inStep : InStep env world)
    (enabled : env.useCache = true)
    (takes : env.takes true = true)
    (fits : FillFits env.block world.log world.cache offset buf.length)
    (below : offset + buf.length ≤ byteIndexMax)
    (way : world.WayLoaded env ⟨buf, offset, other⟩)
    (info : FileInfo) :
    Ensures (doWrite env true buf offset info)
      (fun _ next => InStep env next ∧
        next.log = world.log ++ [dataRecord info buf offset] ∧
        next.cache = world.cache.write offset buf) world := by
  obtain ⟨this, fig, tracks⟩ := inStep.tracks
  refine (File.ensures_doWrite tracks takes
    (fun _ => Or.inl le_rfl) below (way this fig tracks.isTree tracks.sound tracks.holds) info).mono ?_
  rintro _ next ⟨this', fig', heap, isNext, isLog, tracks'⟩
  have isCache : next.cache = world.cache.write offset buf := by
    rw [isNext]
    change (world.fillCache env buf offset).cache = _
    rw [World.fillCache, if_pos enabled]
  refine ⟨⟨⟨this', fig', tracks'⟩, ?_⟩, isLog, isCache⟩
  rw [isLog, isCache]
  exact inStep.mirrors.write fits below info

end InStep

end File
end Gdpfs
