import Gdpfs.File.Plain
import Mathlib.Data.List.Induction

/-!
# Opening a file replays its log

`open_file` looks for the last checkpoint of the log, from its end backwards,
and then writes the records after it to the index and to the cache, the oldest
first.
-/

namespace Gdpfs
namespace File

open Log FigTree Effect
open Cells (Owns Holds cell Store)

/-! ## Looking for the last checkpoint -/

/-- The number of the newest checkpoint, or zero; the newest record is listed
first. -/
def newestChkpt : List LogRecord → Nat
  | [] => 0
  | datum :: older =>
      if datum.header.logentType = .chkpt then older.length + 1
      else newestChkpt older

/-- The number of the last checkpoint of a log, or zero. -/
def lastChkpt (log : List LogRecord) : Nat := newestChkpt log.reverse

/-- The records after the last checkpoint of a log. -/
def afterChkpt (log : List LogRecord) : List LogRecord :=
  log.drop (lastChkpt log)

/-- Records with their numbers. -/
def numbered (first : Nat) : List LogRecord → List (Nat × LogRecord)
  | [] => []
  | datum :: rest => (first, datum) :: numbered (first + 1) rest

theorem numbered_append (first : Nat) (log rest : List LogRecord) :
    numbered first (log ++ rest) =
      numbered first log ++ numbered (first + log.length) rest := by
  induction log generalizing first with
  | nil => rfl
  | cons datum log inductionHypothesis =>
      rw [List.cons_append, numbered, numbered, inductionHypothesis,
        List.length_cons, Nat.add_assoc, Nat.add_comm 1, List.cons_append]

theorem lastChkpt_concat (log : List LogRecord) (datum : LogRecord) :
    lastChkpt (log ++ [datum]) =
      if datum.header.logentType = .chkpt then log.length + 1
      else lastChkpt log := by
  rw [lastChkpt, List.reverse_append, List.reverse_singleton,
    List.singleton_append, newestChkpt, List.length_reverse]
  rfl

theorem lastChkpt_le (log : List LogRecord) :
    lastChkpt log ≤ log.length := by
  induction log using List.reverseRecOn with
  | nil => exact Nat.zero_le _
  | append_singleton log datum inductionHypothesis =>
      rw [lastChkpt_concat, List.length_append, List.length_singleton]
      split
      · exact le_rfl
      · omega

theorem afterChkpt_concat
    (log : List LogRecord)
    (datum : LogRecord) :
    afterChkpt (log ++ [datum]) =
      if datum.header.logentType = .chkpt then []
      else afterChkpt log ++ [datum] := by
  rw [afterChkpt, lastChkpt_concat]
  split
  · apply List.drop_of_length_le
    rw [List.length_append, List.length_singleton]
  · rw [List.drop_append_of_le_length (lastChkpt_le log)]
    rfl

theorem take_succ_of_recordAt
    {log : List LogRecord}
    (found : recordAt log (recno + 1) = some datum) :
    log.take (recno + 1) = log.take recno ++ [datum] := by
  have isDatum : log[recno]? = some datum := found
  rw [List.take_add_one, isDatum]
  rfl

/-- The records that the backward scan collects. -/
def collected (log : List LogRecord) : List (Nat × LogRecord) :=
  numbered (lastChkpt log + 1) (afterChkpt log)

theorem collected_concat
    (log : List LogRecord)
    (datum : LogRecord)
    (data : datum.header.logentType ≠ .chkpt) :
    collected (log ++ [datum]) =
      collected log ++ [(log.length + 1, datum)] := by
  rw [collected, collected, afterChkpt_concat, if_neg data, lastChkpt_concat,
    if_neg data, numbered_append]
  have count : lastChkpt log + 1 + (afterChkpt log).length =
      log.length + 1 := by
    rw [afterChkpt, List.length_drop]
    have := lastChkpt_le log
    omega
  rw [count]
  rfl

theorem readFmeta_of_size
    {datum : LogRecord}
    (size : datum.header.entSize = datum.payload.size) :
    readFmeta ⟨datum, 0⟩ =
      .ok (datum.header, gdpfsLogEntDrain ⟨datum, 0⟩ sizeofFmeta) := by
  rw [readFmeta, if_pos]
  rw [gdpfsLogEntLength, size, Nat.sub_zero]

theorem size_of_readFmeta
    {datum : LogRecord}
    (reads : readFmeta ⟨datum, 0⟩ = .ok (entry, ent)) :
    datum.header.entSize = datum.payload.size ∧ entry = datum.header := by
  unfold readFmeta at reads
  split at reads
  · next size =>
      cases reads
      rw [gdpfsLogEntLength, Nat.sub_zero] at size
      exact ⟨(Nat.add_left_cancel size).symm, rfl⟩
  · cases reads

/-- The backward scan stops at the last checkpoint and collects the records
after it. -/
theorem allows_scanBack_collected
    (log : List LogRecord)
    (recno : Nat)
    (ents : List (Nat × LogRecord))
    (world : World)
    (sized : ∀ ent ∈ ents, ent.2.header.entSize = ent.2.payload.size) :
    Allows (scanBack log recno ents)
      (fun found next => next = world ∧
        found = (lastChkpt (log.take recno),
          collected (log.take recno) ++ ents) ∧
        ∀ ent ∈ found.2, ent.2.header.entSize = ent.2.payload.size)
      world := by
  induction recno generalizing ents with
  | zero => exact allows_pure.mpr ⟨rfl, rfl, sized⟩
  | succ recno inductionHypothesis =>
      rw [scanBack, gdpfsLogEntOpen]
      cases found : recordAt log (recno + 1) with
      | none => exact allows_throw
      | some datum =>
          rw [Option.map_some]
          dsimp only
          split
          · exact allows_throw
          · next entry _ reads =>
              obtain ⟨size, rfl⟩ := size_of_readFmeta reads
              obtain ⟨shorter, _⟩ := List.getElem?_eq_some_iff.mp
                (show log[recno]? = some datum from found)
              rw [take_succ_of_recordAt found]
              split
              · next isChkpt =>
                  refine allows_pure.mpr ⟨rfl, ?_, sized⟩
                  rw [lastChkpt_concat, if_pos isChkpt, collected,
                    afterChkpt_concat, if_pos isChkpt, List.length_take,
                    Nat.min_eq_left (by omega)]
                  rfl
              · next isData =>
                  have sized' : ∀ ent ∈ (recno + 1, datum) :: ents,
                      ent.2.header.entSize = ent.2.payload.size := by
                    intro ent member
                    rcases List.mem_cons.mp member with rfl | older
                    · exact size
                    · exact sized ent older
                  refine (inductionHypothesis _ sized').mono ?_
                  rintro found next ⟨same, isFound, all⟩
                  refine ⟨same, ?_, all⟩
                  rw [isFound, lastChkpt_concat, if_neg isData,
                    collected_concat _ _ isData, List.length_take,
                    Nat.min_eq_left (by omega), List.append_assoc]
                  rfl

/-! ## Replaying the records -/

/-- The cache after a record was copied into it. -/
def CacheFile.populate :
    (fuel : Nat) → CacheFile → List UInt8 → Nat → CacheFile
  | 0, cache, _, _ => cache
  | fuel + 1, cache, buf, offset =>
      if buf.isEmpty then cache
      else
        populate fuel (cache.write offset (buf.take 1024)) (buf.drop 1024)
          (offset + 1024)

theorem run_populateCache
    {env : Env}
    (enabled : env.useCache = true)
    (fuel : Nat)
    (buf : List UInt8)
    (offset : Nat)
    (world : World) :
    (populateCache env fuel buf offset).run world =
      .ok ((), { world with
        cache := world.cache.populate fuel buf offset }) := by
  induction fuel generalizing buf offset world with
  | zero => rfl
  | succ fuel inductionHypothesis =>
      rw [populateCache, CacheFile.populate]
      split
      · rfl
      · rw [run_bind_of_run (run_gdpfsFileFillCache _ _ _ _), if_pos enabled,
          inductionHypothesis, World.fillCache, if_pos enabled]

/-- Filling a cache replaces the bytes that it is filled with. -/
theorem getElem?_write
    (cache : CacheFile)
    (buf : List UInt8)
    (inside : offset ≤ x ∧ x < offset + buf.length) :
    (cache.write offset buf).bytes[x]? = buf[x - offset]? := by
  have nonempty : ¬buf.isEmpty = true := by
    intro empty
    rw [List.isEmpty_iff.mp empty, List.length_nil] at inside
    omega
  rw [CacheFile.write, if_neg nonempty]
  exact (getElem?_overwrite _ _ _ _).trans (if_pos inside)

/-- The other bytes of a cache stay. -/
theorem getElem?_write_of_some
    {cache : CacheFile}
    {buf : List UInt8}
    (outside : ¬(offset ≤ x ∧ x < offset + buf.length))
    (held : cache.bytes[x]? = some byte) :
    (cache.write offset buf).bytes[x]? = some byte := by
  obtain ⟨bound, _⟩ := List.getElem?_eq_some_iff.mp held
  rw [CacheFile.write]
  split
  · exact held
  · refine (getElem?_overwrite _ _ _ _).trans ?_
    rw [if_neg outside, if_pos bound, held]

theorem getElem?_populate_of_some
    {cache : CacheFile}
    {buf : List UInt8}
    (outside : ¬(offset ≤ x ∧ x < offset + buf.length))
    (held : cache.bytes[x]? = some byte) :
    (cache.populate fuel buf offset).bytes[x]? = some byte := by
  induction fuel generalizing cache buf offset with
  | zero => exact held
  | succ fuel inductionHypothesis =>
      rw [CacheFile.populate]
      split
      · exact held
      · apply inductionHypothesis
        · rw [List.length_drop]
          omega
        · apply getElem?_write_of_some _ held
          rw [List.length_take]
          omega

/-- A copied record is in the cache. -/
theorem getElem?_populate
    (cache : CacheFile)
    {buf : List UInt8}
    (inside : offset ≤ x ∧ x < offset + buf.length)
    (enough : buf.length ≤ fuel) :
    (cache.populate fuel buf offset).bytes[x]? = buf[x - offset]? := by
  induction fuel generalizing cache buf offset with
  | zero => omega
  | succ fuel inductionHypothesis =>
      have nonempty : ¬buf.isEmpty = true := by
        intro empty
        rw [List.isEmpty_iff.mp empty, List.length_nil] at inside
        omega
      rw [CacheFile.populate, if_neg nonempty]
      by_cases early : x < offset + 1024
      · have here : offset ≤ x ∧ x < offset + (buf.take 1024).length := by
          rw [List.length_take]
          omega
        obtain ⟨byte, isByte⟩ : ∃ byte, buf[x - offset]? = some byte :=
          ⟨_, List.getElem?_eq_getElem (by omega)⟩
        have held := getElem?_write cache (buf.take 1024) here
        rw [List.getElem?_take_of_lt (by omega), isByte] at held
        rw [getElem?_populate_of_some (by omega) held, isByte]
      · have place : 1024 + (x - (offset + 1024)) = x - offset := by omega
        rw [inductionHypothesis _ (by rw [List.length_drop]; omega)
          (by rw [List.length_drop]; omega), List.getElem?_drop, place]

section Replay

variable {env : Env} {regime : Regime} {world : World} {this : Figtree}
  {fig : Fig}

/-- A data record, and where its bytes are in the file. -/
structure IsData
    (datum : LogRecord)
    (contents : List UInt8)
    (origin : Nat) : Prop where
  type : datum.header.logentType = .data
  payload : datum.payload = .bytes contents
  size : datum.header.entSize = contents.length
  place : datum.header.entOffset = (origin : Int)

/-- The index and the cache after some records were replayed. -/
structure Rebuilt
    (env : Env)
    (regime : Regime)
    (done : List LogRecord)
    (world : World)
    (this : Figtree)
    (fig : Fig) : Prop where
  isTree : world.file.figtree = some this
  sound : fig.Sound regime
  holds : Holds (FigRep (env.fetchable world.log) fig this) 0 world.heap
  latest : ∀ x, x < regime.limit →
    fig.look x = (latestRecno done x).map Int.ofNat
  cached : ∀ x recno, latestRecno done x = some recno →
    world.cache.bytes[x]? = some (content done x)

/-- Replaying a record indexes its bytes and copies them into the cache. -/
theorem ensures_replayRecord_index
    (enabled : env.useCache = true)
    (isTree : world.file.figtree = some this)
    (sound : fig.Sound regime)
    (holds : Holds (FigRep (env.fetchable world.log) fig this) 0 world.heap)
    (latest : ∀ x, x < regime.limit →
      fig.look x = (latestRecno done x).map Int.ofNat)
    (limit : regime.limit ≤ byteIndexMax)
    (data : IsData datum contents origin)
    (below : origin + contents.length ≤ regime.limit)
    (way : 0 < contents.length →
      fig.wayLoaded (writeRange origin contents.length) = true) :
    Ensures (replayRecord env (done.length + 1) datum)
      (fun _ next => ∃ this' fig' heap,
        next = { world with
          file := { world.file with figtree := some this' }
          heap := heap
          cache := world.cache.populate contents.length contents origin } ∧
        fig'.Sound regime ∧
        Holds (FigRep (env.fetchable world.log) fig' this') 0 heap ∧
        ∀ x, x < regime.limit →
          fig'.look x = (latestRecno (done ++ [datum]) x).map Int.ofNat)
      world := by
  have covered : ∀ x, covers datum x = true ↔
      origin ≤ x ∧ x < origin + contents.length :=
    fun x => covers_eq data.payload data.place
  rw [replayRecord, data.size]
  by_cases nonempty : 0 < contents.length
  · rw [if_pos nonempty, data.place]
    refine (ensures_indexWrite isTree sound holds (Or.inl limit) nonempty
      below (way nonempty) (done.length + 1)).bind ?_
    rintro _ _ ⟨this', fig', heap, rfl, sound', holds', looks⟩
    rw [readBytes, data.payload]
    dsimp only
    rw [pure_bind, Nat.sub_self, List.drop_zero, List.take_length,
      Int.toNat_natCast, ensures_of_run (run_populateCache enabled _ _ _ _)]
    refine ⟨this', fig', heap, rfl, sound', holds', fun x inside => ?_⟩
    rw [looks x inside, latestRecno_append]
    by_cases here : covers datum x = true
    · rw [if_pos ((covered x).mp here), if_pos here]
      rfl
    · rw [if_neg (mt (covered x).mpr here), if_neg here, latest x inside]
  · have none : ∀ x, ¬covers datum x = true := by
      intro x here
      have range := (covered x).mp here
      omega
    rw [if_neg nonempty, ensures_pure,
      List.length_eq_zero_iff.mp (Nat.eq_zero_of_not_pos nonempty)]
    refine ⟨this, fig, world.heap, ?_, sound, holds, fun x inside => ?_⟩
    · rw [← isTree]
      rfl
    · rw [latestRecno_append, if_neg (none x), latest x inside]

/-- Replaying a record to an index and a cache of the records before it. -/
theorem ensures_replayRecord
    (enabled : env.useCache = true)
    (rebuilt : Rebuilt env regime done world this fig)
    (limit : regime.limit ≤ byteIndexMax)
    (data : IsData datum contents origin)
    (below : origin + contents.length ≤ regime.limit)
    (way : 0 < contents.length →
      fig.wayLoaded (writeRange origin contents.length) = true) :
    Ensures (replayRecord env (done.length + 1) datum)
      (fun _ next => next.log = world.log ∧
        next.file = { world.file with figtree := next.file.figtree } ∧
        ∃ this' fig', Rebuilt env regime (done ++ [datum]) next this' fig')
      world := by
  have covered : ∀ x, covers datum x = true ↔
      origin ≤ x ∧ x < origin + contents.length :=
    fun x => covers_eq data.payload data.place
  refine (ensures_replayRecord_index enabled rebuilt.isTree rebuilt.sound
    rebuilt.holds rebuilt.latest limit data below way).mono ?_
  rintro _ _ ⟨this', fig', heap, rfl, sound', holds', latest'⟩
  refine ⟨rfl, rfl, this', fig', rfl, sound', holds', latest', ?_⟩
  intro x recno found
  rw [latestRecno_append] at found
  rw [content_append]
  by_cases here : covers datum x = true
  · have range := (covered x).mp here
    rw [if_pos here, getElem?_populate _ range le_rfl,
      byteOf_eq data.payload data.place range.1,
      List.getD_eq_getElem?_getD, List.getElem?_eq_getElem (by omega)]
    rfl
  · rw [if_neg here] at found
    rw [if_neg here]
    exact getElem?_populate_of_some (mt (covered x).mpr here)
      (rebuilt.cached x recno found)

/-- Replaying records to a tree in memory, the oldest first. -/
theorem ensures_replay
    {done rest : List LogRecord}
    (enabled : env.useCache = true)
    (rebuilt : Rebuilt env belowMax done world this fig)
    (data : ∀ datum ∈ rest, ∃ contents origin, IsData datum contents origin ∧
      origin + contents.length ≤ byteIndexMax) :
    Ensures (forM (numbered (done.length + 1) rest) fun ent =>
        replayRecord env ent.1 ent.2)
      (fun _ next => next.log = world.log ∧
        next.file = { world.file with figtree := next.file.figtree } ∧
        ∃ this' fig', Rebuilt env belowMax (done ++ rest) next this' fig')
      world := by
  induction rest generalizing done world this fig with
  | nil =>
      refine ensures_pure.mpr ⟨rfl, rfl, this, fig, ?_⟩
      rw [List.append_nil]
      exact rebuilt
  | cons datum rest inductionHypothesis =>
      obtain ⟨contents, origin, isData, below⟩ :=
        data datum List.mem_cons_self
      have way : 0 < contents.length →
          fig.wayLoaded (writeRange origin contents.length) = true := by
        intro nonempty
        have ends : origin ≤ origin + contents.length - 1 := by omega
        have upper : origin + contents.length - 1 < belowMax.limit := by
          have same : belowMax.limit = byteIndexMax := rfl
          omega
        exact rebuilt.sound.wayLoaded id rfl ends upper
          (rebuilt.sound.edgeClear rfl ends upper le_rfl)
      rw [numbered, List.forM_cons]
      refine (ensures_replayRecord enabled rebuilt le_rfl isData below
        way).bind ?_
      rintro _ next ⟨sameLog, sameFile, this', fig', rebuilt'⟩
      have rest' := inductionHypothesis rebuilt'
        fun other member => data other (List.mem_cons_of_mem _ member)
      rw [List.length_append, List.length_singleton] at rest'
      refine rest'.mono ?_
      rintro _ last ⟨sameLog', sameFile', this'', fig'', rebuilt''⟩
      refine ⟨sameLog'.trans sameLog, ?_, this'', fig'', ?_⟩
      · rw [sameFile', sameFile]
      · rwa [List.append_assoc] at rebuilt''

/-- The backward scan goes through a log whose records have the sizes that
their headers say. -/
theorem ensures_scanBack
    {log : List LogRecord}
    (sized : ∀ datum ∈ log, datum.header.entSize = datum.payload.size)
    (within : recno ≤ log.length)
    (ents : List (Nat × LogRecord)) :
    Ensures (scanBack log recno ents) (fun _ _ => True) world := by
  induction recno generalizing ents with
  | zero => exact ensures_pure.mpr trivial
  | succ recno inductionHypothesis =>
      have found : recordAt log (recno + 1) = some log[recno] :=
        List.getElem?_eq_getElem within
      rw [scanBack, gdpfsLogEntOpen, found, Option.map_some]
      dsimp only
      rw [readFmeta_of_size (sized _ (List.getElem_mem _))]
      dsimp only
      split
      · exact ensures_pure.mpr trivial
      · exact inductionHypothesis (Nat.le_of_succ_le within) _

theorem lastChkpt_of_data
    {log : List LogRecord}
    (data : ∀ datum ∈ log, datum.header.logentType ≠ .chkpt) :
    lastChkpt log = 0 := by
  induction log using List.reverseRecOn with
  | nil => rfl
  | append_singleton log datum inductionHypothesis =>
      rw [lastChkpt_concat, if_neg (data datum (by simp))]
      exact inductionHypothesis fun other member =>
        data other (List.mem_append_left _ member)

/-- Building the index of a log without checkpoints. -/
theorem ensures_buildIndex
    (enabled : env.useCache = true)
    (nonempty : world.log ≠ [])
    (data : ∀ datum ∈ world.log, ∃ contents origin,
      IsData datum contents origin ∧
        origin + contents.length ≤ byteIndexMax) :
    Ensures (buildIndex env)
      (fun _ next => next.log = world.log ∧
        next.file.lastRecno = world.log.length ∧
        ∃ this fig, Rebuilt env belowMax world.log next this fig) world := by
  have sized : ∀ datum ∈ world.log,
      datum.header.entSize = datum.payload.size := by
    intro datum member
    obtain ⟨contents, origin, isData, _⟩ := data datum member
    rw [isData.size, isData.payload]
    rfl
  have noChkpt : ∀ datum ∈ world.log, datum.header.logentType ≠ .chkpt := by
    intro datum member
    obtain ⟨contents, origin, isData, _⟩ := data datum member
    rw [isData.type]
    decide
  have none := lastChkpt_of_data noChkpt
  rw [buildIndex, ensures_bind, ensures_get]
  dsimp only
  rw [if_neg (by simpa using nonempty),
    ensures_run_bind (run_modifyFile _ _)]
  refine ((allows_scanBack_collected _ _ _ _ ?_).ensures
    (ensures_scanBack sized le_rfl [])).bind ?_
  · exact fun _ impossible => absurd impossible List.not_mem_nil
  rintro _ _ ⟨rfl, rfl, _⟩
  rw [List.take_length, List.append_nil, collected, afterChkpt, none,
    List.drop_zero]
  dsimp only
  rw [if_pos rfl]
  obtain ⟨this, heap, run, holds⟩ :=
    (@ensures_ftInit (env.fetchable world.log)) (Owns.nothing world.heap)
  refine (ensures_run_bind (run_onTree run)).mpr ?_
  rw [ensures_run_bind (run_modifyFile _ _)]
  have started : Rebuilt env belowMax [] (World.mk
      { world.file with lastRecno := world.log.length, figtree := some this }
      heap world.log world.cache) this Fig.empty := by
    refine ⟨rfl, Fig.empty_sound _, holds, fun x _ => rfl, ?_⟩
    intro x recno impossible
    cases impossible
  refine (ensures_replay enabled started data).bind ?_
  rintro _ next ⟨sameLog, sameFile, this', fig', rebuilt⟩
  rw [ensures_of_run (run_modifyFile _ _)]
  refine ⟨sameLog, ?_, this', fig', rebuilt.isTree, rebuilt.sound,
    rebuilt.holds, rebuilt.latest, rebuilt.cached⟩
  dsimp only
  rw [sameFile]

/-- Checking the type of a file that is not created. -/
theorem run_openType
    (type : FileType)
    (perm : Nat) :
    (openType env appends type perm false false).run world =
      .ok (decide (type = .unknown ∨ world.info.fileType = type),
        if type = .unknown then world else world.withInfo world.info) := by
  rw [openType]
  by_cases unknown : type = .unknown
  · rw [if_pos unknown, if_pos unknown, decide_eq_true (Or.inl unknown)]
    rfl
  · rw [if_neg unknown, if_neg unknown,
      run_bind_of_run (run_getInfoRaw world), if_neg Bool.false_ne_true]
    simp only [unknown, false_or]
    rfl

/-- A byte past the limit of all records is not covered. -/
theorem latestRecno_past
    {log : List LogRecord}
    (data : ∀ datum ∈ log, ∃ contents origin, IsData datum contents origin ∧
      origin + contents.length ≤ limit)
    (past : limit ≤ x) :
    latestRecno log x = none := by
  cases found : latestRecno log x with
  | none => rfl
  | some recno =>
      obtain ⟨datum, isDatum, covered, _⟩ := recordAt_latestRecno found
      have member : datum ∈ log := by
        unfold recordAt at isDatum
        split at isDatum
        · cases isDatum
        · exact List.mem_of_getElem? isDatum
      obtain ⟨contents, origin, isData, below⟩ := data datum member
      have range := (covers_eq isData.payload isData.place).mp covered
      omega

end Replay

/-- Opening a file with a log of data records, and a cache, finishes if the type
is right with all records counted, an index that finds for every byte the last
record that covers it, and a cache with the bytes of these records. -/
theorem open_rebuilds_index
    {env : Env}
    {world : World}
    (enabled : env.useCache = true)
    (fresh : world.file = GdpfsFile.zero)
    (nonempty : world.log ≠ [])
    (data : ∀ datum ∈ world.log, ∃ contents origin,
      IsData datum contents origin ∧
        origin + contents.length ≤ byteIndexMax)
    (appends : Bool)
    (type : FileType)
    (perm : Nat) :
    Ensures (openFile env appends type perm false false)
      (fun ok next =>
        (ok = true ↔
          type = .unknown ∨ (loadInfo world.log).fileType = type) ∧
        (ok = true → next.log = world.log ∧
          next.file.lastRecno = world.log.length ∧
          ∃ this, next.file.figtree = some this ∧
            (∀ x, Ensures (ftLookup (env.fetchable next.log) this x)
              (fun value _ =>
                value = (latestRecno world.log x).map Int.ofNat)
              next.heap) ∧
            ∀ x recno, latestRecno world.log x = some recno →
              ∃ datum, recordAt world.log recno = some datum ∧
                next.cache.bytes[x]? = some (byteOf datum x))) world := by
  rw [openFile, ensures_run_bind (run_modifyFile _ _),
    ensures_run_bind (run_modifyFile _ _), ensures_run_bind (run_openType _ _)]
  have info : (World.mk
      { fileRef world.file with
        newFile := (fileRef world.file).newFile || false }
      world.heap world.log world.cache).info = loadInfo world.log := by
    rw [World.info, fresh]
    rfl
  rw [info]
  by_cases right : type = .unknown ∨ (loadInfo world.log).fileType = type
  · rw [decide_eq_true right, if_pos rfl]
    generalize isMiddle : ite (type = .unknown) _ _ = middle
    have sameLog : middle.log = world.log := by
      rw [← isMiddle]
      split <;> rfl
    have unbuilt : ¬middle.file.figtreeInitialized = true := by
      rw [← isMiddle, fresh]
      split <;> exact Bool.false_ne_true
    rw [openIndex, bind_assoc, ensures_bind, ensures_get,
      if_neg Bool.false_ne_true, if_neg unbuilt]
    rw [← sameLog] at nonempty data ⊢
    refine (ensures_buildIndex enabled nonempty data).bind ?_
    rintro _ next ⟨sameLog', count, this, fig, rebuilt⟩
    refine ensures_pure.mpr ⟨⟨fun _ => ?_, fun _ => rfl⟩, fun _ =>
      ⟨sameLog', count, this, rebuilt.isTree, fun x => ?_, ?_⟩⟩
    · rw [sameLog]
      exact right
    · obtain ⟨cells, rep, owns⟩ := rebuilt.holds
      refine (ensures_ftLookup rep owns x).mono ?_
      rintro value _ rfl
      by_cases inside : x < byteIndexMax
      · exact rebuilt.latest x inside
      · have past := Nat.le_of_not_lt inside
        rw [latestRecno_past data past]
        exact Sound.look_past rebuilt.sound past
    · intro x recno found
      obtain ⟨datum, isDatum, _, same⟩ := recordAt_latestRecno found
      refine ⟨datum, isDatum, ?_⟩
      rw [rebuilt.cached x recno found, same]
  · rw [decide_eq_false right, if_neg Bool.false_ne_true,
      ensures_run_bind (run_modifyFile _ _), ensures_pure]
    exact ⟨⟨fun impossible => absurd impossible Bool.false_ne_true,
      fun isRight => absurd isRight right⟩,
      fun impossible => absurd impossible Bool.false_ne_true⟩

/-- An empty record, three bytes, and a byte that is written again. -/
def overlappingLog : List LogRecord :=
  [dataRecord ⟨0, .regular, 420⟩ [] 0,
    dataRecord ⟨3, .regular, 420⟩ [1, 2, 3] 0,
    dataRecord ⟨3, .regular, 420⟩ [9] 1]

theorem isData_dataRecord
    (info : FileInfo)
    (buf : List UInt8)
    (offset : Nat) :
    IsData (dataRecord info buf offset) buf offset :=
  ⟨rfl, rfl, rfl, rfl⟩

theorem open_rebuilds_index_overlapping :
    Ensures (openFile cachedMount true .regular 0 false false)
      (fun ok next =>
        (ok = true ↔ FileType.regular = .unknown ∨
          (loadInfo overlappingLog).fileType = .regular) ∧
        (ok = true → next.log = overlappingLog ∧
          next.file.lastRecno = overlappingLog.length ∧
          ∃ this, next.file.figtree = some this ∧
            (∀ x, Ensures (ftLookup (cachedMount.fetchable next.log) this x)
              (fun value _ =>
                value = (latestRecno overlappingLog x).map Int.ofNat)
              next.heap) ∧
            ∀ x recno, latestRecno overlappingLog x = some recno →
              ∃ datum, recordAt overlappingLog recno = some datum ∧
                next.cache.bytes[x]? = some (byteOf datum x)))
      (storedFile overlappingLog) := by
  have data : ∀ datum ∈ overlappingLog, ∃ contents origin,
      IsData datum contents origin ∧
        origin + contents.length ≤ byteIndexMax := by
    intro datum member
    simp only [overlappingLog, List.mem_cons, List.not_mem_nil,
      or_false] at member
    rcases member with rfl | rfl | rfl
    · exact ⟨_, _, isData_dataRecord _ _ _, by decide⟩
    · exact ⟨_, _, isData_dataRecord _ _ _, by decide⟩
    · exact ⟨_, _, isData_dataRecord _ _ _, by decide⟩
  exact open_rebuilds_index rfl rfl (List.cons_ne_nil _ _) data true .regular 0

end File
end Gdpfs
