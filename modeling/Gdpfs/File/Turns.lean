import Gdpfs.File.Serial

/-!
# What concurrent writers leave

Calls of `do_write` one after the other leave their records in the log, their
numbers in the index and their bytes in the cache, all in the order of the
calls.
-/

namespace Gdpfs
namespace File

open Log FigTree Effect
open Cells (Owns Holds cell Store)

/-- The records of some calls. -/
def records (calls : Fin n → WriteArgs) (order : List (Fin n)) :
    List LogRecord :=
  order.map fun i =>
    dataRecord (calls i).info (calls i).buf (calls i).offset

section Cache

variable {cache : CacheFile} {offset : Nat} {buf : List UInt8}

theorem getElem?_write_inside
    (lower : offset ≤ x)
    (upper : x < offset + buf.length) :
    (cache.write offset buf).bytes[x]? = some (buf.getD (x - offset) 0) := by
  unfold CacheFile.write
  rw [if_neg (by
    rw [List.isEmpty_iff]
    rintro rfl
    simp only [List.length_nil] at upper
    omega)]
  dsimp only
  rw [getElem?_overwrite, if_pos ⟨lower, upper⟩,
    List.getD_eq_getElem?_getD, List.getElem?_eq_getElem (by omega)]
  rfl

theorem getElem?_write_outside
    (outside : ¬(offset ≤ x ∧ x < offset + buf.length))
    (held : cache.bytes[x]? = some byte) :
    (cache.write offset buf).bytes[x]? = some byte := by
  unfold CacheFile.write
  split
  · exact held
  · obtain ⟨bound, _⟩ := List.getElem?_eq_some_iff.mp held
    dsimp only
    rw [getElem?_overwrite, if_neg outside, if_pos bound, held]

end Cache

section Sequence

variable {n : Nat} {env : Env} {calls : Fin n → WriteArgs}
  {regime : Regime} {start world : World} {this : Figtree} {fig : Fig}

/-- What `ft_write` does to the answers of the index. -/
theorem Indexed.answers
    {offset size : Nat}
    (indexed : Indexed env world offset size recno figtree heap)
    (isTree : world.file.figtree = some this)
    (sound : fig.Sound regime)
    (holds : Holds (FigRep (env.fetchable world.log) fig this) 0 world.heap)
    (limit : regime.limit ≤ byteIndexMax)
    (below : 0 < size → offset + size - 1 < regime.limit)
    (way : 0 < size → fig.wayLoaded (writeRange offset size) = true) :
    ∃ this' fig', figtree = some this' ∧ fig'.Sound regime ∧
      Holds (FigRep (env.fetchable world.log) fig' this') 0 heap ∧
      ∀ x, x < regime.limit → fig'.look x =
        if offset ≤ x ∧ x < offset + size then some (recno : Int)
        else fig.look x := by
  by_cases nonempty : 0 < size
  · rw [Indexed, if_pos nonempty] at indexed
    obtain ⟨_, this', isTree', rfl, run⟩ := indexed
    cases isTree.symm.trans isTree'
    have upper := below nonempty
    have start : ((offset : Int) % 4294967296).toNat = offset :=
      index_of_lt (by simp only [byteIndexMax] at limit; omega)
    have stop : (((offset : Int) + size - 1) % 4294967296).toNat =
        offset + size - 1 := by
      simp only [byteIndexMax] at limit
      omega
    rw [start, stop] at run
    have ends : offset ≤ offset + size - 1 := by omega
    obtain ⟨fig', sound', holds', changes⟩ := (ensures_of_run run).mp
      (ensures_write sound holds ends upper
        (sound.edgeClear rfl ends upper limit) (Or.inr (way nonempty)) recno)
    refine ⟨this', fig', rfl, sound', holds', fun x inside => ?_⟩
    rw [changes (way nonempty) x inside]
    by_cases covered : offset ≤ x ∧ x < offset + size
    · rw [if_pos covered, if_pos (by simp only [iInit]; omega)]
    · rw [if_neg covered, if_neg (by simp only [iInit]; omega)]
  · rw [Indexed, if_neg nonempty] at indexed
    obtain ⟨rfl, rfl⟩ := indexed
    refine ⟨this, fig, isTree, sound, holds, fun x _ => ?_⟩
    rw [if_neg (by omega)]

/-- What calls that appended some records, one after the other, leave. -/
structure Left
    (env : Env)
    (start : World)
    (datums : List LogRecord)
    (world : World)
    (this : Figtree)
    (fig : Fig) : Prop where
  isTree : world.file.figtree = some this
  sound : fig.Sound partlyLoaded
  holds : Holds (FigRep (env.fetchable world.log) fig this) 0 world.heap
  log : world.log = start.log ++ datums
  count : world.file.lastRecno = start.file.lastRecno + datums.length
  answers : ∀ x k, x < byteIndexMax → latestRecno datums x = some k →
    fig.look x = some ((start.file.lastRecno + k : Nat) : Int)
  cached : ∀ x k, latestRecno datums x = some k →
    world.cache.bytes[x]? = some (content datums x)

/-- One more call. -/
theorem Left.written
    {datums : List LogRecord}
    {call : WriteArgs}
    (left : Left env start datums world this fig)
    (enabled : env.useCache = true)
    (takes : env.takes true = true)
    (below : 0 < call.buf.length →
      call.offset + call.buf.length - 1 < byteIndexMax)
    (way : world.WayLoaded env call)
    (indexed : Indexed env world call.offset call.buf.length
      (world.file.lastRecno + 1) figtree heap) :
    ∃ this' fig', Left env start
      (datums ++ [dataRecord call.info call.buf call.offset])
      ((world.written env true call.buf call.offset call.info).withIndex
        figtree heap) this' fig' := by
  obtain ⟨this', fig', rfl, sound', holds', answers⟩ := indexed.answers
    left.isTree left.sound left.holds le_rfl below
    (way this fig left.isTree left.sound left.holds)
  have logged : (world.append (env.takes true)
      (dataRecord call.info call.buf call.offset)).log =
      world.log ++ [dataRecord call.info call.buf call.offset] := by
    rw [World.append, if_pos takes]
  refine ⟨this', fig', rfl, sound', ?_, ?_, ?_, ?_, ?_⟩
  · obtain ⟨cells, rep, owns⟩ := holds'
    refine ⟨cells, Rep.grow ?_ rep, owns⟩
    exact Env.fetchable_grow (logged.symm ▸ List.prefix_append _ _)
  · refine logged.trans ?_
    rw [left.log, List.append_assoc]
  · rw [List.length_append, List.length_singleton, ← Nat.add_assoc,
      ← left.count]
    rfl
  · intro x k inside latest
    rw [latestRecno_append] at latest
    rw [answers x inside]
    by_cases covered : call.offset ≤ x ∧
        x < call.offset + call.buf.length
    · rw [if_pos ((covers_dataRecord _ _ _ _).mpr covered)] at latest
      cases latest
      rw [if_pos covered, left.count, Nat.add_assoc]
    · rw [if_neg (mt (covers_dataRecord _ _ _ _).mp covered)] at latest
      rw [if_neg covered]
      exact left.answers x k inside latest
  · intro x k latest
    rw [latestRecno_append] at latest
    have isCache : ((world.written env true call.buf call.offset
        call.info).withIndex (some this') heap).cache =
        world.cache.write call.offset call.buf := by
      simp only [World.withIndex, World.written, World.fillCache, enabled,
        if_true]
    rw [isCache, content_dataRecord]
    by_cases covered : call.offset ≤ x ∧
        x < call.offset + call.buf.length
    · rw [if_pos covered]
      exact getElem?_write_inside covered.1 covered.2
    · rw [if_neg (mt (covers_dataRecord _ _ _ _).mp covered)] at latest
      rw [if_neg covered]
      exact getElem?_write_outside covered (left.cached x k latest)

/-- Calls one after the other. -/
theorem left_of_serialRun
    (isTree : start.file.figtree = some this)
    (sound : fig.Sound partlyLoaded)
    (holds : Holds (FigRep (env.fetchable start.log) fig this) 0 start.heap)
    (enabled : env.useCache = true)
    (takes : env.takes true = true)
    (below : ∀ i, 0 < (calls i).buf.length →
      (calls i).offset + (calls i).buf.length - 1 < byteIndexMax)
    {order : List (Fin n)}
    (ways : ∀ before i after world, order = before ++ i :: after →
      (serialRun env calls before).run start = .ok ((), world) →
      world.WayLoaded env (calls i))
    (runs : (serialRun env calls order).run start = .ok ((), world)) :
    ∃ this' fig', Left env start (records calls order) world this' fig' := by
  induction order using List.reverseRecOn generalizing world with
  | nil =>
      cases runs
      refine ⟨this, fig, isTree, sound, holds, (List.append_nil _).symm, rfl,
        ?_, ?_⟩
      · intro x k _ latest
        cases latest
      · intro x k latest
        cases latest
  | append_singleton order i inductionHypothesis =>
      rw [serialRun_append, StateT.run_bind] at runs
      cases first : (serialRun env calls order).run start with
      | error fault =>
          rw [first] at runs
          cases runs
      | ok result =>
          obtain ⟨_, middle⟩ := result
          rw [first] at runs
          obtain ⟨this', fig', left⟩ := inductionHypothesis
            (fun before j after between split => ways before j
              (after ++ [i]) between (by rw [split]; simp)) first
          have allows : Allows (serialRun env calls [i])
              (fun _ next => ∃ figtree heap,
                Indexed env middle (calls i).offset (calls i).buf.length
                  (middle.file.lastRecno + 1) figtree heap ∧
                next = (middle.written env true (calls i).buf
                  (calls i).offset (calls i).info).withIndex figtree heap)
              middle := by
            rw [serialRun, List.forM_cons, bind_assoc]
            refine (allows_doWrite _ _ _).bind fun _ _ isNext => ?_
            rw [pure_bind]
            exact allows_pure.mpr isNext
          obtain ⟨figtree, heap, indexed, rfl⟩ := allows _ _ runs
          have left' := left.written enabled takes (below i)
            (ways order i [] middle rfl first) indexed
          rw [records, List.map_append]
          exact left'

end Sequence

/-! ## All calls -/

section Turns

variable {n : Nat} {env : Env} {start : World} {this : Figtree} {fig : Fig}
  {writers : Writers n}

theorem serial_start
    (env : Env)
    (calls : Fin n → WriteArgs)
    (start : World) :
    Serial env calls start [] start (Writers.start n start) where
  locked := by
    intro lock i
    cases lock <;> simp [Writers.start, Lock.points]
  nodup := List.nodup_nil
  ended := by simp [Writers.start]
  runs := rfl
  ways := by simp
  count := rfl
  numbers := by simp
  index := rfl
  cache := rfl

/-- There is one order of the calls in which their records are in the log, in
which they are numbered, in which the last call that covers a byte is the one
that the index names, and in which it is the one whose byte is in the
cache. -/
def Serialised
    (env : Env)
    (calls : Fin n → WriteArgs)
    (start : World)
    (writers : Writers n) : Prop :=
  ∃ order : List (Fin n), order.Nodup ∧ (∀ i, i ∈ order) ∧
    writers.world.log = start.log ++ records calls order ∧
    (∀ k i, order[k]? = some i →
      writers.rc i = start.file.lastRecno + k + 1) ∧
    ∃ root, writers.world.file.figtree = some root ∧
      ∀ x k, latestRecno (records calls order) x = some k →
        Ensures (ftLookup (env.fetchable writers.world.log) root x)
          (fun value _ => value =
            some ((start.file.lastRecno + k : Nat) : Int))
          writers.world.heap ∧
        writers.world.cache.bytes[x]? =
          some (content (records calls order) x)

/-- A record of the calls covers bytes below the last byte index only. -/
theorem latestRecno_records
    {calls : Fin n → WriteArgs}
    (below : ∀ i, 0 < (calls i).buf.length →
      (calls i).offset + (calls i).buf.length - 1 < byteIndexMax)
    (latest : latestRecno (records calls order) x = some k) :
    x < byteIndexMax := by
  obtain ⟨datum, isDatum, covered, _⟩ := recordAt_latestRecno latest
  have member : datum ∈ records calls order := by
    unfold recordAt at isDatum
    split at isDatum
    · cases isDatum
    · exact List.mem_of_getElem? isDatum
  obtain ⟨i, _, rfl⟩ := List.mem_map.mp member
  have inside := (covers_dataRecord _ _ _ _).mp covered
  have := below i (by omega)
  omega

/-- Concurrent writers are serialised identically everywhere: whatever the
order of their steps, once all calls of `do_write` have returned there is one
order for the log, the index and the cache, if every `ft_write` met children in
memory only. -/
theorem writers_serialised
    (enabled : env.useCache = true)
    (writable : env.readOnly = false)
    (isTree : start.file.figtree = some this)
    (sound : fig.Sound partlyLoaded)
    (holds : Holds (FigRep (env.fetchable start.log) fig this) 0 start.heap)
    (calls : Fin n → WriteArgs)
    (below : ∀ i, 0 < (calls i).buf.length →
      (calls i).offset + (calls i).buf.length - 1 < byteIndexMax)
    (reached : Reached (writerStep env calls)
      (fun i writers => writers.point i = .index →
        writers.world.WayLoaded env (calls i))
      (Writers.start n start) writers)
    (ended : ∀ i, writers.point i = .returned) :
    Serialised env calls start writers := by
  have takes : env.takes true = true := by
    rw [Env.takes, writable]
    rfl
  obtain ⟨order, serial, invariant⟩ := reached.invariant
    (fun writers => ∃ finished serial,
      Serial env calls start finished serial writers)
    ⟨[], start, serial_start env calls start⟩ (by
      rintro i writers way ⟨finished, serial, invariant⟩
      exact invariant.allows_step enabled way)
  obtain ⟨root, fig', left⟩ := left_of_serialRun isTree sound holds enabled
    takes below invariant.ways invariant.runs
  have free : ∀ lock, writers.owner lock = none := by
    intro lock
    cases isOwner : writers.owner lock with
    | none => rfl
    | some i =>
        have inside := (invariant.locked lock i).mp isOwner
        rw [ended] at inside
        cases lock <;> exact absurd inside (by decide)
  have index := invariant.index
  rw [free] at index
  have isIndex : writers.world.index = serial.index := index
  simp only [World.index, Prod.mk.injEq] at isIndex
  obtain ⟨_, sameTree, sameHeap, sameLog⟩ := isIndex
  have idle : writers.waiting = none := by
    rw [Writers.waiting, free]
    rfl
  have sameCache : writers.world.cache = serial.cache := by
    rw [invariant.cache, free, idle]
    rfl
  refine ⟨order, invariant.nodup,
    fun i => (invariant.ended i).mpr (ended i), sameLog.trans left.log,
    invariant.numbers, root, sameTree.trans left.isTree,
    fun x k latest => ⟨?_, ?_⟩⟩
  · obtain ⟨cells, rep, owns⟩ := left.holds
    rw [sameHeap, sameLog]
    refine (ensures_ftLookup rep owns x).mono ?_
    rintro value _ rfl
    exact left.answers x k (latestRecno_records below latest) latest
  · rw [sameCache]
    exact left.cached x k latest

/-- The root of the index has no children. -/
def World.isShort (world : World) : Bool :=
  match world.file.figtree with
  | none => false
  | some this => (world.heap.read this.root).any (·.height = 0)

/-- A tree of a single node has no children to load. -/
theorem wayLoaded_of_isShort
    {world : World}
    {call : WriteArgs}
    (short : world.isShort = true)
    (below : call.offset + call.buf.length - 1 < byteIndexMax) :
    world.WayLoaded env call := by
  rintro this ⟨height, tree⟩ isTree sound ⟨cells, rep, owns⟩ nonempty
  obtain ⟨_, node, beneath, same, rfl, nodeRep⟩ := rep
  cases same
  have live := (owns.of_eq (add_assoc _ _ _)).read
  simp only [World.isShort, isTree, live, Option.any_some,
    decide_eq_true_eq] at short
  obtain rfl : 0 = height := short.symm.trans nodeRep.height
  have sound' : Fig.Sound belowMax ⟨0, tree⟩ := sound
  have ends : call.offset ≤ call.offset + call.buf.length - 1 := by omega
  exact sound'.wayLoaded id rfl ends below
    (sound'.edgeClear rfl ends below le_rfl)

end Turns

/-- Two calls whose ranges overlap. -/
def twoCalls (i : Fin 2) : WriteArgs :=
  if i = 0 then ⟨[1, 2], 0, ⟨2, .regular, 420⟩⟩
  else ⟨[3, 4], 1, ⟨3, .regular, 420⟩⟩

/-- The second call fills the cache while the first one appends. -/
theorem writers_serialised_overlapping :
    ∃ writers, Reached (writerStep cachedMount twoCalls)
        (fun i writers => writers.point i = .index →
          writers.world.WayLoaded cachedMount (twoCalls i))
        (Writers.start 2 emptyFile) writers ∧
      Serialised cachedMount twoCalls emptyFile writers := by
  obtain ⟨writers, replayed, ended⟩ := (Option.any_eq_true _ _).mp
    (show (replay (writerStep cachedMount twoCalls)
      (fun _ writers => writers.world.isShort)
      (List.replicate 10 0 ++ List.replicate 8 1 ++ List.replicate 4 0 ++
        List.replicate 6 1)
      (Writers.start 2 emptyFile)).any (fun writers =>
        decide (∀ i, writers.point i = .returned)) = true by decide +kernel)
  have below : ∀ i, 0 < (twoCalls i).buf.length →
      (twoCalls i).offset + (twoCalls i).buf.length - 1 < byteIndexMax := by
    decide
  have reached : Reached (writerStep cachedMount twoCalls)
      (fun i writers => writers.point i = .index →
        writers.world.WayLoaded cachedMount (twoCalls i))
      (Writers.start 2 emptyFile) writers := by
    have nonempty : ∀ i, 0 < (twoCalls i).buf.length := by decide
    refine reached_of_replay (fun i writers short => ?_) replayed
    intro _
    exact wayLoaded_of_isShort short (below i (nonempty i))
  have holds : Holds (FigRep (cachedMount.fetchable emptyFile.log) Fig.empty ⟨0⟩) 0
      emptyFile.heap := by
    refine ⟨cell 0 ⟨[], [⟨0, 0, none, true⟩], 0, true⟩ + 0,
      ⟨0, _, 0, rfl, rfl, rfl, rfl, rfl, ?_⟩, ?_⟩
    · refine repKids_singleton ⟨rfl, fun position impossible => ?_, rfl, rfl⟩
      cases impossible
    · exact (Owns.of_read rfl).of_eq (add_zero _).symm
  exact ⟨writers, reached, writers_serialised rfl rfl rfl
    (Fig.empty_sound _) holds twoCalls below reached
    (of_decide_eq_true ended)⟩

/-- A file of five bytes, whose index has two levels and is checkpointed. -/
def fiveBytes : List FileOp :=
  [.opens (.init .regular 420 true), .update (.write [1] 0),
    .update (.write [2] 10), .update (.write [3] 20),
    .update (.write [4] 30), .update (.write [5] 40), .chkpt]

/-- A write of the first of the five bytes. -/
def rewriteFirst (_ : Fin 1) : WriteArgs := ⟨[9], 0, ⟨41, .regular, 420⟩⟩

theorem order_of_one
    {order : List (Fin 1)}
    (nodup : order.Nodup)
    (all : ∀ i, i ∈ order) :
    order = [0] := by
  cases order with
  | nil => exact absurd (all 0) List.not_mem_nil
  | cons first rest =>
      cases rest with
      | nil => rw [Subsingleton.elim first 0]
      | cons second others =>
          rw [Subsingleton.elim second first, List.nodup_cons] at nodup
          exact absurd List.mem_cons_self nodup.1

/-- After a file is opened again, what is written below a child that is not in
memory is lost to the index. -/
theorem reopened_write_is_lost :
    ∃ start writers,
      replay (FileOp.run cachedMount true) (fun _ _ => true)
        [.opens .any] (storedFile (logAfter fiveBytes)) = some start ∧
      Reached (writerStep cachedMount rewriteFirst) (fun _ _ => True)
        (Writers.start 1 start) writers ∧
      (∀ i, writers.point i = .returned) ∧
      ¬Serialised cachedMount rewriteFirst start writers := by
  obtain ⟨start, opened, later⟩ := (Option.any_eq_true _ _).mp
    (show (replay (FileOp.run cachedMount true) (fun _ _ => true)
        [.opens .any] (storedFile (logAfter fiveBytes))).any (fun start =>
      (replay (writerStep cachedMount rewriteFirst) (fun _ _ => true)
        (List.replicate 14 0) (Writers.start 1 start)).any fun writers =>
          decide ((∀ i, writers.point i = .returned) ∧
            writers.world.lookup cachedMount 0 ≠
              some (some ((start.file.lastRecno + 1 : Nat) : Int)))) = true by
      decide +kernel)
  obtain ⟨writers, replayed, ended⟩ := (Option.any_eq_true _ _).mp later
  obtain ⟨ended, differs⟩ := of_decide_eq_true ended
  refine ⟨start, writers, opened,
    reached_of_replay (fun _ _ _ => trivial) replayed, ended, ?_⟩
  rintro ⟨order, nodup, all, _, _, root, isTree, named⟩
  obtain rfl := order_of_one nodup all
  obtain ⟨⟨value, next, run, isValue⟩, _⟩ := named 0 1 rfl
  refine differs ?_
  rw [World.lookup, isTree]
  dsimp only
  rw [lookupOf, run]
  exact congrArg some isValue

end File
end Gdpfs
