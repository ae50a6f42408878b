import Gdpfs.File.Hits

/-!
# Concurrent calls of `do_read` and `do_write` (`gdpfs_file.c`)

Any number of threads that each call `do_read` or `do_write` on one file, where
every section under `cache_lock` or `figtree_lock` is a step, and a cache that
knows for every byte whether it is valid.  Between the section in which a read
fetches bytes and the one in which it fills the cache with them, another call
may write them.
-/

namespace Gdpfs
namespace File

open Log FigTree Effect

/-! ## The calls -/

/-- A call on a file. -/
inductive Call
  | read (size offset : Nat)
  | write (args : WriteArgs)
  deriving DecidableEq, Repr

/-- The next section of a call, with what it remembers. -/
inductive CallPoint
  | entered
  /-- A read looks into the cache. -/
  | check (size : Nat)
  /-- A read that missed goes through the index. -/
  | fetch (size : Nat)
  /-- A read fills the cache with what it fetched. -/
  | fill (buf : List UInt8)
  | returned
  deriving DecidableEq, Repr

/-- A section of a call: what it does to the file, and the point at which the
call goes on. -/
def callSection (env : Env) : Call → CallPoint → Option (FileM CallPoint)
  | .read size offset, .entered => some do
      let info ← getInfoRaw
      match readSize info.fileSize size offset with
      | none => pure .returned
      | some size => pure (.check size)
  | .read _ offset, .check size => some do
      let world ← get
      match getCache env world.file.newFile world.cache size offset with
      | some _ => pure .returned
      | none => pure (if 0 < size then .fetch size else .returned)
  | .read _ offset, .fetch size => some do
      let buf ← readIndex env size offset
      pure (.fill buf)
  | .read _ offset, .fill buf => some do
      let _ ← gdpfsFileFillCache env buf offset
      pure .returned
  | .write args, .entered => some do
      let _ ← doWrite env true args.buf args.offset args.info
      pure .returned
  | _, _ => none

/-- A file and the calls on it. -/
structure Calls (n : Nat) where
  world : World
  point : Fin n → CallPoint

/-- All calls are about to start. -/
def Calls.start (n : Nat) (world : World) : Calls n where
  world := world
  point := fun _ => .entered

/-- A call executes its next section. -/
def callStep (env : Env) (calls : Fin n → Call) (i : Fin n) :
    StateT (Calls n) (Except WriterFault) Unit := do
  let state ← get
  match callSection env (calls i) (state.point i) with
  | none => throw .returned
  | some action =>
      match action.run state.world with
      | .ok (point, world) =>
          set (Calls.mk world (Function.update state.point i point))
      | .error fault => throw (.file fault)

/-- A read has fetched bytes of the range and has not filled the cache with
them yet. -/
def Calls.Holding
    (calls : Fin n → Call)
    (state : Calls n)
    (j : Fin n)
    (offset : Nat)
    (buf : List UInt8) : Prop :=
  (∃ size, calls j = .read size offset) ∧ state.point j = .fill buf

/-- A section that keeps the cache right: a write overlaps no range that a read
has fetched and not filled in yet.  Besides, calls stay below the last byte
index, and a write meets no child of the index that is not in memory. -/
def SectionFits
    (env : Env)
    (calls : Fin n → Call)
    (i : Fin n)
    (state : Calls n) : Prop :=
  (∀ args, calls i = .write args →
    env.takes true = true ∧ args.offset + args.buf.length ≤ byteIndexMax ∧
      state.world.WayLoaded env args ∧
      ∀ j offset buf, state.Holding calls j offset buf →
        args.offset + args.buf.length ≤ offset ∨
          offset + buf.length ≤ args.offset) ∧
  ∀ size offset count, calls i = .read size offset →
    state.point i = .fetch count → offset + count ≤ byteIndexMax

/-! ## Validity of single bytes -/

/-- The parts of a cache file that were written are in the file. -/
def Bounded (cache : CacheFile) : Prop :=
  ∀ extent ∈ cache.extents, 0 < extent.2 ∧
    extent.1 + extent.2 ≤ cache.bytes.length

section Bytes

variable {cache : CacheFile}

theorem Bounded.write
    (bounded : Bounded cache)
    (offset : Nat)
    (buf : List UInt8) :
    Bounded (cache.write offset buf) := by
  unfold CacheFile.write
  split
  · exact bounded
  · next nonempty =>
      intro extent member
      dsimp only
      rw [length_overwrite]
      rcases List.mem_cons.mp member with rfl | older
      · have positive := List.length_pos_iff.mpr
          (mt List.isEmpty_iff.mpr nonempty)
        exact ⟨positive, le_max_right _ _⟩
      · have known := bounded extent older
        exact ⟨known.1, by omega⟩

/-- Where every byte is a block of its own, every fill fits. -/
theorem Bounded.fits
    (bounded : Bounded cache)
    (records : List LogRecord)
    (offset size : Nat) :
    FillFits 1 records cache offset size := by
  intro x outside isHole known
  obtain ⟨short, isAllocated⟩ := hole_eq_false.mp known
  rw [((@filled_write 1) cache offset (List.replicate size 0)).allocated,
    Bool.or_eq_true, Bool.and_eq_true, List.length_replicate] at isAllocated
  exfalso
  rcases isAllocated with before | ⟨nonempty, reached⟩
  · have reached := before
    rw [allocated_eq, List.any_eq_true] at reached
    obtain ⟨extent, member, reached⟩ := reached
    have held := bounded extent member
    simp only [reaches, Nat.div_one, Bool.and_eq_true,
      decide_eq_true_eq] at reached
    rw [hole_eq_false.mpr ⟨by omega, before⟩] at isHole
    cases isHole
  · have positive : 0 < size := by
      refine Nat.pos_of_ne_zero ?_
      rintro rfl
      cases nonempty
    simp only [reaches, Nat.div_one, Bool.and_eq_true,
      decide_eq_true_eq] at reached
    omega

end Bytes

/-! ## The invariant -/

section Sections

variable {env : Env} {world : World} {calls : Fin n → Call} {state : Calls n}
  {size offset : Nat}

/-- What a read remembers: there are bytes to fetch, or what was fetched is
what the log gives the file. -/
def PointOk (log : List LogRecord) (offset : Nat) : CallPoint → Prop
  | .fetch size => 0 < size
  | .fill buf =>
      offset + buf.length ≤ byteIndexMax ∧
        buf = slice (content log) offset buf.length
  | _ => True

/-- The file is in step, and so is what the reads remember. -/
structure Settled
    (env : Env)
    (calls : Fin n → Call)
    (state : Calls n) : Prop where
  inStep : InStep env state.world
  bounded : Bounded state.world.cache
  points : ∀ j size offset, calls j = .read size offset →
    PointOk state.world.log offset (state.point j)

/-- What a section of a read leaves. -/
structure ReadLeft
    (env : Env)
    (log : List LogRecord)
    (offset : Nat)
    (point : CallPoint)
    (next : World) : Prop where
  inStep : InStep env next
  bounded : Bounded next.cache
  sameLog : next.log = log
  pointOk : PointOk log offset point

/-- The sections of a read keep a file in step. -/
theorem allows_readSection
    {point : CallPoint}
    {action : FileM CallPoint}
    (enabled : env.useCache = true)
    (perByte : env.block = 1)
    (inStep : InStep env world)
    (bounded : Bounded world.cache)
    (pointOk : PointOk world.log offset point)
    (isSection : callSection env (.read size offset) point = some action)
    (below : ∀ count, point = .fetch count →
      offset + count ≤ byteIndexMax) :
    Allows action (ReadLeft env world.log offset) world := by
  cases point with
  | entered =>
      cases isSection
      rw [allows_run_bind (run_getInfoRaw _)]
      have inStep' := inStep.withInfo world.info
      split
      · exact allows_pure.mpr ⟨inStep', bounded, rfl, trivial⟩
      · exact allows_pure.mpr ⟨inStep', bounded, rfl, trivial⟩
  | check count =>
      cases isSection
      rw [allows_bind, allows_get]
      split
      · exact allows_pure.mpr ⟨inStep, bounded, rfl, trivial⟩
      · refine allows_pure.mpr ⟨inStep, bounded, rfl, ?_⟩
        split
        · next nonempty => exact nonempty
        · trivial
  | fetch count =>
      cases isSection
      have within := below count rfl
      refine (inStep.ensures_readIndex pointOk within).allows.bind ?_
      rintro _ next ⟨rfl, isNext, inStep'⟩
      refine allows_pure.mpr ⟨inStep', ?_, ?_, ?_, ?_⟩
      · rw [isNext]
        exact bounded
      · rw [isNext]
      · rw [length_slice]
        exact within
      · rw [length_slice]
  | fill buf =>
      cases isSection
      obtain ⟨within, isBuf⟩ := pointOk
      have fits := bounded.fits world.log offset buf.length
      rw [← perByte] at fits
      have filled := inStep.fillCache enabled fits within
      rw [← isBuf] at filled
      rw [allows_run_bind (run_gdpfsFileFillCache _ _ _ _), allows_pure]
      refine ⟨filled, ?_, rfl, trivial⟩
      rw [World.fillCache, if_pos enabled]
      exact bounded.write offset buf
  | returned => cases isSection

/-- The section of a write keeps a file in step. -/
theorem allows_writeSection
    {args : WriteArgs}
    {point : CallPoint}
    {action : FileM CallPoint}
    (enabled : env.useCache = true)
    (perByte : env.block = 1)
    (inStep : InStep env world)
    (bounded : Bounded world.cache)
    (takes : env.takes true = true)
    (below : args.offset + args.buf.length ≤ byteIndexMax)
    (way : world.WayLoaded env args)
    (isSection : callSection env (.write args) point = some action) :
    Allows action
      (fun _ next => InStep env next ∧ Bounded next.cache ∧
        next.log = world.log ++
          [dataRecord args.info args.buf args.offset]) world := by
  cases point with
  | entered =>
      cases isSection
      have fits := bounded.fits world.log args.offset args.buf.length
      rw [← perByte] at fits
      refine (inStep.ensures_doWrite enabled takes fits below way
        args.info).allows.bind ?_
      rintro _ next ⟨inStep', isLog, isCache⟩
      rw [allows_pure, isCache]
      exact ⟨inStep', bounded.write _ _, isLog⟩
  | check count => cases isSection
  | fetch count => cases isSection
  | fill buf => cases isSection
  | returned => cases isSection

theorem PointOk.append
    {log : List LogRecord}
    {datum : LogRecord}
    {point : CallPoint}
    (pointOk : PointOk log offset point)
    (apart : ∀ buf, point = .fill buf → ∀ x, offset ≤ x →
      x < offset + buf.length → covers datum x = false) :
    PointOk (log ++ [datum]) offset point := by
  cases point with
  | fill buf =>
      obtain ⟨within, isBuf⟩ := pointOk
      refine ⟨within, isBuf.trans ?_⟩
      refine eq_slice (length_slice _ _ _) fun i inside => ?_
      rw [getElem?_slice _ _ inside, content_append, if_neg]
      rw [apart buf rfl _ (Nat.le_add_right _ _) (by omega)]
      exact Bool.false_ne_true
  | entered => trivial
  | check count => trivial
  | fetch count => exact pointOk
  | returned => trivial

/-- A section that fits keeps everything in step. -/
theorem Settled.allows_step
    {i : Fin n}
    (enabled : env.useCache = true)
    (perByte : env.block = 1)
    (settled : Settled env calls state)
    (fits : SectionFits env calls i state) :
    Allows (callStep env calls i) (fun _ next => Settled env calls next)
      state := by
  rw [callStep, allows_bind, allows_get]
  cases isSection : callSection env (calls i) (state.point i) with
  | none => exact allows_throw
  | some action =>
      dsimp only
      cases ran : action.run state.world with
      | error fault => exact allows_throw
      | ok result =>
          obtain ⟨point, world⟩ := result
          refine allows_set.mpr ?_
          cases isCall : calls i with
          | read size offset =>
              rw [isCall] at isSection
              obtain ⟨inStep, bounded, sameLog, pointOk⟩ :=
                allows_readSection enabled perByte settled.inStep
                  settled.bounded (settled.points i size offset isCall)
                  isSection (fun count => fits.2 size offset count isCall)
                  _ _ ran
              refine ⟨inStep, bounded, fun j size' offset' isCall' => ?_⟩
              dsimp only
              rw [sameLog]
              by_cases same : j = i
              · subst same
                cases isCall.symm.trans isCall'
                rwa [Function.update_self]
              · rw [Function.update_of_ne same]
                exact settled.points j size' offset' isCall'
          | write args =>
              rw [isCall] at isSection
              obtain ⟨takes, below, way, apart⟩ := fits.1 args isCall
              obtain ⟨inStep, bounded, isLog⟩ := allows_writeSection enabled
                perByte settled.inStep settled.bounded takes below way
                isSection _ _ ran
              refine ⟨inStep, bounded, fun j size' offset' isCall' => ?_⟩
              have other : j ≠ i := by
                rintro rfl
                cases isCall.symm.trans isCall'
              dsimp only
              rw [isLog, Function.update_of_ne other]
              refine (settled.points j size' offset' isCall').append ?_
              intro buf isFill x lower upper
              rw [Bool.eq_false_iff, ne_eq, covers_dataRecord]
              have disjoint := apart j offset' buf
                ⟨⟨size', isCall'⟩, isFill⟩
              omega

end Sections

/-- In every run of calls of `do_read` and `do_write` in which no write overlaps
a range that a read has fetched and not filled in yet, every valid byte of the
cache is the byte of the last record that covers it, or zero if there is
none. -/
theorem valid_bytes_are_latest
    {env : Env}
    {world : World}
    {calls : Fin n → Call}
    {state : Calls n}
    (enabled : env.useCache = true)
    (perByte : env.block = 1)
    (inStep : InStep env world)
    (bounded : Bounded world.cache)
    (reached : Reached (callStep env calls) (SectionFits env calls)
      (Calls.start n world) state)
    (valid : state.world.cache.hole 1 x = false) :
    state.world.cache.bytes[x]? = some (content state.world.log x) := by
  have settled : Settled env calls state := by
    refine Reached.invariant (Settled env calls) ?_ ?_ reached
    · exact ⟨inStep, bounded, fun _ _ _ _ => trivial⟩
    · exact fun i state fits settled => settled.allows_step enabled perByte fits
  have known := valid
  rw [← perByte] at known
  have same := settled.inStep.mirrors.same x known
    fun _ impossible => absurd impossible List.not_mem_nil
  have short := (hole_eq_false.mp valid).1
  rw [← same, List.getD_eq_getElem?_getD, List.getElem?_eq_getElem short]
  rfl

/-- Whether a write leaves alone what a call has fetched. -/
def spares (args : WriteArgs) : Call → CallPoint → Bool
  | .read _ offset, .fill buf =>
      decide (args.offset + args.buf.length ≤ offset) ||
        decide (offset + buf.length ≤ args.offset)
  | _, _ => true

/-- Whether a section fits, where the index has a single node. -/
def fitsNow
    (env : Env)
    (calls : Fin n → Call)
    (i : Fin n)
    (state : Calls n) : Bool :=
  match calls i, state.point i with
  | .write args, _ =>
      env.takes true && state.world.isShort &&
        decide (args.offset + args.buf.length ≤ byteIndexMax) &&
        decide (∀ j, spares args (calls j) (state.point j) = true)
  | .read _ offset, .fetch count => decide (offset + count ≤ byteIndexMax)
  | _, _ => true

theorem sectionFits_of_fitsNow
    {env : Env}
    {calls : Fin n → Call}
    {i : Fin n}
    {state : Calls n}
    (now : fitsNow env calls i state = true) :
    SectionFits env calls i state := by
  unfold fitsNow at now
  refine ⟨fun args isCall => ?_, fun size offset count isCall isPoint => ?_⟩
  · rw [isCall] at now
    simp only [Bool.and_eq_true, decide_eq_true_eq] at now
    obtain ⟨⟨⟨takes, short⟩, below⟩, apart⟩ := now
    refine ⟨takes, below, ?_, fun j offset buf holding => ?_⟩
    · have positive : 0 < byteIndexMax := by decide
      exact wayLoaded_of_isShort short (by omega)
    · obtain ⟨⟨size, isRead⟩, isFill⟩ := holding
      have spared := apart j
      rw [isRead, isFill, spares, Bool.or_eq_true, decide_eq_true_eq,
        decide_eq_true_eq] at spared
      exact spared
  · rw [isCall, isPoint] at now
    exact of_decide_eq_true now

/-- A file system whose cache knows every single byte. -/
def bitmapMount : Env := ⟨true, 1, false, false⟩

/-- A read of a byte, and a write. -/
def readAndWrite (offset : Nat) (i : Fin 2) : Call :=
  if i.val = 0 then .read 1 0 else .write ⟨[8], offset, ⟨1, .regular, 420⟩⟩

theorem inStep_chkptedLog
    {opened : World}
    (opens : (openFile bitmapMount true .regular 0 false false).run
      (storedFile chkptedLog) = .ok (true, opened)) :
    InStep bitmapMount opened := by
  refine (allows_openFile_inStep rfl (by decide) rfl openable_chkptedLog
    (mirrors_empty _ _ _) ?_ true .regular 0 true opened opens rfl).1
  rintro file _ next run before ent after split
  cases before <;> cases split

/-- The write goes to another byte than the one that is read. -/
theorem valid_bytes_are_latest_apart :
    ∃ opened state, InStep bitmapMount opened ∧
      Reached (callStep bitmapMount (readAndWrite 5))
        (SectionFits bitmapMount (readAndWrite 5)) (Calls.start 2 opened)
        state ∧
      (∀ i, state.point i = .returned) ∧
      state.world.cache.hole 1 0 = false ∧
      state.world.cache.bytes[0]? = some (content state.world.log 0) := by
  have ran : outcome (do
      let ok ← openFile bitmapMount true .regular 0 false false
      let opened ← get
      pure (ok, decide (opened.cache.extents = []),
        (replay (callStep bitmapMount (readAndWrite 5))
          (fitsNow bitmapMount (readAndWrite 5)) [0, 0, 0, 1, 0]
          (Calls.start 2 opened)).map fun state =>
            (decide (∀ i, state.point i = .returned),
              state.world.cache.hole 1 0)))
      (storedFile chkptedLog) = some (true, true, some (true, false)) := by
    decide +kernel
  obtain ⟨ok, opened, opens, ran⟩ := ensures_bind.mp (ensures_of_outcome ran)
  obtain ⟨_, _, read, ran⟩ := ensures_bind.mp ran
  cases read
  rw [ensures_pure, Prod.mk.injEq, Prod.mk.injEq, decide_eq_true_eq,
    Option.map_eq_some_iff] at ran
  obtain ⟨rfl, cold, state, replayed, ran⟩ := ran
  rw [Prod.mk.injEq, decide_eq_true_eq] at ran
  obtain ⟨ended, valid⟩ := ran
  have inStep := inStep_chkptedLog opens
  have bounded : Bounded opened.cache := by
    intro extent member
    rw [cold] at member
    cases member
  have reached := reached_of_replay
    (fun _ _ => sectionFits_of_fitsNow) replayed
  exact ⟨opened, state, inStep, reached, ended, valid,
    valid_bytes_are_latest rfl rfl inStep bounded reached valid⟩

/-- A write lands between the fetch and the fill of a read: the byte that the
read fetched stays in the cache. -/
theorem reader_overwrites_newer_write :
    ∃ opened state, InStep bitmapMount opened ∧
      Reached (callStep bitmapMount (readAndWrite 0)) (fun _ _ => True)
        (Calls.start 2 opened) state ∧
      (∀ i, state.point i = .returned) ∧
      state.world.cache.hole 1 0 = false ∧
      state.world.cache.bytes[0]? = some 7 ∧
      content state.world.log 0 = 8 := by
  have ran : outcome (do
      let ok ← openFile bitmapMount true .regular 0 false false
      let opened ← get
      pure (ok, (replay (callStep bitmapMount (readAndWrite 0))
          (fun _ _ => true) [0, 0, 0, 1, 0] (Calls.start 2 opened)).map
            fun state => decide ((∀ i, state.point i = .returned) ∧
              state.world.cache.hole 1 0 = false ∧
              state.world.cache.bytes[0]? = some 7 ∧
              content state.world.log 0 = 8)))
      (storedFile chkptedLog) = some (true, some true) := by
    decide +kernel
  obtain ⟨ok, opened, opens, ran⟩ := ensures_bind.mp (ensures_of_outcome ran)
  obtain ⟨_, _, read, ran⟩ := ensures_bind.mp ran
  cases read
  rw [ensures_pure, Prod.mk.injEq, Option.map_eq_some_iff] at ran
  obtain ⟨rfl, state, replayed, ran⟩ := ran
  exact ⟨opened, state, inStep_chkptedLog opens,
    reached_of_replay (fun _ _ _ => trivial) replayed, of_decide_eq_true ran⟩

end File
end Gdpfs
