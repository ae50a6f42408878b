import Gdpfs.File.Accounts
import Gdpfs.File.Index
import Mathlib.Data.List.Induction

/-!
# Files as they should be

A plain file has a size and bytes.  Without a cache, a file that was created
and is only written reads like a plain one.
-/

namespace Gdpfs
namespace File

open Log FigTree Effect
open Cells (Owns Holds cell Store)

/-- A size and a byte for every offset. -/
structure Plain where
  size : Nat
  bytes : Nat → UInt8

namespace Plain

/-- A file of no bytes. -/
def empty : Plain := ⟨0, fun _ => 0⟩

/-- Write some bytes; the file grows to hold them. -/
def write (plain : Plain) (buf : List UInt8) (offset : Nat) : Plain where
  size := max plain.size (offset + buf.length)
  bytes x :=
    if offset ≤ x ∧ x < offset + buf.length then buf.getD (x - offset) 0
    else plain.bytes x

/-- Cut a file, or extend it with zeros. -/
def truncate (plain : Plain) (size : Nat) : Plain where
  size := size
  bytes x := if x < size then plain.bytes x else 0

/-- Read what there is of some bytes. -/
def read (plain : Plain) (size offset : Nat) : List UInt8 :=
  slice plain.bytes offset (min size (plain.size - offset))

/-- What a step does to a plain file. -/
def step (plain : Plain) : FileOp → Plain
  | .update (.write buf offset) => plain.write buf offset
  | .update (.ftruncate size) => plain.truncate size
  | _ => plain

/-- A plain file after some steps. -/
def after (ops : List FileOp) : Plain :=
  ops.foldl step empty

/-- What a step writes, with no regard to where the file ends. -/
def keep (plain : Plain) : FileOp → Plain
  | .update (.write buf offset) => plain.write buf offset
  | _ => plain

/-- What some steps wrote and no later write replaced, cut off or not. -/
def ever (ops : List FileOp) : Plain :=
  ops.foldl keep empty

theorem after_concat (ops : List FileOp) (op : FileOp) :
    after (ops ++ [op]) = (after ops).step op := by
  rw [after, List.foldl_append]
  rfl

theorem ever_concat (ops : List FileOp) (op : FileOp) :
    ever (ops ++ [op]) = (ever ops).keep op := by
  rw [ever, List.foldl_append]
  rfl

end Plain

/-! ## Conditions on runs -/

/-- A write past the end of the file leaves nothing but zeros in the gap, if
nothing is cut off and nothing else was ever written there. -/
def Plain.GapZero (ops : List FileOp) (offset : Nat) : Prop :=
  ∀ x, (Plain.after ops).size ≤ x → x < offset → (Plain.ever ops).bytes x = 0

/-- A step that keeps a file with the given past a plain one: it writes below
the last byte index and over zeros, or cuts the file off at its start.  Offsets
and sizes of reads are 64-bit numbers whose sum is one. -/
def Fits (ops : List FileOp) : FileOp → Prop
  | .update (.write buf offset) =>
      offset + buf.length ≤ byteIndexMax ∧ Plain.GapZero ops offset
  | .update (.ftruncate size) => size = 0
  | .update (.setPerm _) => True
  | .read size offset => size + offset < 18446744073709551616
  | .appended => True
  | _ => False

/-- Every step of a run fits the steps before it. -/
def AllFit (ops : List FileOp) : Prop :=
  ∀ before op rest, ops = before ++ op :: rest → Fits before op

theorem AllFit.concat
    (allFit : AllFit (ops ++ [op])) :
    AllFit ops ∧ Fits ops op := by
  constructor
  · intro before other rest split
    exact allFit before other (rest ++ [op]) (by rw [split]; simp)
  · exact allFit ops op [] rfl

/-- A plain file holds zeros from its end on. -/
theorem Plain.bytes_past
    (past : (Plain.after ops).size ≤ x) :
    (Plain.after ops).bytes x = 0 := by
  induction ops using List.reverseRecOn generalizing x with
  | nil => rfl
  | append_singleton ops op inductionHypothesis =>
      rw [Plain.after_concat] at past ⊢
      cases op with
      | update change =>
          cases change with
          | write buf offset =>
              simp only [Plain.step, Plain.write] at past ⊢
              rw [if_neg (by omega)]
              exact inductionHypothesis (by omega)
          | ftruncate size =>
              simp only [Plain.step, Plain.truncate] at past ⊢
              exact if_neg (by omega)
          | setPerm perm => exact inductionHypothesis past
      | _ => exact inductionHypothesis past

/-- Below its end, a plain file holds what was ever written. -/
theorem AllFit.bytes_eq
    (allFit : AllFit ops)
    (inside : x < (Plain.after ops).size) :
    (Plain.after ops).bytes x = (Plain.ever ops).bytes x := by
  induction ops using List.reverseRecOn generalizing x with
  | nil => rfl
  | append_singleton ops op inductionHypothesis =>
      obtain ⟨earlier, fits⟩ := allFit.concat
      rw [Plain.after_concat] at inside ⊢
      rw [Plain.ever_concat]
      cases op with
      | update change =>
          cases change with
          | write buf offset =>
              simp only [Plain.step, Plain.keep, Plain.write] at inside ⊢
              by_cases new : offset ≤ x ∧ x < offset + buf.length
              · rw [if_pos new, if_pos new]
              · rw [if_neg new, if_neg new]
                by_cases old : x < (Plain.after ops).size
                · exact inductionHypothesis earlier old
                · rw [Plain.bytes_past (by omega),
                    fits.2 x (by omega) (by omega)]
          | ftruncate size =>
              simp only [Plain.step, Plain.truncate] at inside
              rw [show size = 0 from fits] at inside
              exact absurd inside (Nat.not_lt_zero x)
          | setPerm perm => exact inductionHypothesis earlier inside
      | _ => exact inductionHypothesis earlier inside

/-! ## Files that follow plain ones -/

section Follow

variable {env : Env} {world : World} {ops : List FileOp}
  {size offset : Nat}

/-- A file in memory that was created and went through some steps.  Its cache,
if there is one, holds what the log holds. -/
structure Follows
    (env : Env)
    (ops : List FileOp)
    (world : World) : Prop where
  tracks : ∃ this fig, Tracks env belowMax world this fig
  valid : world.file.infoCacheValid = true
  size : world.file.infoCache.fileSize = (Plain.after ops).size
  bytes : ∀ x, content world.log x = (Plain.ever ops).bytes x
  small : (Plain.after ops).size ≤ byteIndexMax
  fresh : world.file.newFile = true
  cached : env.useCache = true →
    ∀ x, world.cache.bytes.getD x 0 = content world.log x

theorem size64_of_lt
    {x : Nat}
    (small : x < 18446744073709551616) :
    size64 x = x :=
  Nat.mod_eq_of_lt small

/-- How much a read returns of a file. -/
theorem readSize_eq
    (fileSize : Nat)
    {size offset : Nat}
    (bounded : size + offset < 18446744073709551616) :
    (readSize fileSize size offset = none ∧ min size (fileSize - offset) = 0) ∨
      readSize fileSize size offset =
        some (min size (fileSize - offset)) := by
  unfold readSize
  rw [size64_of_lt bounded]
  by_cases past : fileSize < size + offset
  · rw [if_pos past]
    by_cases beyond : fileSize < offset
    · rw [if_pos beyond]
      exact Or.inl ⟨rfl, by omega⟩
    · rw [if_neg beyond]
      exact Or.inr (congrArg some (by omega))
  · rw [if_neg past]
    exact Or.inr (congrArg some (by omega))

/-- Filling a cache changes the bytes that it is filled with. -/
theorem getD_write
    (cache : CacheFile)
    (offset : Nat)
    (buf : List UInt8)
    (x : Nat) :
    (cache.write offset buf).bytes.getD x 0 =
      if offset ≤ x ∧ x < offset + buf.length then buf.getD (x - offset) 0
      else cache.bytes.getD x 0 := by
  unfold CacheFile.write
  cases buf with
  | nil =>
      simp only [List.isEmpty_nil, if_true, List.length_nil]
      rw [if_neg (by omega)]
  | cons byte rest =>
      rw [if_neg (by simp)]
      exact getD_overwrite _ _ _ _

theorem read_eq_slice
    {cache : CacheFile}
    (whole : (cache.read offset size).length = size) :
    cache.read offset size =
      slice (fun x => cache.bytes.getD x 0) offset size := by
  refine eq_slice whole fun i inside => ?_
  have reaches : offset + i < cache.bytes.length := by
    rw [CacheFile.read, List.length_take, List.length_drop] at whole
    omega
  rw [CacheFile.read, List.getElem?_take_of_lt inside, List.getElem?_drop,
    List.getD_eq_getElem?_getD, List.getElem?_eq_getElem reaches]
  rfl

/-- A hit returns bytes of the cache file. -/
theorem getCache_some
    {cache : CacheFile}
    {newFile : Bool}
    {hit : List UInt8}
    (found : getCache env newFile cache size offset = some hit) :
    env.useCache = true ∧ (cache.read offset size).length = size ∧
      hit = cache.read offset size := by
  unfold getCache at found
  cases enabled : env.useCache with
  | false => simp [enabled] at found
  | true =>
      simp only [enabled, Bool.not_true, Bool.false_eq_true, if_false,
        Option.ite_none_right_eq_some, Bool.and_eq_true, beq_iff_eq,
        Option.some.injEq] at found
      exact ⟨rfl, found.1.2, found.2.symm⟩

/-- What the cache of a new file returns is what the log holds. -/
theorem Follows.getCache_eq
    (follows : Follows env ops world)
    {hit : List UInt8}
    (found : getCache env world.file.newFile world.cache size offset =
      some hit) :
    hit = slice (content world.log) offset size := by
  obtain ⟨enabled, whole, rfl⟩ := getCache_some found
  rw [read_eq_slice whole, funext (follows.cached enabled)]

/-- Filling the cache with what the log holds. -/
theorem Follows.fillCache
    (follows : Follows env ops world)
    (size offset : Nat) :
    Follows env ops (world.fillCache env
      (slice (content world.log) offset size) offset) := by
  obtain ⟨this, fig, tracks⟩ := follows.tracks
  refine ⟨⟨this, fig, tracks.isTree, tracks.sound, tracks.holds,
    tracks.latest, tracks.written, tracks.count⟩, follows.valid,
    follows.size, follows.bytes, follows.small, follows.fresh,
    fun enabled x => ?_⟩
  simp only [World.fillCache, enabled, if_true]
  rw [getD_write, length_slice]
  by_cases filled : offset ≤ x ∧ x < offset + size
  · rw [if_pos filled, List.getD_eq_getElem?_getD,
      getElem?_slice _ _ (by omega), Nat.add_sub_cancel' filled.1]
    rfl
  · rw [if_neg filled, follows.cached enabled]

/-- A read returns the bytes of the plain file. -/
theorem Follows.ensures_doRead
    (follows : Follows env ops world)
    (allFit : AllFit ops)
    (bounded : size + offset < 18446744073709551616) :
    Ensures (doRead env size offset)
      (fun bytes next => bytes = (Plain.after ops).read size offset ∧
        Follows env ops next) world := by
  obtain ⟨this, fig, tracks⟩ := follows.tracks
  have info : world.info = world.file.infoCache := by
    rw [World.info, if_pos follows.valid]
  have withInfo : world.withInfo world.info = world := by
    rw [info, World.withInfo, ← follows.valid]
  have same : slice (content world.log) offset
      (min size ((Plain.after ops).size - offset)) =
      (Plain.after ops).read size offset := by
    refine eq_slice (length_slice _ _ _) fun i inside => ?_
    rw [getElem?_slice _ _ inside, follows.bytes,
      allFit.bytes_eq (by omega)]
  rw [doRead, ensures_run_bind (run_getInfoRaw _), withInfo, info,
    follows.size]
  rcases readSize_eq (Plain.after ops).size bounded with
    ⟨isNone, isZero⟩ | isSome
  · rw [isNone]
    dsimp only
    rw [ensures_pure, Plain.read, isZero]
    exact ⟨rfl, follows⟩
  · rw [isSome]
    dsimp only
    rw [ensures_bind, ensures_get]
    cases found : getCache env world.file.newFile world.cache
        (min size ((Plain.after ops).size - offset)) offset with
    | some hit =>
        dsimp only
        rw [ensures_pure, follows.getCache_eq found]
        exact ⟨same, follows⟩
    | none =>
        dsimp only
        by_cases nonempty : 0 < min size ((Plain.after ops).size - offset)
        · rw [if_pos nonempty]
          have small := follows.small
          refine Ensures.bind (ensures_readIndex tracks.names
            (Nat.le_succ _) nonempty (show _ ≤ byteIndexMax by omega)) ?_
          rintro buf next ⟨kept, isNext, rfl⟩
          rw [kept.same id] at isNext
          rw [isNext, ensures_run_bind (run_gdpfsFileFillCache _ _ _ _),
            ensures_pure]
          exact ⟨same, follows.fillCache _ _⟩
        · rw [if_neg nonempty, ensures_pure, Plain.read,
            Nat.eq_zero_of_not_pos nonempty]
          exact ⟨rfl, follows⟩

theorem Plain.keep_update (plain : Plain) (change : Update) (x : Nat) :
    (plain.keep (.update change)).bytes x =
      if change.offset ≤ x ∧ x < change.offset + change.buf.length then
        change.buf.getD (x - change.offset) 0
      else plain.bytes x := by
  cases change with
  | write buf offset => rfl
  | ftruncate size =>
      rw [if_neg]
      · rfl
      · simp [Update.buf, Update.offset]
  | setPerm perm =>
      rw [if_neg]
      · rfl
      · simp [Update.buf, Update.offset]

theorem content_dataRecord
    (log : List LogRecord)
    (info : FileInfo)
    (buf : List UInt8)
    (offset x : Nat) :
    content (log ++ [dataRecord info buf offset]) x =
      if offset ≤ x ∧ x < offset + buf.length then buf.getD (x - offset) 0
      else content log x := by
  rw [content_append]
  by_cases covered : offset ≤ x ∧ x < offset + buf.length
  · rw [if_pos ((covers_dataRecord info buf offset x).mpr covered),
      if_pos covered, byteOf_dataRecord info buf covered.1]
  · rw [if_neg (mt (covers_dataRecord info buf offset x).mp covered),
      if_neg covered]

/-- An update leaves the size that it leaves a plain file. -/
theorem Fits.size_eq
    {change : Update}
    (fits : Fits ops (.update change))
    (info : FileInfo)
    (size : info.fileSize = (Plain.after ops).size) :
    (change.info info).fileSize =
      ((Plain.after ops).step (.update change)).size := by
  cases change with
  | write buf offset =>
      have below : offset + buf.length < 18446744073709551616 := by
        have := fits.1
        simp only [byteIndexMax] at this
        omega
      simp only [Update.info, Plain.step, Plain.write, size,
        size64_of_lt below]
  | ftruncate size => exact (show size = 0 from fits).symm
  | setPerm perm => exact size

theorem Fits.small
    {change : Update}
    (fits : Fits ops (.update change))
    (small : (Plain.after ops).size ≤ byteIndexMax) :
    change.offset + change.buf.length ≤ byteIndexMax ∧
      ((Plain.after ops).step (.update change)).size ≤ byteIndexMax := by
  cases change with
  | write buf offset => exact ⟨fits.1, Nat.max_le.mpr ⟨small, fits.1⟩⟩
  | ftruncate size =>
      refine ⟨Nat.zero_le _, ?_⟩
      rw [show size = 0 from fits]
      exact Nat.zero_le _
  | setPerm perm => exact ⟨Nat.zero_le _, small⟩

/-- An update that fits the past of a file. -/
theorem Follows.ensures_update
    (follows : Follows env ops world)
    (takes : env.takes true = true)
    {change : Update}
    (fits : Fits ops (.update change)) :
    Ensures (change.run env true)
      (fun _ next => Follows env (ops ++ [.update change]) next) world := by
  obtain ⟨this, fig, tracks⟩ := follows.tracks
  obtain ⟨below, small⟩ := fits.small follows.small
  have info : world.info = world.file.infoCache := by
    rw [World.info, if_pos follows.valid]
  have way : 0 < change.buf.length →
      fig.wayLoaded (writeRange change.offset change.buf.length) = true := by
    intro nonempty
    have ends : change.offset ≤ change.offset + change.buf.length - 1 := by
      omega
    have upper : change.offset + change.buf.length - 1 < byteIndexMax := by
      omega
    exact tracks.sound.wayLoaded id rfl ends upper
      (tracks.sound.edgeClear rfl ends upper le_rfl)
  refine (File.ensures_update tracks takes change
    (fun _ => Or.inl le_rfl) below way).mono ?_
  rintro _ next ⟨this', fig', heap, isNext, isLog, tracks'⟩
  have bytes : ∀ x, content next.log x =
      if change.offset ≤ x ∧ x < change.offset + change.buf.length then
        change.buf.getD (x - change.offset) 0
      else content world.log x := by
    intro x
    rw [isLog]
    exact content_dataRecord _ _ _ _ _
  refine ⟨⟨this', fig', tracks'⟩, ?_, ?_, fun x => ?_, ?_, ?_,
    fun enabled x => ?_⟩
  · rw [isNext]
    rfl
  · rw [Plain.after_concat, isNext]
    exact fits.size_eq world.info (info ▸ follows.size)
  · rw [bytes, Plain.ever_concat, Plain.keep_update, follows.bytes]
  · rw [Plain.after_concat]
    exact small
  · rw [isNext]
    exact follows.fresh
  · rw [bytes, isNext, ← follows.cached enabled]
    refine Eq.trans ?_ (getD_write _ _ _ _)
    simp only [World.withIndex, World.updated, World.written,
      World.fillCache, enabled, if_true]
    rfl

/-- A step that fits the past of a file. -/
theorem Follows.ensures_step
    (follows : Follows env ops world)
    (takes : env.takes true = true)
    (allFit : AllFit ops)
    {op : FileOp}
    (fits : Fits ops op) :
    Ensures (op.run env true)
      (fun _ next => Follows env (ops ++ [op]) next) world := by
  have same : ∀ {next op}, Follows env ops next →
      (Plain.after ops).step op = Plain.after ops →
      (Plain.ever ops).keep op = Plain.ever ops →
      Follows env (ops ++ [op]) next := by
    intro next op holds after ever
    obtain ⟨tracks, valid, size, bytes, small, fresh, cached⟩ := holds
    rw [← after, ← Plain.after_concat] at size small
    rw [← ever, ← Plain.ever_concat] at bytes
    exact ⟨tracks, valid, size, bytes, small, fresh, cached⟩
  cases op with
  | update change => exact follows.ensures_update takes fits
  | read size offset =>
      refine Ensures.bind (follows.ensures_doRead allFit fits) ?_
      rintro _ next ⟨_, follows'⟩
      exact ensures_pure.mpr (same follows' rfl rfl)
  | appended =>
      obtain ⟨this, fig, tracks⟩ := follows.tracks
      refine (ensures_of_run (run_modifyFile _ _)).mpr (same ?_ rfl rfl)
      exact ⟨⟨this, fig, tracks.isTree, tracks.sound, tracks.holds,
        tracks.latest, tracks.written, tracks.count⟩, follows.valid,
        follows.size, follows.bytes, follows.small, follows.fresh,
        follows.cached⟩
  | _ => exact absurd fits id

/-- Steps that fit keep a file like the plain one. -/
theorem Follows.ensures_forM
    {rest : List FileOp}
    (follows : Follows env ops world)
    (takes : env.takes true = true)
    (allFit : AllFit (ops ++ rest)) :
    Ensures (forM rest (FileOp.run env true))
      (fun _ next => Follows env (ops ++ rest) next) world := by
  induction rest generalizing ops world with
  | nil =>
      rw [List.append_nil]
      exact ensures_pure.mpr follows
  | cons op rest inductionHypothesis =>
      have fits := allFit ops op rest rfl
      rw [List.append_cons] at allFit ⊢
      have earlier : AllFit ops := by
        intro before other between split
        refine allFit before other (between ++ op :: rest) ?_
        rw [split]
        simp
      rw [List.forM_cons]
      refine Ensures.bind (follows.ensures_step takes earlier fits) ?_
      intro _ next follows'
      exact inductionHypothesis follows' allFit

/-- A file that was just created follows the empty plain file. -/
theorem ensures_create_follows
    (takes : env.takes true = true)
    (fresh : world.file = GdpfsFile.zero)
    (noLog : world.log = [])
    (emptyCache : env.useCache = true → world.cache = CacheFile.empty)
    {type : FileType}
    (known : type ≠ .unknown)
    (perm : Nat) :
    Ensures (gdpfsFileCreate env true type perm)
      (fun ok next => ok = true ∧ Follows env [] next) world := by
  refine (ensures_create belowMax takes fresh noLog known perm).mono ?_
  rintro ok next ⟨isOk, isLog, valid, isInfo, isNew, isCache, this, tracks⟩
  have nothing : ∀ x, content next.log x = 0 := by
    intro x
    rw [isLog, ← List.nil_append [dataRecord _ _ _], content_dataRecord,
      if_neg (by simp)]
    rfl
  refine ⟨isOk, ⟨this, _, tracks⟩, valid, ?_, nothing, Nat.zero_le _, isNew,
    fun enabled x => ?_⟩
  · rw [isInfo]
    rfl
  · rw [isCache, nothing]
    simp [World.fillCache, enabled, emptyCache enabled, CacheFile.write,
      CacheFile.empty]

end Follow

/-! ## Reading what was written -/

section Written

variable {env : Env} {world : World} {ops : List FileOp}

/-- A step of a file that is only written, below the last byte index. -/
def WritesBelow : FileOp → Prop
  | .update (.write buf offset) =>
      0 < buf.length ∧ offset + buf.length - 1 < byteIndexMax
  | .update (.setPerm _) => True
  | .read size offset => size + offset < 18446744073709551616
  | .appended => True
  | _ => False

/-- Nothing is cut off a file that is only written. -/
theorem after_eq_ever
    (below : ∀ op ∈ ops, WritesBelow op) :
    Plain.after ops = Plain.ever ops := by
  induction ops using List.reverseRecOn with
  | nil => rfl
  | append_singleton ops op inductionHypothesis =>
      have last := below op (by simp)
      have same := inductionHypothesis
        fun other member => below other (by simp [member])
      rw [Plain.after_concat, Plain.ever_concat, same]
      cases op with
      | update change =>
          cases change with
          | ftruncate size => exact absurd last id
          | _ => rfl
      | _ => rfl

/-- A write fits every file that is only written. -/
theorem allFit_of_below
    (below : ∀ op ∈ ops, WritesBelow op) :
    AllFit ops := by
  intro before op rest split
  have earlier : ∀ other ∈ before, WritesBelow other := by
    intro other member
    exact below other (by rw [split]; simp [member])
  have last := below op (by rw [split]; simp)
  cases op with
  | update change =>
      cases change with
      | write buf offset =>
          refine ⟨by obtain ⟨nonempty, upper⟩ := last; omega, ?_⟩
          intro x past _
          rw [← after_eq_ever earlier]
          exact Plain.bytes_past past
      | ftruncate size => exact absurd last id
      | setPerm perm => trivial
  | read size offset => exact last
  | appended => trivial
  | _ => exact absurd last id

/-- `gdpfs_file_create` and some steps on the open file. -/
def createThen
    (env : Env)
    (type : FileType)
    (perm : Nat)
    (ops : List FileOp) : FileM Unit := do
  let _ ← gdpfsFileCreate env true type perm
  forM ops (FileOp.run env true)

/-- A file that was created and takes steps that fit reads like the plain
file. -/
theorem ensures_createThen
    (takes : env.takes true = true)
    (fresh : world.file = GdpfsFile.zero)
    (noLog : world.log = [])
    (emptyCache : env.useCache = true → world.cache = CacheFile.empty)
    {type : FileType}
    (known : type ≠ .unknown)
    (perm : Nat)
    (allFit : AllFit ops) :
    Ensures (createThen env type perm ops)
      (fun _ next => Follows env ops next) world := by
  refine Ensures.bind
    (ensures_create_follows takes fresh noLog emptyCache known perm) ?_
  rintro _ next ⟨_, follows⟩
  exact follows.ensures_forM takes allFit

/-- Reads return what was written: without a cache, a file that was created
and written below the last byte index has the bytes that were written last,
zeros where nothing was written, and ends where a write ended last.  The types
of new files are those of regular files and directories. -/
theorem reads_return_writes
    (noCache : env.useCache = false)
    (writable : env.readOnly = false)
    (fresh : world.file = GdpfsFile.zero)
    (noLog : world.log = [])
    (type : FileType)
    (known : type ≠ .unknown)
    (perm : Nat)
    (ops : List FileOp)
    (below : ∀ op ∈ ops, WritesBelow op) :
    Ensures (createThen env type perm ops)
      (fun _ next => ∀ size offset, size + offset < 18446744073709551616 →
        Ensures (doRead env size offset)
          (fun bytes _ => bytes = (Plain.after ops).read size offset) next)
      world := by
  have takes : env.takes true = true := by
    rw [Env.takes, writable]
    rfl
  have allFit := allFit_of_below below
  have off : env.useCache = true → world.cache = CacheFile.empty := by
    rw [noCache]
    intro impossible
    cases impossible
  refine (ensures_createThen takes fresh noLog off known perm allFit).mono ?_
  intro _ next follows size offset bounded
  refine (follows.ensures_doRead allFit bounded).mono ?_
  intro bytes _ reads
  exact reads.1

/-- A write over an earlier one. -/
theorem reads_return_writes_twice :
    Ensures (createThen plainMount .regular 420
        [.update (.write [1, 2, 3] 0), .update (.setPerm 0),
          .update (.write [9] 1)])
      (fun _ next => ∀ size offset, size + offset < 18446744073709551616 →
        Ensures (doRead plainMount size offset)
          (fun bytes _ => bytes = (Plain.after
            [.update (.write [1, 2, 3] 0), .update (.setPerm 0),
              .update (.write [9] 1)]).read size offset) next) newLog := by
  refine reads_return_writes rfl rfl rfl rfl .regular (by decide) 420 _ ?_
  simp [WritesBelow, byteIndexMax]

end Written

end File
end Gdpfs
