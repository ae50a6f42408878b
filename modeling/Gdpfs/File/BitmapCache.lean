import Gdpfs.File.Mirror
import Gdpfs.Bitmap.Positions

/-!
# The cache with a bitmap

Built with `USE_BITMAP`, a file has a bitmap file beside its cache file.  It
says for each byte whether the cache was filled with it, where the default
build asks the file system for its holes.  No block of the file system is too
large for the bitmap: a hit returns bytes that were filled, whatever was filled
around them.
-/

namespace Gdpfs
namespace File

open Bitmap (Fd FdM Sys bitAt bitmapFileSetRange bitmapFileIsset)

/-! ## The two files -/

/-- The cache of a file, built with `USE_BITMAP`. -/
structure BitmapCache where
  /-- The file of `cache_fd`. -/
  cache : CacheFile
  /-- The file of `cache_bitmap_fd`. -/
  bitmap : Fd
  deriving DecidableEq, Repr

/-- The two files after `open_file` has created them. -/
def BitmapCache.empty : BitmapCache := ⟨CacheFile.empty, ⟨[], 0⟩⟩

/-- Work on the bitmap file. -/
def onBitmap (action : FdM α) : StateM BitmapCache α := do
  let both ← get
  let (value, bitmap) := action.run both.bitmap
  set { both with bitmap := bitmap }
  return value

/-- `gdpfs_file_fill_cache`, built with `USE_BITMAP`; whether it succeeded is
handed back. -/
def fillBitmapCache
    (sys : Sys)
    (env : Env)
    (buf : List UInt8)
    (offset : Nat) : StateM BitmapCache Bool :=
  if !env.useCache then return false
  else do
    modify fun both => { both with cache := both.cache.write offset buf }
    if buf.length ≠ 0 then
      let _ ← onBitmap (bitmapFileSetRange sys offset (offset + buf.length))
      return true
    else return true

/-- The test of `gdpfs_file_get_cache` for a hit, built with `USE_BITMAP`. -/
def bitmapHit
    (sys : Sys)
    (newFile : Bool)
    (size offset : Nat) : StateM BitmapCache Bool :=
  if newFile then return true
  else if size = 0 then return true
  else onBitmap (bitmapFileIsset sys offset (offset + size))

/-- `gdpfs_file_get_cache`, built with `USE_BITMAP`: the bytes on a hit. -/
def getBitmapCache
    (sys : Sys)
    (env : Env)
    (newFile : Bool)
    (size offset : Nat) : StateM BitmapCache (Option (List UInt8)) :=
  if !env.useCache then return none
  else do
    let hit ← bitmapHit sys newFile size offset
    let both ← get
    if hit && (both.cache.read offset size).length == size then
      return some (both.cache.read offset size)
    else return none

/-! ## Runs -/

/-- A call that works on the cache. -/
inductive CacheOp
  | fill (buf : List UInt8) (offset : Nat)
  | get (newFile : Bool) (size offset : Nat)
  deriving DecidableEq, Repr

/-- Make a call. -/
def CacheOp.run (sys : Sys) (env : Env) : CacheOp → StateM BitmapCache Unit
  | .fill buf offset => do
      let _ ← fillBitmapCache sys env buf offset
  | .get newFile size offset => do
      let _ ← getBitmapCache sys env newFile size offset

/-- Make some calls, one after the other. -/
def runCache (sys : Sys) (env : Env) (ops : List CacheOp) :
    StateM BitmapCache Unit :=
  ops.forM (CacheOp.run sys env)

/-- What the calls fill the cache with, the latest first. -/
def CacheOp.filling : CacheOp → List (Nat × List UInt8)
  | .fill buf offset => [(offset, buf)]
  | .get _ _ _ => []

/-- What some calls fill the cache with, the latest first. -/
def fillings (ops : List CacheOp) : List (Nat × List UInt8) :=
  (ops.reverse.map CacheOp.filling).flatten

/-! ## What was filled -/

/-- The last value that a byte was filled with, if it was filled. -/
def known : List (Nat × List UInt8) → Nat → Option UInt8
  | [], _ => none
  | (offset, buf) :: earlier, x =>
      if offset ≤ x ∧ x < offset + buf.length then
        some (buf.getD (x - offset) 0)
      else known earlier x

/-- The cache file after it was filled. -/
def writtenCache (filled : List (Nat × List UInt8)) : CacheFile :=
  filled.foldr (fun fill cache => cache.write fill.1 fill.2) CacheFile.empty

/-- The end of the bytes that were filled. -/
def filledEnd : List (Nat × List UInt8) → Nat
  | [] => 0
  | (offset, buf) :: earlier =>
      if buf.isEmpty then filledEnd earlier
      else max (filledEnd earlier) (offset + buf.length)

/-- Whether a cache that forgets nothing can answer.  The cache of a new file
holds zeros in its gaps. -/
def Answers
    (filled : List (Nat × List UInt8))
    (newFile : Bool)
    (size offset : Nat) : Prop :=
  if newFile then size = 0 ∨ offset + size ≤ filledEnd filled
  else ∀ i, i < size → (known filled (offset + i)).isSome = true

instance : Decidable (Answers filled newFile size offset) :=
  inferInstanceAs (Decidable (ite _ _ _))

/-- What it answers. -/
def answer
    (filled : List (Nat × List UInt8))
    (newFile : Bool)
    (size offset : Nat) : Option (List UInt8) :=
  if Answers filled newFile size offset then
    some (slice (fun x => (known filled x).getD 0) offset size)
  else none

section Cache

variable {sys : Sys} {env : Env} {filled : List (Nat × List UInt8)}
  {both next : BitmapCache} {buf : List UInt8} {newFile : Bool}
  {size offset : Nat}

/-- The bytes of the cache file are those that it was filled with. -/
theorem getD_writtenCache (filled : List (Nat × List UInt8)) (x : Nat) :
    (writtenCache filled).bytes.getD x 0 = (known filled x).getD 0 := by
  induction filled with
  | nil => rfl
  | cons fill earlier inductionHypothesis =>
      obtain ⟨offset, buf⟩ := fill
      rw [writtenCache, List.foldr_cons, getD_write, known]
      split
      · rfl
      · exact inductionHypothesis

theorem length_writtenCache (filled : List (Nat × List UInt8)) :
    (writtenCache filled).bytes.length = filledEnd filled := by
  induction filled with
  | nil => rfl
  | cons fill earlier inductionHypothesis =>
      rw [writtenCache, List.foldr_cons, (@filled_write 1 _ _ _).length,
        filledEnd, ← inductionHypothesis]
      rfl

/-- The file system allocates the blocks of the bytes that are filled. -/
theorem allocated_of_known
    (block : Nat)
    (isKnown : (known filled x).isSome = true) :
    (writtenCache filled).allocated block x = true := by
  induction filled with
  | nil => cases isKnown
  | cons fill earlier inductionHypothesis =>
      obtain ⟨offset, buf⟩ := fill
      rw [writtenCache, List.foldr_cons, (filled_write _ _ _).allocated]
      rw [known] at isKnown
      split at isKnown
      · next inside =>
          have nonempty : buf.isEmpty = false := by
            rw [List.isEmpty_eq_false_iff]
            rintro rfl
            simp only [List.length_nil] at inside
            omega
          rw [nonempty, reaches_of_inside block inside]
          exact Bool.or_true _
      · rw [← writtenCache, inductionHypothesis isKnown]
        rfl

/-- With blocks of one byte it allocates no others. -/
theorem known_of_allocated
    (allocated : (writtenCache filled).allocated 1 x = true) :
    (known filled x).isSome = true := by
  induction filled with
  | nil => cases allocated
  | cons fill earlier inductionHypothesis =>
      obtain ⟨offset, buf⟩ := fill
      rw [writtenCache, List.foldr_cons, (filled_write _ _ _).allocated,
        ← writtenCache, Bool.or_eq_true] at allocated
      rw [known]
      split
      · rfl
      · next outside =>
          apply inductionHypothesis
          apply allocated.resolve_right
          cases buf with
          | nil => exact Bool.false_ne_true
          | cons byte rest =>
              simp only [reaches, Nat.div_one, List.isEmpty_cons, Bool.not_false,
                Bool.true_and, Bool.and_eq_true, decide_eq_true_eq]
              simp only [List.length_cons] at outside ⊢
              omega

theorem known_lt_filledEnd
    (isKnown : (known filled x).isSome = true) :
    x < filledEnd filled := by
  induction filled with
  | nil => cases isKnown
  | cons fill earlier inductionHypothesis =>
      obtain ⟨offset, buf⟩ := fill
      rw [known] at isKnown
      rw [filledEnd]
      split at isKnown
      · next inside =>
          have nonempty : ¬buf.isEmpty := by
            rw [List.isEmpty_iff]
            rintro rfl
            simp only [List.length_nil] at inside
            omega
          rw [if_neg nonempty]
          omega
      · have below := inductionHypothesis isKnown
        split
        · exact below
        · omega

theorem run_onBitmap (action : FdM α) :
    (onBitmap action).run both =
      ((action.run both.bitmap).1,
        { both with bitmap := (action.run both.bitmap).2 }) :=
  rfl

/-- A fill with some bytes writes in both files. -/
theorem run_fillBitmapCache
    (sys : Sys)
    (both : BitmapCache)
    (offset : Nat)
    (enabled : env.useCache = true)
    (nonempty : buf.length ≠ 0) :
    (fillBitmapCache sys env buf offset).run both =
      (true, ⟨both.cache.write offset buf,
        ((bitmapFileSetRange sys offset (offset + buf.length)).run
          both.bitmap).2⟩) := by
  rw [fillBitmapCache, enabled, if_neg (by decide), if_pos nonempty]
  rfl

/-- After the test for a hit the bytes are read, if there are that many. -/
theorem run_getBitmapCache
    (enabled : env.useCache = true)
    (tested : (bitmapHit sys newFile size offset).run both = (hit, next)) :
    (getBitmapCache sys env newFile size offset).run both =
      (if hit = true ∧ (next.cache.read offset size).length = size then
          some (next.cache.read offset size)
        else none, next) := by
  rw [getBitmapCache, enabled, if_neg (by decide), StateT.run_bind, tested]
  change (if hit && (next.cache.read offset size).length == size then
      return some (next.cache.read offset size)
    else return none : StateM BitmapCache (Option (List UInt8))).run next = _
  simp only [Bool.and_eq_true, beq_iff_eq]
  split
  · rfl
  · rfl

/-! ### Invariant -/

/-- The two files hold just what was filled. -/
structure Exact (filled : List (Nat × List UInt8)) (both : BitmapCache) :
    Prop where
  cache : both.cache = writtenCache filled
  bits : ∀ x, bitAt both.bitmap.contents x = (known filled x).isSome

theorem exact_empty : Exact [] BitmapCache.empty :=
  ⟨rfl, Bitmap.bitAt_nil⟩

/-- Moving the position of the bitmap file changes nothing. -/
theorem Exact.withBitmap
    {bitmap : Fd}
    (exact_ : Exact filled both)
    (same : bitmap.contents = both.bitmap.contents) :
    Exact filled { both with bitmap := bitmap } := by
  refine ⟨exact_.cache, fun x => ?_⟩
  dsimp only
  rw [same]
  exact exact_.bits x

/-- A fill adds its bytes to both files. -/
theorem Exact.fill
    (exact_ : Exact filled both)
    (enabled : env.useCache = true) :
    ∃ next, (fillBitmapCache sys env buf offset).run both = (true, next) ∧
      Exact ((offset, buf) :: filled) next := by
  rw [fillBitmapCache, enabled]
  cases buf with
  | nil =>
      refine ⟨_, rfl, ?_, fun x => ?_⟩
      · dsimp only
        rw [exact_.cache]
        rfl
      · rw [known, List.length_nil, if_neg (by omega)]
        exact exact_.bits x
  | cons byte rest =>
      have valid : offset < offset + (byte :: rest).length := by simp
      obtain ⟨bitmap, run, changed⟩ :=
        Bitmap.run_bitmapFileSetRange sys both.bitmap valid
      have filling := @run_fillBitmapCache env (byte :: rest) sys both offset
        enabled (Nat.succ_ne_zero _)
      rw [run] at filling
      refine ⟨⟨both.cache.write offset (byte :: rest), bitmap⟩, ?_, ?_, ?_⟩
      · rw [← filling, fillBitmapCache, enabled]
      · dsimp only
        rw [exact_.cache]
        rfl
      · intro x
        rw [changed.bitAt (by omega), exact_.bits, known]
        split
        · next inside =>
            rw [decide_eq_true (by omega), Bool.or_true]
            rfl
        · next outside => rw [decide_eq_false (by omega), Bool.or_false]

/-- The test for a hit moves the position of the bitmap file only. -/
theorem Exact.bitmapHit
    (exact_ : Exact filled both) :
    ((bitmapHit sys newFile size offset).run both).2.cache = both.cache ∧
      Exact filled ((bitmapHit sys newFile size offset).run both).2 ∧
      (((bitmapHit sys newFile size offset).run both).1 = true ↔
        newFile = true ∨
          ∀ i, i < size → (known filled (offset + i)).isSome = true) := by
  unfold File.bitmapHit
  cases newFile with
  | true => exact ⟨rfl, exact_, iff_of_true rfl (Or.inl rfl)⟩
  | false =>
      rw [if_neg Bool.false_ne_true]
      by_cases isZero : size = 0
      · rw [if_pos isZero, isZero]
        exact ⟨rfl, exact_,
          iff_of_true rfl (Or.inr fun _ below => absurd below (Nat.not_lt_zero _))⟩
      · have valid : offset < offset + size := by omega
        obtain ⟨same, isSet⟩ :=
          Bitmap.run_bitmapFileIsset sys both.bitmap valid
        rw [if_neg isZero, run_onBitmap]
        refine ⟨rfl, exact_.withBitmap same, ?_⟩
        rw [isSet]
        constructor
        · intro all
          refine Or.inr fun i inside => ?_
          rw [← exact_.bits]
          exact all (offset + i) (by omega) (by omega)
        · rintro (impossible | all) p lower upper
          · cases impossible
          · have here := all (p - offset) (by omega)
            rwa [Nat.add_sub_cancel' lower, ← exact_.bits] at here

/-- There is an answer when the test finds a hit and the cache file holds all
the bytes. -/
theorem Exact.answers_iff
    (exact_ : Exact filled both) :
    (newFile = true ∨
        ∀ i, i < size → (known filled (offset + i)).isSome = true) ∧
        (both.cache.read offset size).length = size ↔
      Answers filled newFile size offset := by
  rw [exact_.cache, CacheFile.read, List.length_take, List.length_drop,
    length_writtenCache, Answers]
  cases newFile with
  | true =>
      rw [if_pos rfl, and_iff_right (Or.inl rfl)]
      omega
  | false =>
      rw [if_neg Bool.false_ne_true, or_iff_right Bool.false_ne_true]
      refine and_iff_left_of_imp fun all => ?_
      by_cases isZero : size = 0
      · omega
      · have last := known_lt_filledEnd (all (size - 1) (by omega))
        omega

/-- A call hits when all its bytes were filled, and moves the position of the
bitmap file only. -/
theorem Exact.get
    (exact_ : Exact filled both)
    (enabled : env.useCache = true) :
    ((getBitmapCache sys env newFile size offset).run both).1 =
        (if (newFile = true ∨
              ∀ i, i < size → (known filled (offset + i)).isSome = true) ∧
            (both.cache.read offset size).length = size then
          some (both.cache.read offset size)
        else none) ∧
      Exact filled
        ((getBitmapCache sys env newFile size offset).run both).2 := by
  obtain ⟨same, kept, isHit⟩ :=
    @Exact.bitmapHit sys filled both newFile size offset exact_
  generalize isTested : (File.bitmapHit sys newFile size offset).run both =
    tested at same kept isHit
  obtain ⟨hit, next⟩ := tested
  dsimp only at same kept isHit
  rw [run_getBitmapCache enabled isTested, same]
  refine ⟨?_, kept⟩
  exact if_congr (and_congr_left' isHit) rfl rfl

/-- A call answers what a cache that forgets nothing would. -/
theorem Exact.get_eq_answer
    (exact_ : Exact filled both)
    (enabled : env.useCache = true) :
    ((getBitmapCache sys env newFile size offset).run both).1 =
      answer filled newFile size offset := by
  have agree := @Exact.answers_iff filled both newFile size offset exact_
  rw [(exact_.get enabled).1, answer]
  by_cases answers : Answers filled newFile size offset
  · have found := agree.mpr answers
    rw [if_pos found, if_pos answers, read_eq_slice found.2, exact_.cache,
      funext (getD_writtenCache filled)]
  · rw [if_neg (mt agree.mp answers), if_neg answers]

/-- Every call keeps the two files in step with what was filled. -/
theorem Exact.run
    (exact_ : Exact filled both)
    (enabled : env.useCache = true)
    (op : CacheOp) :
    Exact (op.filling ++ filled) ((op.run sys env).run both).2 := by
  cases op with
  | fill buf offset =>
      obtain ⟨next, run, filled'⟩ :=
        @Exact.fill sys env filled both buf offset exact_ enabled
      have done : ((CacheOp.fill buf offset).run sys env).run both =
          ((), next) := by
        rw [CacheOp.run, StateT.run_bind, run]
        rfl
      rw [done]
      exact filled'
  | get newFile size offset => exact (exact_.get enabled).2

/-- The two files after some calls. -/
theorem Exact.runCache
    (exact_ : Exact filled both)
    (enabled : env.useCache = true)
    (ops : List CacheOp) :
    Exact (fillings ops ++ filled) ((runCache sys env ops).run both).2 := by
  induction ops generalizing filled both with
  | nil => exact exact_
  | cons op ops inductionHypothesis =>
      have later := inductionHypothesis
        (@Exact.run sys env filled both exact_ enabled op)
      have split : fillings (op :: ops) ++ filled =
          fillings ops ++ (op.filling ++ filled) := by
        simp [fillings]
      rw [split]
      exact later

/-- After any calls since the two files were created, a call hits just if every
byte was filled, or the file is new and the cache file reaches that far, and
returns for each byte what it was last filled with. -/
theorem bitmap_cache_exact
    (sys : Sys)
    (enabled : env.useCache = true)
    (ops : List CacheOp)
    (newFile : Bool)
    (size offset : Nat) :
    ((do
        runCache sys env ops
        getBitmapCache sys env newFile size offset).run
          BitmapCache.empty).1 =
      answer (fillings ops) newFile size offset := by
  have reached := @Exact.runCache sys env [] _ exact_empty enabled ops
  rw [List.append_nil] at reached
  exact reached.get_eq_answer enabled

/-- A file system that knows no other `whence`. -/
def noSeek : Sys := ⟨fun _ _ _ => none⟩

/-- Fills that overlap, across two bytes of the bitmap; the call asks for what
was filled first and last. -/
theorem bitmap_cache_exact_overlapping :
    ((do
        runCache noSeek cachedMount
          [.fill [1, 2, 3, 4] 6, .get false 1 0, .fill [9] 8]
        getBitmapCache noSeek cachedMount false 3 7).run
          BitmapCache.empty).1 =
      some [2, 9, 4] :=
  bitmap_cache_exact noSeek rfl
    [.fill [1, 2, 3, 4] 6, .get false 1 0, .fill [9] 8] false 3 7

/-! ### The default build -/

/-- `lseek` with `SEEK_HOLE` comes behind some bytes when none of them is in a
hole. -/
theorem seekHole_reaches_iff
    {cache : CacheFile}
    (block : Nat)
    (nonempty : 0 < size) :
    (match cache.seekHole block offset with
      | none => false
      | some lrv => decide (offset + size ≤ lrv)) = true ↔
      ∀ i, i < size → cache.hole block (offset + i) = false := by
  constructor
  · intro reached i inside
    cases sought : cache.seekHole block offset with
    | none => simp [sought] at reached
    | some lrv =>
        rw [sought] at reached
        exact hole_of_seekHole sought (Nat.le_add_right _ _)
          (by have := of_decide_eq_true reached; omega)
  · intro noHole
    have first := (hole_eq_false.mp (noHole 0 nonempty)).1
    rw [CacheFile.seekHole, if_neg (by omega)]
    cases found : (List.range (cache.bytes.length - offset + 1)).find?
        fun i => cache.hole block (offset + i) with
    | none =>
        have last := List.find?_eq_none.mp found (cache.bytes.length - offset)
          (List.mem_range.mpr (Nat.lt_succ_self _))
        rw [Nat.add_sub_cancel' (by omega), CacheFile.hole,
          decide_eq_true (Nat.le_refl _), Bool.true_or] at last
        exact absurd rfl last
    | some i =>
        have isHole := (List.find?_range_eq_some.mp found).1
        rw [Option.map_some]
        apply decide_eq_true
        by_contra short
        rw [noHole i (by omega)] at isHole
        cases isHole

/-- The default build hits when the bytes are not in holes. -/
theorem getCache_eq_ite
    {cache : CacheFile}
    (enabled : env.useCache = true) :
    getCache env newFile cache size offset =
      if (newFile = true ∨
            ∀ i, i < size → cache.hole env.block (offset + i) = false) ∧
          (cache.read offset size).length = size then
        some (cache.read offset size)
      else none := by
  rw [getCache, enabled, if_neg (by decide)]
  apply if_congr _ rfl rfl
  rw [Bool.and_eq_true, beq_iff_eq]
  apply and_congr_left'
  by_cases isZero : size = 0
  · subst isZero
    refine iff_of_true ?_ (Or.inr fun _ below => absurd below (Nat.not_lt_zero _))
    rw [beq_self_eq_true, Bool.or_true, Bool.true_or]
  · rw [beq_false_of_ne isZero, Bool.or_false, Bool.or_eq_true]
    exact or_congr_right (seekHole_reaches_iff env.block (by omega))

/-- A byte that was filled is in no hole. -/
theorem Exact.hole_eq_false
    (exact_ : Exact filled both)
    (block : Nat)
    (isKnown : (known filled x).isSome = true) :
    both.cache.hole block x = false := by
  rw [File.hole_eq_false, exact_.cache, length_writtenCache]
  exact ⟨known_lt_filledEnd isKnown, allocated_of_known block isKnown⟩

/-- With blocks of one byte all other bytes are in holes. -/
theorem Exact.hole_one_eq_false_iff
    (exact_ : Exact filled both) :
    both.cache.hole 1 x = false ↔ (known filled x).isSome = true := by
  refine ⟨fun noHole => ?_, exact_.hole_eq_false 1⟩
  rw [File.hole_eq_false, exact_.cache] at noHole
  exact known_of_allocated noHole.2

/-- Where the build with the bitmap hits, so does the default build, with the
same bytes.  On a file system with blocks of one byte the two builds agree. -/
theorem bitmap_hits_are_hits
    (sys : Sys)
    (enabled : env.useCache = true)
    (ops : List CacheOp)
    (newFile : Bool)
    (size offset : Nat)
    (run : (runCache sys env ops).run BitmapCache.empty = ((), both)) :
    (∀ bytes,
      ((getBitmapCache sys env newFile size offset).run both).1 = some bytes →
        getCache env newFile both.cache size offset = some bytes) ∧
      (env.block = 1 →
        ((getBitmapCache sys env newFile size offset).run both).1 =
          getCache env newFile both.cache size offset) := by
  have reached := @Exact.runCache sys env [] _ exact_empty enabled ops
  rw [run, List.append_nil] at reached
  rw [(reached.get enabled).1, getCache_eq_ite enabled]
  constructor
  · intro bytes hit
    rw [Option.ite_none_right_eq_some] at hit
    obtain ⟨⟨allKnown, whole⟩, isRead⟩ := hit
    rw [if_pos ⟨allKnown.imp_right fun all i inside =>
      reached.hole_eq_false env.block (all i inside), whole⟩]
    exact isRead
  · intro one
    apply if_congr _ rfl rfl
    apply and_congr_left'
    apply or_congr_right
    refine forall_congr' fun i => imp_congr_right fun _ => ?_
    rw [one, reached.hole_one_eq_false_iff]

/-- Both builds find a byte behind a gap. -/
theorem bitmap_hits_are_hits_gap :
    ∃ both,
      (runCache noSeek cachedMount [.fill [1] 0, .fill [2] 2]).run
          BitmapCache.empty = ((), both) ∧
        getCache cachedMount false both.cache 1 2 = some [2] := by
  have reached := @Exact.runCache noSeek cachedMount [] _ exact_empty rfl
    [.fill [1] 0, .fill [2] 2]
  refine ⟨_, rfl, ?_⟩
  apply (bitmap_hits_are_hits noSeek rfl [.fill [1] 0, .fill [2] 2] false 1 2
    rfl).1 [2]
  exact reached.get_eq_answer rfl

end Cache

end File
end Gdpfs
