import Gdpfs.File.Plain
import Gdpfs.File.Writers

/-!
# Concurrent writers take turns

The locks of `do_write` overlap: a call takes `figtree_lock` before it gives
`cache_lock` back.  So the cache is filled, records are numbered, bytes are
indexed and records are appended in one order, and what the calls leave is what
they would leave one after the other.
-/

namespace Gdpfs
namespace File

open Log FigTree Effect
open Cells (Owns Holds cell Store)

/-! ## Locks -/

/-- The statements between taking a lock and giving it back, when there is a
cache. -/
def Lock.points : Lock → List WritePoint
  | .refCount => [.ref, .unlockRef]
  | .indexFlush => [.countReq, .unlockReqs]
  | .cache => [.fillCache, .lockIndex, .unlockCache]
  | .figtree => [.unlockCache, .number, .index, .append, .unlockIndex]

/-- A lock is held by the call that is between taking it and giving it
back. -/
def Locked (writers : Writers n) : Prop :=
  ∀ lock i, writers.owner lock = some i ↔ writers.point i ∈ lock.points

section Locks

variable {n : Nat} {writers : Writers n} {i : Fin n} {lock : Lock}
  {next : WritePoint}

theorem allows_takeLock :
    Allows (takeLock lock i next)
      (fun _ after => writers.owner lock = none ∧
        after = { writers.goTo i next with
          owner := Function.update writers.owner lock (some i) })
      writers := by
  rw [takeLock, allows_bind, allows_get]
  split
  · next free => exact allows_set.mpr ⟨free, rfl⟩
  · exact allows_throw

theorem allows_releaseLock :
    Allows (releaseLock lock i next)
      (fun _ after => after = { writers.goTo i next with
        owner := Function.update writers.owner lock none }) writers := by
  rw [releaseLock, allows_bind, allows_get]
  exact allows_set.mpr rfl

theorem allows_onWorld
    {action : FileM α}
    {post : α → World → Prop}
    (allows : Allows action post writers.world) :
    Allows (onWorld action i next)
      (fun _ after => ∃ value world, post value world ∧
        after = { writers.goTo i next with world := world }) writers := by
  rw [onWorld, allows_bind, allows_get]
  cases run : action.run writers.world with
  | error fault => exact allows_throw
  | ok result =>
      exact allows_set.mpr
        ⟨result.1, result.2, allows _ _ run, rfl⟩

theorem allows_onWorld_of_run
    {action : FileM α}
    {world : World}
    (run : action.run writers.world = .ok (value, world)) :
    Allows (onWorld action i next)
      (fun _ after => after = { writers.goTo i next with world := world })
      writers := by
  rw [onWorld, allows_bind, allows_get, run]
  exact allows_set.mpr rfl

theorem allows_numberRecord :
    Allows (numberRecord i next)
      (fun _ after => after = { writers.goTo i next with
        world := { writers.world with
          file := { writers.world.file with
            lastRecno := writers.world.file.lastRecno + 1 } }
        rc := Function.update writers.rc i
          (writers.world.file.lastRecno + 1) }) writers := by
  rw [numberRecord]
  refine (allows_onWorld_of_run (run_modifyFile _ _)).bind ?_
  rintro _ _ rfl
  rw [allows_bind, allows_get]
  exact allows_set.mpr rfl

theorem goTo_point_self (writers : Writers n) (i : Fin n) :
    (writers.goTo i next).point i = next :=
  Function.update_self _ _ _

theorem goTo_point_of_ne
    (writers : Writers n)
    {j : Fin n}
    (different : j ≠ i) :
    (writers.goTo i next).point j = writers.point j :=
  Function.update_of_ne different _ _

/-- A statement that neither takes nor gives back a lock. -/
theorem Locked.stay
    (locked : Locked writers)
    (isPoint : writers.point i = point)
    (same : ∀ lock : Lock, next ∈ lock.points ↔ point ∈ lock.points) :
    Locked (writers.goTo i next) := by
  subst isPoint
  intro lock j
  by_cases isSelf : j = i
  · rw [isSelf, goTo_point_self, same]
    exact locked lock i
  · rw [goTo_point_of_ne _ isSelf]
    exact locked lock j

theorem Locked.take
    (locked : Locked writers)
    (isPoint : writers.point i = point)
    (free : writers.owner lock = none)
    (taken : ∀ other : Lock, next ∈ other.points ↔
      other = lock ∨ point ∈ other.points) :
    Locked { writers.goTo i next with
      owner := Function.update writers.owner lock (some i) } := by
  subst isPoint
  intro other j
  dsimp only
  by_cases isLock : other = lock
  · subst isLock
    rw [Function.update_self]
    by_cases isSelf : j = i
    · subst isSelf
      rw [goTo_point_self, taken]
      simp
    · rw [goTo_point_of_ne _ isSelf, ← locked, free]
      simp [Ne.symm isSelf]
  · rw [Function.update_of_ne isLock]
    by_cases isSelf : j = i
    · rw [isSelf, goTo_point_self, taken, locked]
      simp [isLock]
    · rw [goTo_point_of_ne _ isSelf]
      exact locked other j

theorem Locked.release
    (locked : Locked writers)
    (isPoint : writers.point i = point)
    (held : point ∈ lock.points)
    (released : ∀ other : Lock, next ∈ other.points ↔
      other ≠ lock ∧ point ∈ other.points) :
    Locked { writers.goTo i next with
      owner := Function.update writers.owner lock none } := by
  subst isPoint
  intro other j
  dsimp only
  by_cases isLock : other = lock
  · subst isLock
    rw [Function.update_self]
    by_cases isSelf : j = i
    · rw [isSelf, goTo_point_self, released]
      simp
    · rw [goTo_point_of_ne _ isSelf, ← locked, (locked other i).mpr held]
      simp [Ne.symm isSelf]
  · rw [Function.update_of_ne isLock]
    by_cases isSelf : j = i
    · rw [isSelf, goTo_point_self, released, locked]
      simp [isLock]
    · rw [goTo_point_of_ne _ isSelf]
      exact locked other j

end Locks

/-! ## One call after the other -/

/-- Calls of `do_write` one after the other. -/
def serialRun
    (env : Env)
    (calls : Fin n → WriteArgs)
    (order : List (Fin n)) : FileM Unit :=
  forM order fun i => do
    let _ ← doWrite env true (calls i).buf (calls i).offset (calls i).info

theorem serialRun_append
    (env : Env)
    (calls : Fin n → WriteArgs)
    (first second : List (Fin n)) :
    serialRun env calls (first ++ second) =
      serialRun env calls first >>= fun _ => serialRun env calls second := by
  simp [serialRun, List.forM_append]

/-- What `do_write` changes under `figtree_lock`. -/
def World.index (world : World) :
    Nat × Option Figtree × Heap × List LogRecord :=
  (world.file.lastRecno, world.file.figtree, world.heap, world.log)

/-- However the heap is read as a tree, `ft_write` meets no child that is not
in memory. -/
def World.WayLoaded (env : Env) (world : World) (call : WriteArgs) : Prop :=
  ∀ this fig, world.file.figtree = some this → fig.Sound partlyLoaded →
    Holds (FigRep (env.fetchable world.log) fig this) 0 world.heap →
    0 < call.buf.length →
    fig.wayLoaded (writeRange call.offset call.buf.length) = true

theorem World.WayLoaded.congr
    {env : Env}
    {world other : World}
    (way : world.WayLoaded env call)
    (same : world.index = other.index) :
    other.WayLoaded env call := by
  simp only [World.index, Prod.mk.injEq] at same
  obtain ⟨_, isTree, isHeap, isLog⟩ := same
  intro this fig
  rw [← isTree, ← isHeap, ← isLog]
  exact way this fig

/-- How far a call that holds `figtree_lock` has come; `serial` is the file
before it. -/
def Underway
    (env : Env)
    (call : WriteArgs)
    (rc : Nat)
    (serial world : World) : WritePoint → Prop
  | .unlockCache => world.index = serial.index
  | .number => world.index = serial.index
  | .index =>
      rc = serial.file.lastRecno + 1 ∧
        world.index =
          (rc, serial.file.figtree, serial.heap, serial.log)
  | .append =>
      rc = serial.file.lastRecno + 1 ∧ serial.WayLoaded env call ∧
        ∃ figtree heap,
          Indexed env serial call.offset call.buf.length rc figtree heap ∧
          world.index = (rc, figtree, heap, serial.log)
  | .unlockIndex =>
      rc = serial.file.lastRecno + 1 ∧ serial.WayLoaded env call ∧
        ∃ figtree heap,
          Indexed env serial call.offset call.buf.length rc figtree heap ∧
          world.index = ((serial.written env true call.buf call.offset
            call.info).withIndex figtree heap).index
  | _ => False

/-- How far the index has come. -/
def IndexAt
    (env : Env)
    (calls : Fin n → WriteArgs)
    (serial : World)
    (writers : Writers n) : Option (Fin n) → Prop
  | none => writers.world.index = serial.index
  | some i =>
      Underway env (calls i) (writers.rc i) serial writers.world
        (writers.point i)

/-- The call that has filled the cache and waits for `figtree_lock`. -/
def Writers.waiting (writers : Writers n) : Option (Fin n) :=
  (writers.owner .cache).filter fun i => writers.point i = .lockIndex

/-- The cache after the call, if any, has filled it. -/
def filledBy (calls : Fin n → WriteArgs) (cache : CacheFile) :
    Option (Fin n) → CacheFile
  | none => cache
  | some i => cache.write (calls i).offset (calls i).buf

/-- Concurrent calls, some of which have returned: these ran one after the
other, then the one that holds `figtree_lock` does what it has done, then the
one that holds `cache_lock`. -/
structure Serial
    (env : Env)
    (calls : Fin n → WriteArgs)
    (start : World)
    (finished : List (Fin n))
    (serial : World)
    (writers : Writers n) : Prop where
  locked : Locked writers
  nodup : finished.Nodup
  ended : ∀ i, i ∈ finished ↔ writers.point i = .returned
  runs : (serialRun env calls finished).run start = .ok ((), serial)
  ways : ∀ before i after world, finished = before ++ i :: after →
    (serialRun env calls before).run start = .ok ((), world) →
    world.WayLoaded env (calls i)
  count : serial.file.lastRecno = start.file.lastRecno + finished.length
  numbers : ∀ k i, finished[k]? = some i →
    writers.rc i = start.file.lastRecno + k + 1
  index : IndexAt env calls serial writers (writers.owner .figtree)
  cache : writers.world.cache =
    filledBy calls (filledBy calls serial.cache (writers.owner .figtree))
      writers.waiting

section Steps

variable {n : Nat} {env : Env} {calls : Fin n → WriteArgs}
  {start serial : World} {finished : List (Fin n)}
  {writers after : Writers n} {i : Fin n}

/-- A step of a call that goes on. -/
theorem Serial.going
    (invariant : Serial env calls start finished serial writers)
    (locked : Locked after)
    (points : ∀ j, j ≠ i → after.point j = writers.point j)
    (rcs : ∀ j, j ≠ i → after.rc j = writers.rc j)
    (before : writers.point i ≠ .returned)
    (goesOn : after.point i ≠ .returned)
    (index : IndexAt env calls serial after (after.owner .figtree))
    (cache : after.world.cache =
      filledBy calls (filledBy calls serial.cache (after.owner .figtree))
        after.waiting) :
    Serial env calls start finished serial after where
  locked := locked
  nodup := invariant.nodup
  ended := by
    intro j
    rw [invariant.ended]
    by_cases isSelf : j = i
    · rw [isSelf]
      exact ⟨fun ended => absurd ended before,
        fun ended => absurd ended goesOn⟩
    · rw [points j isSelf]
  runs := invariant.runs
  ways := invariant.ways
  count := invariant.count
  numbers := by
    intro k j found
    have ended := (invariant.ended j).mp (List.mem_of_getElem? found)
    rw [rcs j (by rintro rfl; exact before ended)]
    exact invariant.numbers k j found
  index := index
  cache := cache

theorem IndexAt.keep
    {owner : Option (Fin n)}
    (index : IndexAt env calls serial writers owner)
    (world : after.world.index = writers.world.index)
    (same : ∀ j, owner = some j →
      after.point j = writers.point j ∧ after.rc j = writers.rc j) :
    IndexAt env calls serial after owner := by
  cases owner with
  | none => exact world.trans index
  | some j =>
      obtain ⟨samePoint, sameRc⟩ := same j rfl
      have index : Underway _ _ _ _ _ _ := index
      change Underway _ _ _ _ _ _
      rw [samePoint, sameRc]
      cases isPoint : writers.point j <;> rw [isPoint] at index <;>
        first
          | exact index
          | exact world.trans index
          | exact ⟨index.1, world.trans index.2⟩
          | skip
      all_goals
        obtain ⟨isRc, way, figtree, heap, indexed, isIndex⟩ := index
        exact ⟨isRc, way, figtree, heap, indexed, world.trans isIndex⟩

theorem Writers.waiting_keep
    (owner : after.owner .cache = writers.owner .cache)
    (same : ∀ j, writers.owner .cache = some j →
      after.point j = writers.point j) :
    after.waiting = writers.waiting := by
  rw [Writers.waiting, Writers.waiting, owner]
  cases isOwner : writers.owner .cache with
  | none => rfl
  | some j => simp only [Option.filter, same j isOwner]

/-- A call holds the locks that its statement is under. -/
theorem Locked.isOwner
    (locked : Locked writers)
    (isPoint : writers.point i = point)
    (inside : point ∈ lock.points) :
    writers.owner lock = some i :=
  (locked lock i).mpr (isPoint ▸ inside)

/-- A call holds no lock that its statement is not under. -/
theorem Locked.notOwner
    (locked : Locked writers)
    (isPoint : writers.point i = point)
    (outside : point ∉ lock.points) :
    writers.owner lock ≠ some i :=
  mt (locked lock i).mp (isPoint ▸ outside)

/-- A step under neither of the two locks. -/
theorem Serial.aside
    (invariant : Serial env calls start finished serial writers)
    (isPoint : writers.point i = point)
    (outside : point ∉ .returned :: (Lock.cache.points ++
      Lock.figtree.points))
    (goesOn : next ≠ .returned)
    (locked : Locked after)
    (points : after.point = (writers.goTo i next).point)
    (rcs : after.rc = writers.rc)
    (owner : after.owner .cache = writers.owner .cache)
    (owner' : after.owner .figtree = writers.owner .figtree)
    (index : after.world.index = writers.world.index)
    (cache : after.world.cache = writers.world.cache) :
    Serial env calls start finished serial after := by
  simp only [List.mem_cons, List.mem_append, not_or] at outside
  obtain ⟨before, noCache, noIndex⟩ := outside
  have others : ∀ j, j ≠ i → after.point j = writers.point j := by
    intro j different
    rw [points]
    exact goTo_point_of_ne _ different
  refine invariant.going locked others (fun j _ => congrFun rcs j)
    (isPoint ▸ before) ?_ ?_ ?_
  · rw [points, goTo_point_self]
    exact goesOn
  · rw [owner']
    refine invariant.index.keep index fun j isOwner => ?_
    refine ⟨others j ?_, congrFun rcs j⟩
    rintro rfl
    exact invariant.locked.notOwner isPoint noIndex isOwner
  · rw [cache, owner', invariant.cache, Writers.waiting_keep owner]
    intro j isOwner
    refine others j ?_
    rintro rfl
    exact invariant.locked.notOwner isPoint noCache isOwner

theorem Serial.lockCache
    (invariant : Serial env calls start finished serial writers)
    (isPoint : writers.point i = .lockCache)
    (free : writers.owner .cache = none) :
    Serial env calls start finished serial
      { writers.goTo i .fillCache with
        owner := Function.update writers.owner .cache (some i) } := by
  have noIndex : writers.owner .figtree ≠ some i :=
    invariant.locked.notOwner isPoint (by decide)
  refine invariant.going (i := i) ?_
    (fun j different => goTo_point_of_ne _ different) (fun _ _ => rfl)
    (by rw [isPoint]; decide) (by simp [Writers.goTo]) ?_ ?_
  · refine invariant.locked.take isPoint free fun other => ?_
    cases other <;> decide
  · refine invariant.index.keep rfl fun j isOwner => ⟨?_, rfl⟩
    refine goTo_point_of_ne _ ?_
    rintro rfl
    exact noIndex isOwner
  · have idle : writers.waiting = none := by
      rw [Writers.waiting, free]
      rfl
    have idle' : Writers.waiting { writers.goTo i .fillCache with
        owner := Function.update writers.owner .cache (some i) } =
        none := by
      simp [Writers.waiting, Writers.goTo]
    rw [idle']
    refine invariant.cache.trans ?_
    rw [idle]
    rfl

theorem Serial.fillCache
    (invariant : Serial env calls start finished serial writers)
    (enabled : env.useCache = true)
    (isPoint : writers.point i = .fillCache) :
    Serial env calls start finished serial
      { writers.goTo i .lockIndex with
        world := writers.world.fillCache env (calls i).buf
          (calls i).offset } := by
  have owner : writers.owner .cache = some i :=
    invariant.locked.isOwner isPoint (by decide)
  have noIndex : writers.owner .figtree ≠ some i :=
    invariant.locked.notOwner isPoint (by decide)
  refine invariant.going (i := i) ?_
    (fun j different => goTo_point_of_ne _ different) (fun _ _ => rfl)
    (by rw [isPoint]; decide) (by simp [Writers.goTo]) ?_ ?_
  · refine invariant.locked.stay isPoint fun lock => ?_
    cases lock <;> decide
  · refine invariant.index.keep rfl fun j isOwner => ⟨?_, rfl⟩
    refine goTo_point_of_ne _ ?_
    rintro rfl
    exact noIndex isOwner
  · have idle : writers.waiting = none := by
      simp [Writers.waiting, owner, isPoint]
    have waits : Writers.waiting { writers.goTo i .lockIndex with
        world := writers.world.fillCache env (calls i).buf
          (calls i).offset } = some i := by
      simp [Writers.waiting, Writers.goTo, owner]
    rw [waits]
    simp only [World.fillCache, enabled, if_true]
    rw [invariant.cache, idle]
    rfl

theorem Serial.lockIndex
    (invariant : Serial env calls start finished serial writers)
    (isPoint : writers.point i = .lockIndex)
    (free : writers.owner .figtree = none) :
    Serial env calls start finished serial
      { writers.goTo i .unlockCache with
        owner := Function.update writers.owner .figtree (some i) } := by
  have owner : writers.owner .cache = some i :=
    invariant.locked.isOwner isPoint (by decide)
  refine invariant.going (i := i) ?_
    (fun j different => goTo_point_of_ne _ different) (fun _ _ => rfl)
    (by rw [isPoint]; decide) (by simp [Writers.goTo]) ?_ ?_
  · refine invariant.locked.take isPoint free fun other => ?_
    cases other <;> decide
  · have index := invariant.index
    rw [free] at index
    dsimp only
    rw [Function.update_self]
    change Underway _ _ _ _ _ _
    rw [goTo_point_self]
    exact index
  · have waits : writers.waiting = some i := by
      simp [Writers.waiting, owner, isPoint]
    have idle : Writers.waiting { writers.goTo i .unlockCache with
        owner := Function.update writers.owner .figtree (some i) } =
        none := by
      simp [Writers.waiting, Writers.goTo, owner]
    rw [idle]
    dsimp only
    rw [Function.update_self]
    refine invariant.cache.trans ?_
    rw [waits, free]
    rfl

theorem Serial.unlockCache
    (invariant : Serial env calls start finished serial writers)
    (isPoint : writers.point i = .unlockCache) :
    Serial env calls start finished serial
      { writers.goTo i .number with
        owner := Function.update writers.owner .cache none } := by
  have owner : writers.owner .cache = some i :=
    invariant.locked.isOwner isPoint (by decide)
  have owner' : writers.owner .figtree = some i :=
    invariant.locked.isOwner isPoint (by decide)
  refine invariant.going (i := i) ?_
    (fun j different => goTo_point_of_ne _ different) (fun _ _ => rfl)
    (by rw [isPoint]; decide) (by simp [Writers.goTo]) ?_ ?_
  · refine invariant.locked.release isPoint (by decide) fun other => ?_
    cases other <;> decide
  · have index := invariant.index
    rw [owner'] at index
    change Underway _ _ _ _ _ _ at index
    rw [isPoint] at index
    dsimp only
    rw [Function.update_of_ne (by decide), owner']
    change Underway _ _ _ _ _ _
    rw [goTo_point_self]
    exact index
  · have idle : writers.waiting = none := by
      simp [Writers.waiting, owner, isPoint]
    have idle' : Writers.waiting { writers.goTo i .number with
        owner := Function.update writers.owner .cache none } =
        none := by
      simp [Writers.waiting, Writers.goTo]
    rw [idle']
    dsimp only
    rw [Function.update_of_ne (by decide)]
    refine invariant.cache.trans ?_
    rw [idle]

/-- How far the call that holds `figtree_lock` has come. -/
theorem Serial.underway
    (invariant : Serial env calls start finished serial writers)
    (isPoint : writers.point i = point)
    (inside : point ∈ Lock.figtree.points) :
    Underway env (calls i) (writers.rc i) serial writers.world point := by
  have index := invariant.index
  rw [invariant.locked.isOwner isPoint inside] at index
  exact isPoint ▸ index

/-- A step under `figtree_lock` alone, after which a call goes on. -/
theorem Serial.indexing
    (invariant : Serial env calls start finished serial writers)
    (isPoint : writers.point i = point)
    (inside : point ∈ Lock.figtree.points)
    (outside : point ∉ Lock.cache.points)
    (same : ∀ lock : Lock, next ∈ lock.points ↔ point ∈ lock.points)
    (points : after.point = (writers.goTo i next).point)
    (owner : after.owner = writers.owner)
    (rcs : ∀ j, j ≠ i → after.rc j = writers.rc j)
    (cache : after.world.cache = writers.world.cache)
    (underway : Underway env (calls i) (after.rc i) serial after.world
      next) :
    Serial env calls start finished serial after := by
  have others : ∀ j, j ≠ i → after.point j = writers.point j := by
    intro j different
    rw [points]
    exact goTo_point_of_ne _ different
  have here : after.point i = next := by
    rw [points]
    exact goTo_point_self _ _
  have inside' : next ∈ Lock.figtree.points := (same _).mpr inside
  refine invariant.going (i := i) ?_ others rcs ?_ ?_ ?_ ?_
  · intro lock j
    rw [owner, points]
    exact invariant.locked.stay isPoint same lock j
  · rw [isPoint]
    rintro rfl
    exact absurd inside (by decide)
  · rw [here]
    rintro rfl
    exact absurd inside' (by decide)
  · rw [owner, invariant.locked.isOwner isPoint inside]
    change Underway _ _ _ _ _ _
    rw [here]
    exact underway
  · rw [cache, owner, invariant.cache,
      Writers.waiting_keep (congrFun owner _)]
    intro j isOwner
    refine others j ?_
    rintro rfl
    exact invariant.locked.notOwner isPoint outside isOwner

theorem ensures_writeIndex_of_indexed
    {world : World}
    {buf : List UInt8}
    {offset : Nat}
    (indexed : Indexed env world offset buf.length (world.file.lastRecno + 1)
      figtree heap) :
    Ensures (writeIndex env buf offset)
      (fun _ next => next = { world with
        file := { world.file with
          lastRecno := world.file.lastRecno + 1, figtree := figtree }
        heap := heap }) world := by
  rw [writeIndex, ensures_run_bind (run_modifyFile _ _), ensures_bind,
    ensures_get]
  dsimp only
  by_cases nonempty : 0 < buf.length
  · rw [Indexed, if_pos nonempty] at indexed
    obtain ⟨this, this', isTree, rfl, run⟩ := indexed
    rw [if_pos nonempty, indexWrite, ensures_bind, ensures_get, isTree]
    dsimp only
    rw [ensures_run_bind (run_onTree run),
      ensures_of_run (run_modifyFile _ _)]
  · rw [Indexed, if_neg nonempty] at indexed
    obtain ⟨rfl, rfl⟩ := indexed
    rw [if_neg nonempty, ensures_pure]

/-- `do_write` returns if `ft_write` does. -/
theorem ensures_doWrite_of_indexed
    {world : World}
    {buf : List UInt8}
    {offset : Nat}
    (indexed : Indexed env world offset buf.length (world.file.lastRecno + 1)
      figtree heap)
    (info : FileInfo) :
    Ensures (doWrite env true buf offset info)
      (fun _ next => next = (world.written env true buf offset
        info).withIndex figtree heap) world := by
  rw [doWrite, ensures_run_bind (run_modifyFile _ _),
    ensures_run_bind (run_modifyFile _ _),
    ensures_run_bind (run_writeCache _ _ _ _)]
  have started : Indexed env ({ world with
      file := { fileRef world.file with
        outstandingReqs := world.file.outstandingReqs + 1 } }.fillCache env
          buf offset) offset buf.length (world.file.lastRecno + 1) figtree
      heap := indexed
  refine (ensures_writeIndex_of_indexed started).bind ?_
  rintro _ _ rfl
  rw [ensures_run_bind (run_gdpfsLogAppend _ _ _ _), ensures_pure]
  rfl

theorem serialRun_concat
    (runs : (serialRun env calls finished).run start = .ok ((), serial))
    (indexed : Indexed env serial (calls i).offset (calls i).buf.length
      (serial.file.lastRecno + 1) figtree heap) :
    (serialRun env calls (finished ++ [i])).run start =
      .ok ((), (serial.written env true (calls i).buf (calls i).offset
        (calls i).info).withIndex figtree heap) := by
  have last : Ensures (serialRun env calls (finished ++ [i]))
      (fun _ next => next = (serial.written env true (calls i).buf
        (calls i).offset (calls i).info).withIndex figtree heap) start := by
    rw [serialRun_append, ensures_run_bind runs, serialRun, List.forM_cons,
      bind_assoc]
    refine Ensures.bind (ensures_doWrite_of_indexed indexed _) ?_
    intro _ _ isNext
    rw [pure_bind]
    exact ensures_pure.mpr isNext
  obtain ⟨_, _, run, rfl⟩ := last
  exact run

/-- A call returns. -/
theorem Serial.unlockIndex
    (invariant : Serial env calls start finished serial writers)
    (enabled : env.useCache = true)
    (isPoint : writers.point i = .unlockIndex) :
    ∃ serial', Serial env calls start (finished ++ [i]) serial'
      { writers.goTo i .returned with
        owner := Function.update writers.owner .figtree none } := by
  have owner : writers.owner .figtree = some i :=
    invariant.locked.isOwner isPoint (by decide)
  have noCache : writers.owner .cache ≠ some i :=
    invariant.locked.notOwner isPoint (by decide)
  obtain ⟨isRc, way, figtree, heap, indexed, isIndex⟩ :=
    invariant.underway isPoint (by decide)
  rw [isRc] at indexed
  have new : i ∉ finished := by
    rw [invariant.ended, isPoint]
    decide
  refine ⟨(serial.written env true (calls i).buf (calls i).offset
    (calls i).info).withIndex figtree heap, ?_⟩
  constructor
  case locked =>
    refine invariant.locked.release isPoint (by decide) fun other => ?_
    cases other <;> decide
  case nodup =>
    exact List.nodup_append.mpr ⟨invariant.nodup, List.nodup_singleton i,
      by rintro a member b single rfl
         rw [List.mem_singleton.mp single] at member
         exact new member⟩
  case ended =>
    intro j
    rw [List.mem_append, List.mem_singleton]
    by_cases isSelf : j = i
    · simp [isSelf, Writers.goTo]
    · rw [invariant.ended]
      simp only [Writers.goTo, Function.update_of_ne isSelf, isSelf,
        or_false]
  case runs => exact serialRun_concat invariant.runs indexed
  case ways =>
    intro before j after world split run
    rcases List.eq_nil_or_concat after with rfl | ⟨rest, last, rfl⟩
    · obtain ⟨rfl, same⟩ := List.append_inj' split rfl
      cases same
      cases invariant.runs.symm.trans run
      exact way
    · rw [List.concat_eq_append, ← List.cons_append,
        ← List.append_assoc] at split
      obtain ⟨split, _⟩ := List.append_inj' split rfl
      exact invariant.ways before j rest world split run
  case count =>
    rw [List.length_append, List.length_singleton, ← Nat.add_assoc,
      ← invariant.count]
    rfl
  case numbers =>
    intro k j found
    rw [List.getElem?_append] at found
    split at found
    · exact invariant.numbers k j found
    · next past =>
        rw [List.getElem?_singleton] at found
        split at found
        · next isLast =>
            cases found
            refine isRc.trans ?_
            rw [invariant.count]
            omega
        · cases found
  case index =>
    dsimp only
    rw [Function.update_self]
    exact isIndex
  case cache =>
    have waiting : Writers.waiting { writers.goTo i .returned with
        owner := Function.update writers.owner .figtree none } =
        writers.waiting := by
      have same : Function.update writers.owner Lock.figtree none
          Lock.cache = writers.owner Lock.cache :=
        Function.update_of_ne (by decide) _ _
      refine Writers.waiting_keep same fun j isOwner => goTo_point_of_ne _ ?_
      rintro rfl
      exact noCache isOwner
    dsimp only
    rw [Function.update_self, waiting]
    refine invariant.cache.trans ?_
    rw [owner]
    simp only [filledBy, World.withIndex, World.written, World.fillCache,
      enabled, if_true]

/-- The call of `ft_write`, if there are bytes to write. -/
theorem allows_indexStep
    {world : World}
    (call : WriteArgs)
    (rc : Nat) :
    Allows
      (if 0 < call.buf.length then
        indexWrite env call.offset call.buf.length rc
      else pure ())
      (fun _ next => ∃ figtree heap,
        Indexed env world call.offset call.buf.length rc figtree heap ∧
        next = world.withIndex figtree heap) world := by
  by_cases nonempty : 0 < call.buf.length
  · rw [if_pos nonempty]
    exact allows_indexWrite _ _ nonempty
  · rw [if_neg nonempty, allows_pure]
    refine ⟨world.file.figtree, world.heap, ?_, rfl⟩
    rw [Indexed, if_neg nonempty]
    exact ⟨rfl, rfl⟩

theorem Indexed.congr
    {world other : World}
    {offset : Int}
    (indexed : Indexed env world offset size recno figtree heap)
    (isTree : other.file.figtree = world.file.figtree)
    (isHeap : other.heap = world.heap)
    (isLog : other.log = world.log) :
    Indexed env other offset size recno figtree heap := by
  unfold Indexed at indexed ⊢
  rw [isTree, isHeap, isLog]
  exact indexed

/-- Every step keeps the calls in an order. -/
theorem Serial.allows_step
    (invariant : Serial env calls start finished serial writers)
    (enabled : env.useCache = true)
    (way : writers.point i = .index →
      writers.world.WayLoaded env (calls i)) :
    Allows (writerStep env calls i)
      (fun _ after => ∃ finished serial,
        Serial env calls start finished serial after) writers := by
  have locked := invariant.locked
  rw [writerStep, allows_bind, allows_get]
  simp only [enabled, if_true]
  cases isPoint : writers.point i with
  | lockRef =>
      refine allows_takeLock.mono ?_
      rintro _ _ ⟨free, rfl⟩
      refine ⟨finished, serial, invariant.aside isPoint (by decide)
        (by decide) (locked.take isPoint free fun other => ?_)
        rfl rfl rfl rfl rfl rfl⟩
      cases other <;> decide
  | ref =>
      refine (allows_onWorld_of_run (run_modifyFile _ _)).mono ?_
      rintro _ _ rfl
      refine ⟨finished, serial, invariant.aside isPoint (by decide)
        (by decide) (locked.stay isPoint fun other => ?_)
        rfl rfl rfl rfl rfl rfl⟩
      cases other <;> decide
  | unlockRef =>
      refine allows_releaseLock.mono ?_
      rintro _ _ rfl
      refine ⟨finished, serial, invariant.aside isPoint (by decide)
        (by decide) (locked.release isPoint (by decide) fun other => ?_)
        rfl rfl rfl rfl rfl rfl⟩
      cases other <;> decide
  | lockReqs =>
      refine allows_takeLock.mono ?_
      rintro _ _ ⟨free, rfl⟩
      refine ⟨finished, serial, invariant.aside isPoint (by decide)
        (by decide) (locked.take isPoint free fun other => ?_)
        rfl rfl rfl rfl rfl rfl⟩
      cases other <;> decide
  | countReq =>
      refine (allows_onWorld_of_run (run_modifyFile _ _)).mono ?_
      rintro _ _ rfl
      refine ⟨finished, serial, invariant.aside isPoint (by decide)
        (by decide) (locked.stay isPoint fun other => ?_)
        rfl rfl rfl rfl rfl rfl⟩
      cases other <;> decide
  | unlockReqs =>
      refine allows_releaseLock.mono ?_
      rintro _ _ rfl
      refine ⟨finished, serial, invariant.aside isPoint (by decide)
        (by decide) (locked.release isPoint (by decide) fun other => ?_)
        rfl rfl rfl rfl rfl rfl⟩
      cases other <;> decide
  | lockCache =>
      refine allows_takeLock.mono ?_
      rintro _ _ ⟨free, rfl⟩
      exact ⟨finished, serial, invariant.lockCache isPoint free⟩
  | fillCache =>
      refine (allows_onWorld_of_run (run_gdpfsFileFillCache _ _ _ _)).mono ?_
      rintro _ _ rfl
      exact ⟨finished, serial, invariant.fillCache enabled isPoint⟩
  | lockIndex =>
      refine allows_takeLock.mono ?_
      rintro _ _ ⟨free, rfl⟩
      exact ⟨finished, serial, invariant.lockIndex isPoint free⟩
  | unlockCache =>
      refine allows_releaseLock.mono ?_
      rintro _ _ rfl
      exact ⟨finished, serial, invariant.unlockCache isPoint⟩
  | number =>
      have isIndex := invariant.underway isPoint (by decide)
      refine allows_numberRecord.mono ?_
      rintro _ _ rfl
      refine ⟨finished, serial, invariant.indexing isPoint (by decide)
        (by decide) (fun lock => ?_) rfl rfl
        (fun j different => Function.update_of_ne different _ _) rfl ?_⟩
      · cases lock <;> decide
      · simp only [Underway, World.index, Prod.mk.injEq,
          Function.update_self] at isIndex ⊢
        rw [isIndex.1]
        exact ⟨rfl, trivial, isIndex.2⟩
  | index =>
      obtain ⟨isRc, isIndex⟩ := invariant.underway isPoint (by decide)
      simp only [World.index, Prod.mk.injEq] at isIndex
      obtain ⟨isNumber, isTree, isHeap, isLog⟩ := isIndex
      refine (allows_onWorld (allows_indexStep _ _)).mono ?_
      rintro _ _ ⟨_, _, ⟨figtree, heap, indexed, rfl⟩, rfl⟩
      refine ⟨finished, serial, invariant.indexing isPoint (by decide)
        (by decide) (fun lock => ?_) rfl rfl (fun _ _ => rfl) rfl
        ⟨isRc, ?_, figtree, heap,
          indexed.congr isTree.symm isHeap.symm isLog.symm, ?_⟩⟩
      · cases lock <;> decide
      · intro this fig found sound holds
        refine way isPoint this fig (isTree.trans found) sound ?_
        rw [isLog, isHeap]
        exact holds
      · simp only [World.index, World.withIndex, Writers.goTo, isNumber,
          isLog]
  | append =>
      obtain ⟨isRc, loaded, figtree, heap, indexed, isIndex⟩ :=
        invariant.underway isPoint (by decide)
      refine (allows_onWorld_of_run (run_gdpfsLogAppend _ _ _ _)).mono ?_
      rintro _ _ rfl
      refine ⟨finished, serial, invariant.indexing isPoint (by decide)
        (by decide) (fun lock => ?_) rfl rfl (fun _ _ => rfl) rfl
        ⟨isRc, loaded, figtree, heap, indexed, ?_⟩⟩
      · cases lock <;> decide
      · simp only [World.index, Prod.mk.injEq] at isIndex
        obtain ⟨isNumber, isTree, isHeap, isLog⟩ := isIndex
        simp only [World.index, World.withIndex, World.written,
          World.append, isNumber, isTree, isHeap, isLog, isRc]
  | unlockIndex =>
      refine allows_releaseLock.mono ?_
      rintro _ _ rfl
      exact ⟨finished ++ [i], invariant.unlockIndex enabled isPoint⟩
  | returned => exact allows_throw

end Steps

end File
end Gdpfs
