import Gdpfs.Log.Precreate

/-!
# Waiting for logs created in advance (`gdpfs_log.c`)

The producer and the consumers of the ring sleep on the one condition variable
`precreated_cond`.  The producer wakes everybody when it puts a name into an
empty ring; a consumer wakes a single thread, of whichever kind, when it takes
a name.  Here a section under `precreated_mutex` ends where the thread falls
asleep or unlocks the mutex, and a thread that was woken runs its test again.
-/

namespace Gdpfs
namespace Log

open Effect

/-- The ring, and the threads inside `ep_thr_cond_wait`. -/
structure Waiters where
  ring : Precreated
  producerAsleep : Bool
  /-- Consumers that sleep. -/
  asleep : Nat
  /-- Consumers that were woken and did not get the mutex yet. -/
  woken : Nat

/-- No thread waits after `init_gdpfs_log`. -/
def Waiters.empty : Waiters where
  ring := Precreated.empty
  producerAsleep := false
  asleep := 0
  woken := 0

/-- Code that works on the ring and on the condition variable. -/
abbrev WakeM := StateT Waiters (Except NotReady)

/-- A step on the ring alone. -/
def onRing (action : PrecreateM α) : WakeM α := do
  let state ← get
  match action.run state.ring with
  | .error fault => throw fault
  | .ok (value, ring) => do
      set { state with ring := ring }
      pure value

/-- A choice among the threads that sleep. -/
inductive Sleeper
  | producer
  | consumer
  | nobody
  deriving DecidableEq, Repr

/-- Wake a thread. -/
def wake (whom : Sleeper) : WakeM Unit := do
  let state ← get
  match whom with
  | .producer =>
      if state.producerAsleep then set { state with producerAsleep := false }
      else throw .notReady
  | .consumer =>
      if 0 < state.asleep then
        set { state with
          asleep := state.asleep - 1, woken := state.woken + 1 }
      else throw .notReady
  | .nobody => pure ()

/-- `ep_thr_cond_signal`: one of the threads that sleep wakes, if there is
one. -/
def condSignal (whom : Sleeper) : WakeM Unit := do
  let state ← get
  if whom = .nobody ∧ (state.producerAsleep = true ∨ 0 < state.asleep) then
    throw .notReady
  else wake whom

/-- `ep_thr_cond_broadcast`. -/
def condBroadcast : WakeM Unit := do
  let state ← get
  set { state with
    producerAsleep := false
    asleep := 0
    woken := state.woken + state.asleep }

/-- The first section of `_producer_thread`, up to the wait or the unlock. -/
def producerTest : WakeM Unit := do
  let state ← get
  if state.producerAsleep ∨ state.ring.producer ≠ .waiting then
    throw .notReady
  else if state.ring.precreatedFront =
      (state.ring.precreatedBack + 1) % precreatedMax then
    set { state with producerAsleep := true }
  else onRing producerWait

/-- The second section of `_producer_thread`. -/
def producerAdd : WakeM Unit := do
  onRing producerPublish
  let state ← get
  if state.ring.precreatedBack =
      (state.ring.precreatedFront + 1) % precreatedMax then condBroadcast
  else pure ()

/-- `gdpfs_log_get_precreated` with the mutex held, up to the wait or the
return. -/
def consumerTest (whom : Sleeper) : WakeM (Option GdpName) := do
  let state ← get
  if state.ring.precreatedFront = state.ring.precreatedBack then do
    set { state with asleep := state.asleep + 1 }
    pure none
  else do
    let name ← onRing gdpfsLogGetPrecreated
    condSignal whom
    pure (some name)

/-- A consumer that was woken gets the mutex. -/
def consumerResume (whom : Sleeper) : WakeM (Option GdpName) := do
  let state ← get
  if state.woken = 0 then throw .notReady
  else do
    set { state with woken := state.woken - 1 }
    consumerTest whom

/-- A step of some thread; `whom` is the thread that a signal wakes. -/
inductive WakeOp
  | test
  | precreate (outcome : Option GdpName)
  | add
  | call (whom : Sleeper)
  | resume (whom : Sleeper)
  /-- A thread wakes without a signal. -/
  | spurious (whom : Sleeper)
  deriving DecidableEq, Repr

/-- Take a step; a consumer that returns hands back its name. -/
def WakeOp.run : WakeOp → WakeM (Option GdpName)
  | .test => do
      producerTest
      pure none
  | .precreate outcome => do
      onRing (precreateLog outcome)
      pure none
  | .add => do
      producerAdd
      pure none
  | .call whom => consumerTest whom
  | .resume whom => consumerResume whom
  | .spurious whom => do
      wake whom
      pure none

/-! ## What a step does -/

/-- A thread wakes. -/
inductive Woken (state : Waiters) : Sleeper → Waiters → Prop
  | producer
      (asleep : state.producerAsleep = true) :
      Woken state .producer { state with producerAsleep := false }
  | consumer
      (asleep : 0 < state.asleep) :
      Woken state .consumer
        { state with asleep := state.asleep - 1, woken := state.woken + 1 }
  | nobody : Woken state .nobody state

/-- What the section of a consumer does. -/
inductive ConsumerStep (state : Waiters) (whom : Sleeper) : Waiters → Prop
  | sleeps
      (empty : state.ring.precreatedFront = state.ring.precreatedBack) :
      ConsumerStep state whom { state with asleep := state.asleep + 1 }
  | takes
      {name : GdpName}
      {ring : Precreated}
      {next : Waiters}
      (taken : gdpfsLogGetPrecreated.run state.ring = .ok (name, ring))
      (woken : Woken { state with ring := ring } whom next)
      (someone : whom = .nobody →
        state.producerAsleep = false ∧ state.asleep = 0) :
      ConsumerStep state whom next

/-- What a step does. -/
inductive WakeStep (state : Waiters) : WakeOp → Waiters → Prop
  | sleeps
      (awake : state.producerAsleep = false)
      (waiting : state.ring.producer = .waiting)
      (full : state.ring.precreatedFront =
        (state.ring.precreatedBack + 1) % precreatedMax) :
      WakeStep state .test { state with producerAsleep := true }
  | proceeds
      {ring : Precreated}
      (awake : state.producerAsleep = false)
      (ran : producerWait.run state.ring = .ok ((), ring)) :
      WakeStep state .test { state with ring := ring }
  | creates
      {outcome : Option GdpName}
      {ring : Precreated}
      (ran : (precreateLog outcome).run state.ring = .ok ((), ring)) :
      WakeStep state (.precreate outcome) { state with ring := ring }
  | addsFirst
      {ring : Precreated}
      (ran : producerPublish.run state.ring = .ok ((), ring)) :
      WakeStep state .add
        { ring := ring
          producerAsleep := false
          asleep := 0
          woken := state.woken + state.asleep }
  | adds
      {ring : Precreated}
      (ran : producerPublish.run state.ring = .ok ((), ring))
      (behind : ring.precreatedBack ≠
        (ring.precreatedFront + 1) % precreatedMax) :
      WakeStep state .add { state with ring := ring }
  | calls
      {whom : Sleeper}
      {next : Waiters}
      (step : ConsumerStep state whom next) :
      WakeStep state (.call whom) next
  | resumes
      {whom : Sleeper}
      {next : Waiters}
      (some : 0 < state.woken)
      (step : ConsumerStep { state with woken := state.woken - 1 } whom
        next) :
      WakeStep state (.resume whom) next
  | wakes
      {whom : Sleeper}
      {next : Waiters}
      (woken : Woken state whom next) :
      WakeStep state (.spurious whom) next

section Inversion

variable {state : Waiters}

theorem allows_onRing (action : PrecreateM α) :
    Allows (onRing action)
      (fun value next => ∃ ring, action.run state.ring = .ok (value, ring) ∧
        next = { state with ring := ring }) state := by
  rw [onRing, allows_bind, allows_get]
  cases run : action.run state.ring with
  | error fault => exact allows_throw
  | ok result =>
      rw [allows_bind, allows_set, allows_pure]
      exact ⟨result.2, rfl, rfl⟩

theorem allows_wake (whom : Sleeper) :
    Allows (wake whom) (fun _ next => Woken state whom next) state := by
  rw [wake, allows_bind, allows_get]
  cases whom with
  | producer =>
      dsimp only
      split
      · next asleep => exact allows_set.mpr (.producer asleep)
      · exact allows_throw
  | consumer =>
      dsimp only
      split
      · next asleep => exact allows_set.mpr (.consumer asleep)
      · exact allows_throw
  | nobody => exact allows_pure.mpr .nobody

theorem allows_condSignal (whom : Sleeper) :
    Allows (condSignal whom)
      (fun _ next => Woken state whom next ∧
        (whom = .nobody → state.producerAsleep = false ∧ state.asleep = 0))
      state := by
  rw [condSignal, allows_bind, allows_get]
  split
  · exact allows_throw
  · next someone =>
      refine (allows_wake whom).mono fun _ next woken => ⟨woken, ?_⟩
      intro nobody
      simpa [nobody] using someone

theorem allows_producerTest :
    Allows producerTest (fun _ next => WakeStep state .test next) state := by
  rw [producerTest, allows_bind, allows_get]
  split
  · exact allows_throw
  · next ready =>
      obtain ⟨awake, waiting⟩ := not_or.mp ready
      have isAwake : state.producerAsleep = false := by simpa using awake
      have isWaiting : state.ring.producer = .waiting := not_not.mp waiting
      split
      · next full => exact allows_set.mpr (.sleeps isAwake isWaiting full)
      · refine (allows_onRing producerWait).mono ?_
        rintro _ _ ⟨ring, ran, rfl⟩
        exact .proceeds isAwake ran

theorem allows_producerAdd :
    Allows producerAdd (fun _ next => WakeStep state .add next) state := by
  rw [producerAdd]
  refine (allows_onRing producerPublish).bind ?_
  rintro _ _ ⟨ring, ran, rfl⟩
  rw [allows_bind, allows_get]
  split
  · rw [condBroadcast, allows_bind, allows_get, allows_set]
    exact .addsFirst ran
  · next behind => exact allows_pure.mpr (.adds ran behind)

theorem allows_consumerTest (whom : Sleeper) :
    Allows (consumerTest whom) (fun _ next => ConsumerStep state whom next)
      state := by
  rw [consumerTest, allows_bind, allows_get]
  split
  · next empty =>
      rw [allows_bind, allows_set, allows_pure]
      exact .sleeps empty
  · refine (allows_onRing gdpfsLogGetPrecreated).bind ?_
    rintro name _ ⟨ring, taken, rfl⟩
    refine (allows_condSignal whom).bind ?_
    rintro _ next ⟨woken, someone⟩
    exact allows_pure.mpr (.takes taken woken someone)

/-- Every step is one of those listed. -/
theorem allows_wakeOp (op : WakeOp) :
    Allows op.run (fun _ next => WakeStep state op next) state := by
  cases op with
  | test =>
      exact allows_producerTest.bind fun _ _ step => allows_pure.mpr step
  | precreate outcome =>
      refine (allows_onRing (precreateLog outcome)).bind ?_
      rintro _ _ ⟨ring, ran, rfl⟩
      exact allows_pure.mpr (.creates ran)
  | add => exact allows_producerAdd.bind fun _ _ step => allows_pure.mpr step
  | call whom =>
      exact (allows_consumerTest whom).mono fun _ _ step => .calls step
  | resume whom =>
      rw [WakeOp.run, consumerResume, allows_bind, allows_get]
      split
      · exact allows_throw
      · next some =>
          rw [allows_bind, allows_set]
          exact (allows_consumerTest whom).mono fun _ _ step =>
            .resumes (Nat.pos_of_ne_zero some) step
  | spurious whom =>
      exact (allows_wake whom).bind fun _ _ woken =>
        allows_pure.mpr (.wakes woken)

end Inversion

section Ring

variable {ring next : Precreated} {name : GdpName}

theorem producerWait_ok
    (ran : producerWait.run ring = .ok ((), next)) :
    ring.producer = .waiting ∧
      ring.precreatedFront ≠ (ring.precreatedBack + 1) % precreatedMax ∧
      next = { ring with producer := .creating } := by
  have allowed : Allows producerWait (fun _ next =>
      ring.producer = .waiting ∧
        ring.precreatedFront ≠ (ring.precreatedBack + 1) % precreatedMax ∧
        next = { ring with producer := .creating }) ring := by
    rw [producerWait, allows_bind, allows_get]
    split
    · exact allows_throw
    · next ready =>
        obtain ⟨waits, free⟩ := not_or.mp ready
        exact allows_set.mpr ⟨not_not.mp waits, free, rfl⟩
  exact allowed _ _ ran

theorem precreateLog_ok
    {outcome : Option GdpName}
    (ran : (precreateLog outcome).run ring = .ok ((), next)) :
    ring.producer = .creating ∧ next.producer = .publishing ∧
      next.precreatedFront = ring.precreatedFront ∧
      next.precreatedBack = ring.precreatedBack := by
  have allowed : Allows (precreateLog outcome) (fun _ next =>
      ring.producer = .creating ∧ next.producer = .publishing ∧
        next.precreatedFront = ring.precreatedFront ∧
        next.precreatedBack = ring.precreatedBack) ring := by
    rw [precreateLog, allows_bind, allows_get]
    split
    · exact allows_throw
    · next ready =>
        cases outcome with
        | none => exact allows_set.mpr ⟨not_not.mp ready, rfl, rfl, rfl⟩
        | some name => exact allows_set.mpr ⟨not_not.mp ready, rfl, rfl, rfl⟩
  exact allowed _ _ ran

theorem producerPublish_ok
    (ran : producerPublish.run ring = .ok ((), next)) :
    ring.producer = .publishing ∧
      next = { ring with
        precreatedBack := (ring.precreatedBack + 1) % precreatedMax
        producer := .waiting } := by
  have allowed : Allows producerPublish (fun _ next =>
      ring.producer = .publishing ∧
        next = { ring with
          precreatedBack := (ring.precreatedBack + 1) % precreatedMax
          producer := .waiting }) ring := by
    rw [producerPublish, allows_bind, allows_get]
    split
    · exact allows_throw
    · next ready => exact allows_set.mpr ⟨not_not.mp ready, rfl⟩
  exact allowed _ _ ran

theorem gdpfsLogGetPrecreated_ok
    (ran : gdpfsLogGetPrecreated.run ring = .ok (name, next)) :
    ring.precreatedFront ≠ ring.precreatedBack ∧
      name = ring.precreatedLogs ring.precreatedFront ∧
      next = { ring with
        precreatedFront := (ring.precreatedFront + 1) % precreatedMax
        returned := ring.returned ++ [name] } := by
  have allowed : Allows gdpfsLogGetPrecreated (fun name next =>
      ring.precreatedFront ≠ ring.precreatedBack ∧
        name = ring.precreatedLogs ring.precreatedFront ∧
        next = { ring with
          precreatedFront := (ring.precreatedFront + 1) % precreatedMax
          returned := ring.returned ++ [name] }) ring := by
    rw [gdpfsLogGetPrecreated, allows_bind, allows_get]
    split
    · exact allows_throw
    · next ready =>
        rw [allows_bind, allows_set, allows_pure]
        exact ⟨ready, rfl, rfl⟩
  exact allowed _ _ ran

end Ring

/-! ## No lost wake-up -/

/-- Who sleeps has a reason to: a consumer sleeps only while the ring is empty,
and the producer only while it is full. -/
structure NoneLost (state : Waiters) : Prop where
  front : state.ring.precreatedFront < precreatedMax
  back : state.ring.precreatedBack < precreatedMax
  room : state.ring.producer ≠ .waiting →
    state.ring.precreatedFront ≠
      (state.ring.precreatedBack + 1) % precreatedMax
  consumers : 0 < state.asleep →
    state.ring.precreatedFront = state.ring.precreatedBack
  waits : state.producerAsleep = true → state.ring.producer = .waiting
  full : state.producerAsleep = true →
    state.ring.precreatedFront =
      (state.ring.precreatedBack + 1) % precreatedMax

theorem noneLost_empty : NoneLost Waiters.empty := by
  constructor <;> simp [Waiters.empty, Precreated.empty, precreatedMax]

section Steps

variable {state next : Waiters} {whom : Sleeper}

theorem Woken.noneLost
    (woken : Woken state whom next)
    (held : NoneLost state) :
    NoneLost next := by
  cases woken with
  | producer asleep =>
      exact ⟨held.front, held.back, held.room, held.consumers, by simp,
        by simp⟩
  | consumer asleep =>
      exact ⟨held.front, held.back, held.room, fun _ => held.consumers asleep,
        held.waits, held.full⟩
  | nobody => exact held

/-- A name is taken from a ring that is not empty, so that no consumer sleeps:
if anybody does, the signal is for the producer. -/
theorem ConsumerStep.noneLost
    (step : ConsumerStep state whom next)
    (held : NoneLost state) :
    NoneLost next := by
  cases step with
  | sleeps empty =>
      exact ⟨held.front, held.back, held.room, fun _ => empty, held.waits,
        held.full⟩
  | @takes name ring next taken woken someone =>
      obtain ⟨notEmpty, -, rfl⟩ := gdpfsLogGetPrecreated_ok taken
      have allAwake : state.asleep = 0 := by
        by_contra some
        exact notEmpty (held.consumers (Nat.pos_of_ne_zero some))
      have front := held.front
      have back := held.back
      have room := held.room
      simp only [precreatedMax] at front back room
      have frontAfter : (state.ring.precreatedFront + 1) % 1024 < 1024 :=
        Nat.mod_lt _ (by decide)
      have roomAfter : state.ring.producer ≠ .waiting →
          (state.ring.precreatedFront + 1) % 1024 ≠
            (state.ring.precreatedBack + 1) % 1024 := by
        intro _
        omega
      cases woken with
      | producer asleep =>
          exact ⟨frontAfter, back, roomAfter, by simp [allAwake], by simp,
            by simp⟩
      | consumer asleep => simp [allAwake] at asleep
      | nobody =>
          have awake := (someone rfl).1
          exact ⟨frontAfter, back, roomAfter, by simp [allAwake],
            by simp [awake], by simp [awake]⟩

theorem WakeStep.noneLost
    {op : WakeOp}
    (step : WakeStep state op next)
    (held : NoneLost state) :
    NoneLost next := by
  cases step with
  | sleeps awake waiting full =>
      exact ⟨held.front, held.back, held.room, held.consumers,
        fun _ => waiting, fun _ => full⟩
  | proceeds awake ran =>
      obtain ⟨waiting, free, rfl⟩ := producerWait_ok ran
      exact ⟨held.front, held.back, fun _ => free, held.consumers,
        by simp [awake], by simp [awake]⟩
  | creates ran =>
      obtain ⟨creating, publishing, sameFront, sameBack⟩ := precreateLog_ok ran
      have busy : state.ring.producer ≠ .waiting := by simp [creating]
      have awake : state.producerAsleep = false := by
        by_contra asleep
        exact busy (held.waits (by simpa using asleep))
      refine ⟨?_, ?_, fun _ => ?_, ?_, by simp [awake], by simp [awake]⟩
      · simpa [sameFront] using held.front
      · simpa [sameBack] using held.back
      · simpa [sameFront, sameBack] using held.room busy
      · simpa [sameFront, sameBack] using held.consumers
  | addsFirst ran =>
      obtain ⟨publishing, rfl⟩ := producerPublish_ok ran
      exact ⟨held.front, Nat.mod_lt _ (by decide), by simp, by simp, by simp,
        by simp⟩
  | adds ran behind =>
      obtain ⟨publishing, rfl⟩ := producerPublish_ok ran
      have busy : state.ring.producer ≠ .waiting := by simp [publishing]
      have awake : state.producerAsleep = false := by
        by_contra asleep
        exact busy (held.waits (by simpa using asleep))
      refine ⟨held.front, Nat.mod_lt _ (by decide), by simp, fun some => ?_,
        by simp [awake], by simp [awake]⟩
      -- The ring was empty, so that this name is its first: a broadcast.
      exact absurd (by simp [held.consumers some]) behind
  | calls step => exact step.noneLost held
  | resumes some step =>
      refine step.noneLost ?_
      exact ⟨held.front, held.back, held.room, held.consumers, held.waits,
        held.full⟩
  | wakes woken => exact woken.noneLost held

end Steps

/-- Any step may be taken. -/
def anyStep (_ : WakeOp) (_ : Waiters) : Prop := True

theorem noneLost_of_reached
    {state : Waiters}
    (reached : Reached WakeOp.run anyStep Waiters.empty state) :
    NoneLost state := by
  refine Reached.invariant NoneLost noneLost_empty ?_ reached
  intro op state _ held
  exact (allows_wakeOp op).mono fun _ _ step => step.noneLost held

/-- No wake-up is lost, although a consumer wakes only one thread of whichever
kind: in every interleaving, also with spurious wake-ups, a consumer sleeps only
while the ring is empty and the producer only while it is full.  So the two
never sleep at the same time. -/
theorem no_lost_wakeup
    {state : Waiters}
    (reached : Reached WakeOp.run anyStep Waiters.empty state) :
    (0 < state.asleep →
      state.ring.precreatedFront = state.ring.precreatedBack ∧
        state.producerAsleep = false) ∧
      (state.producerAsleep = true →
        state.ring.precreatedFront =
          (state.ring.precreatedBack + 1) % precreatedMax) := by
  have held := noneLost_of_reached reached
  refine ⟨fun some => ⟨held.consumers some, ?_⟩, held.full⟩
  by_contra asleep
  have empty := held.consumers some
  have full := held.full (by simpa using asleep)
  have back := held.back
  simp only [precreatedMax] at full back
  omega

/-- Two consumers that come too early, and a name for one of them. -/
def twoConsumers : List WakeOp :=
  [.call .nobody, .call .nobody, .test,
    .precreate (some (Vector.replicate 32 1)), .add, .resume .nobody,
    .resume .nobody]

theorem no_lost_wakeup_twice :
    ∃ state, Reached WakeOp.run anyStep Waiters.empty state ∧
      state.asleep = 1 ∧
      state.ring.returned = [Vector.replicate 32 1] ∧
      state.ring.precreatedFront = state.ring.precreatedBack ∧
      state.producerAsleep = false := by
  obtain ⟨state, replayed⟩ : ∃ state, replay WakeOp.run (fun _ _ => true)
      twoConsumers Waiters.empty = some state := ⟨_, rfl⟩
  have reached : Reached WakeOp.run anyStep Waiters.empty state :=
    reached_of_replay (fun _ _ _ => trivial) replayed
  have lost := (no_lost_wakeup reached).1
  cases replayed
  exact ⟨_, reached, rfl, rfl, lost (by decide)⟩

end Log
end Gdpfs
