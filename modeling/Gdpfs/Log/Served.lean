import Gdpfs.Log.Wakeups
import Gdpfs.Store.Progress

/-!
# How calls for a log are served (`gdpfs_log.c`)

Every schedule of the producer and of the consumers serves the calls that wait,
and the logs are handed out in the order in which they were created.
-/

namespace Gdpfs
namespace Log

open Effect
open Gdpfs.Ring

/-! ## Every waiting call is served -/

/-- A step of the producer, or of a consumer that was woken: neither a new call
nor a spurious wake-up. -/
def WakeOp.goesOn : WakeOp → Prop
  | .call _ => False
  | .spurious _ => False
  | _ => True

/-- How far the producer is from its next test. -/
def producerPhase (state : Waiters) : Nat :=
  match state.ring.producer with
  | .waiting => if state.producerAsleep then 0 else 3
  | .creating => 2
  | .publishing => 1

/-- Free slots of the ring. -/
def freeSlots (ring : Precreated) : Nat :=
  (ring.precreatedFront + (precreatedMax - 1) - ring.precreatedBack) %
    precreatedMax

/-- What is left to do: calls that wait, then slots to fill, then turns of the
threads that are awake. -/
def workLeft (state : Waiters) : Nat × Nat × Nat :=
  (state.asleep + state.woken, freeSlots state.ring,
    producerPhase state + state.woken)

/-- The lexicographic order of what is left to do. -/
abbrev LessWork : Nat × Nat × Nat → Nat × Nat × Nat → Prop :=
  Prod.Lex (· < ·) (Prod.Lex (· < ·) (· < ·))

theorem lessWork_wellFounded : WellFounded LessWork :=
  (Prod.lex ⟨_, Nat.lt_wfRel.wf⟩ (Prod.lex ⟨_, Nat.lt_wfRel.wf⟩
    ⟨_, Nat.lt_wfRel.wf⟩)).wf

section Work

variable {state next : Waiters} {whom : Sleeper}

theorem Woken.calls_eq
    (woken : Woken state whom next) :
    next.asleep + next.woken = state.asleep + state.woken := by
  cases woken with
  | producer asleep => rfl
  | consumer asleep =>
      change state.asleep - 1 + (state.woken + 1) = _
      omega
  | nobody => rfl

/-- The producer fills a slot that was free. -/
theorem NoneLost.freeSlots_publish
    (held : NoneLost state)
    (publishing : state.ring.producer = .publishing) :
    freeSlots { state.ring with
        precreatedBack := (state.ring.precreatedBack + 1) % precreatedMax
        producer := .waiting } <
      freeSlots state.ring := by
  have front := held.front
  have back := held.back
  have room := held.room (by simp [publishing])
  simp only [freeSlots, precreatedMax] at *
  omega

/-- A consumer that was woken either leaves or sleeps again. -/
theorem ConsumerStep.lessWork
    (some : 0 < state.woken)
    (step : ConsumerStep { state with woken := state.woken - 1 } whom next) :
    LessWork (workLeft next) (workLeft state) := by
  cases step with
  | sleeps empty =>
      have sameCalls : state.asleep + 1 + (state.woken - 1) =
          state.asleep + state.woken := by omega
      have fewerTurns : producerPhase state + (state.woken - 1) <
          producerPhase state + state.woken := by omega
      rw [workLeft, workLeft]
      dsimp only
      rw [sameCalls]
      exact .right _ (.right _ fewerTurns)
  | takes taken woken someone =>
      refine .left _ _ ?_
      rw [woken.calls_eq]
      change state.asleep + (state.woken - 1) < state.asleep + state.woken
      omega

theorem WakeStep.lessWork
    {op : WakeOp}
    (goesOn : op.goesOn)
    (step : WakeStep state op next)
    (held : NoneLost state) :
    LessWork (workLeft next) (workLeft state) := by
  cases step with
  | sleeps awake waiting full =>
      refine .right _ (.right _ ?_)
      simp [producerPhase, waiting, awake]
  | proceeds awake ran =>
      obtain ⟨waiting, -, rfl⟩ := producerWait_ok ran
      refine .right _ (.right _ ?_)
      simp [producerPhase, waiting, awake]
  | creates ran =>
      obtain ⟨creating, publishing, sameFront, sameBack⟩ := precreateLog_ok ran
      rw [workLeft, workLeft, freeSlots, freeSlots]
      dsimp only
      rw [sameFront, sameBack]
      refine .right _ (.right _ ?_)
      simp [producerPhase, creating, publishing]
  | addsFirst ran =>
      obtain ⟨publishing, rfl⟩ := producerPublish_ok ran
      have fewerSlots := held.freeSlots_publish publishing
      rw [workLeft, workLeft]
      dsimp only
      rw [Nat.zero_add, Nat.add_comm state.woken]
      exact .right _ (.left _ _ fewerSlots)
  | adds ran behind =>
      obtain ⟨publishing, rfl⟩ := producerPublish_ok ran
      exact .right _ (.left _ _ (held.freeSlots_publish publishing))
  | calls step => exact goesOn.elim
  | resumes some step => exact step.lessWork some
  | wakes woken => exact goesOn.elim

end Work

section Progress

variable {state : Waiters}

theorem ensures_onRing
    {action : PrecreateM α}
    {value : α}
    {ring : Precreated}
    {post : α → Waiters → Prop}
    (ran : action.run state.ring = .ok (value, ring)) :
    Ensures (onRing action) post state ↔
      post value { state with ring := ring } := by
  rw [onRing, ensures_bind, ensures_get, ran]
  dsimp only
  rw [ensures_bind, ensures_set, ensures_pure]

/-- The thread that a signal wakes after a name is taken. -/
def signalled (state : Waiters) : Sleeper :=
  if state.producerAsleep then .producer else .nobody

/-- A consumer with the mutex goes on, if no consumer sleeps while there are
names. -/
theorem ensures_consumerTest
    (held : NoneLost state) :
    Ensures (consumerTest (signalled state)) (fun _ _ => True) state := by
  rw [consumerTest, ensures_bind, ensures_get]
  split
  · rw [ensures_bind, ensures_set, ensures_pure]
    trivial
  · next notEmpty =>
      have allAwake : state.asleep = 0 := by
        by_contra some
        exact notEmpty (held.consumers (Nat.pos_of_ne_zero some))
      have taken : gdpfsLogGetPrecreated.run state.ring =
          .ok (state.ring.precreatedLogs state.ring.precreatedFront,
            { state.ring with
              precreatedFront :=
                (state.ring.precreatedFront + 1) % precreatedMax
              returned := state.ring.returned ++
                [state.ring.precreatedLogs state.ring.precreatedFront] }) := by
        simp [gdpfsLogGetPrecreated, notEmpty]
        rfl
      rw [ensures_bind, ensures_onRing taken, ensures_bind, condSignal,
        ensures_bind, ensures_get]
      cases asleep : state.producerAsleep with
      | true => simp [signalled, asleep, wake, ensures_bind]
      | false => simp [signalled, asleep, allAwake, wake]

/-- The producer goes on unless it sleeps. -/
theorem exists_producer_step
    (awake : state.producerAsleep = false) :
    ∃ op : WakeOp, op.goesOn ∧
      Ensures op.run (fun _ _ => True) state := by
  cases position : state.ring.producer with
  | waiting =>
      refine ⟨.test, trivial, ?_⟩
      rw [WakeOp.run, ensures_bind, producerTest, ensures_bind, ensures_get]
      by_cases full : state.ring.precreatedFront =
          (state.ring.precreatedBack + 1) % precreatedMax
      · simp [awake, position, full]
      · have ran : producerWait.run state.ring =
            .ok ((), { state.ring with producer := .creating }) := by
          simp [producerWait, position, full]
          rfl
        simp [awake, position, full, ensures_onRing ran]
  | creating =>
      refine ⟨.precreate none, trivial, ?_⟩
      have ran : (precreateLog none).run state.ring =
          .ok ((), { state.ring with producer := .publishing }) := by
        simp [precreateLog, position]
        rfl
      rw [WakeOp.run, ensures_bind, ensures_onRing ran, ensures_pure]
      trivial
  | publishing =>
      refine ⟨.add, trivial, ?_⟩
      have ran : producerPublish.run state.ring =
          .ok ((), { state.ring with
            precreatedBack :=
              (state.ring.precreatedBack + 1) % precreatedMax
            producer := .waiting }) := by
        simp [producerPublish, position]
        rfl
      rw [WakeOp.run, ensures_bind, producerAdd, ensures_bind,
        ensures_onRing ran, ensures_bind, ensures_get]
      split
      · simp [condBroadcast, ensures_bind]
      · simp

/-- When nothing can go on, no call waits. -/
theorem NoneLost.none_waits
    (held : NoneLost state)
    (stuck : Stuck WakeOp.run WakeOp.goesOn state) :
    state.asleep = 0 ∧ state.woken = 0 := by
  have noneWoken : state.woken = 0 := by
    by_contra some
    refine stuck (.resume (signalled state)) trivial ?_
    rw [WakeOp.run, consumerResume, ensures_bind, ensures_get, if_neg some,
      ensures_bind, ensures_set]
    have held' : NoneLost { state with woken := state.woken - 1 } :=
      ⟨held.front, held.back, held.room, held.consumers, held.waits,
        held.full⟩
    exact ensures_consumerTest held'
  refine ⟨?_, noneWoken⟩
  by_contra some
  have empty := held.consumers (Nat.pos_of_ne_zero some)
  have awake : state.producerAsleep = false := by
    by_contra asleep
    have full := held.full (by simpa using asleep)
    have back := held.back
    simp only [precreatedMax] at full back
    omega
  obtain ⟨op, goesOn, ensures⟩ := exists_producer_step awake
  exact stuck op goesOn ensures

end Progress

/-- Every call of `gdpfs_log_get_precreated` that waits is served.  From every
reachable state, without new calls and spurious wake-ups, every schedule of the
producer and of the consumers ends, and where it ends no call waits. -/
theorem waiting_calls_are_served
    {state : Waiters}
    (reached : Reached WakeOp.run anyStep Waiters.empty state) :
    Ends WakeOp.run WakeOp.goesOn state ∧
      ∀ final, Reached WakeOp.run (fun op _ => op.goesOn) state final →
        Stuck WakeOp.run WakeOp.goesOn final →
        final.asleep = 0 ∧ final.woken = 0 := by
  have held := noneLost_of_reached reached
  refine ⟨?_, ?_⟩
  · refine ends_of_decreasing lessWork_wellFounded NoneLost workLeft ?_ held
    intro op state goesOn held
    exact (allows_wakeOp op).mono fun _ next step =>
      ⟨step.noneLost held, step.lessWork goesOn held⟩
  · intro final onwards stuck
    refine NoneLost.none_waits ?_ stuck
    refine Reached.invariant NoneLost held ?_ onwards
    intro op state _ held
    exact (allows_wakeOp op).mono fun _ _ step => step.noneLost held

/-- A consumer that sleeps while the producer creates a log. -/
theorem waiting_calls_are_served_early :
    ∃ state, Reached WakeOp.run anyStep Waiters.empty state ∧
      state.asleep = 1 ∧
      Ends WakeOp.run WakeOp.goesOn state ∧
      ∀ final, Reached WakeOp.run (fun op _ => op.goesOn) state final →
        Stuck WakeOp.run WakeOp.goesOn final →
        final.asleep = 0 ∧ final.woken = 0 := by
  obtain ⟨state, replayed⟩ : ∃ state, replay WakeOp.run (fun _ _ => true)
      [.call .nobody, .test] Waiters.empty = some state := ⟨_, rfl⟩
  have reached : Reached WakeOp.run anyStep Waiters.empty state :=
    reached_of_replay (fun _ _ _ => trivial) replayed
  refine ⟨state, reached, ?_, waiting_calls_are_served reached⟩
  cases replayed
  rfl

/-! ## First created, first served -/

/-- The names in the ring are the last ones that were created. -/
structure InOrder (ring : Precreated) (count : Nat) : Prop where
  front : ring.precreatedFront < precreatedMax
  back : ring.precreatedBack = (ring.precreatedFront + count) % precreatedMax
  room : ring.producer ≠ .waiting → count + 1 < precreatedMax
  short : count < precreatedMax
  order : ring.created.reverse =
    ring.returned ++ window ring.precreatedLogs precreatedMax
      ring.precreatedFront (count + ring.producer.unpublished)

theorem inOrder_empty : InOrder Precreated.empty 0 := by
  constructor <;> simp [Precreated.empty, precreatedMax, window,
    ProducerAt.unpublished]

section Order

variable {ring next : Precreated} {count : Nat} {name : GdpName}

theorem InOrder.producerWait
    (ordered : InOrder ring count)
    (ran : producerWait.run ring = .ok ((), next)) :
    InOrder next count := by
  obtain ⟨waiting, free, rfl⟩ := producerWait_ok ran
  have order := ordered.order
  rw [waiting] at order
  refine ⟨ordered.front, ordered.back, fun _ => ?_, ordered.short, order⟩
  refine Nat.lt_of_le_of_ne ordered.short fun full => free ?_
  rw [ordered.back, Nat.mod_add_mod, Nat.add_assoc, full, Nat.add_mod_right,
    Nat.mod_eq_of_lt ordered.front]

theorem InOrder.precreateLog
    (ordered : InOrder ring count)
    (ran : (precreateLog (some name)).run ring = .ok ((), next)) :
    InOrder next count := by
  have allowed : Allows (Log.precreateLog (some name))
      (fun _ next => InOrder next count) ring := by
    rw [Log.precreateLog, allows_bind, allows_get]
    split
    · exact allows_throw
    · next ready =>
        have creating : ring.producer = .creating := not_not.mp ready
        have order := ordered.order
        rw [creating] at order
        have room := ordered.room (by simp [creating])
        refine allows_set.mpr
          ⟨ordered.front, ordered.back, fun _ => room, ordered.short, ?_⟩
        change (name :: ring.created).reverse =
          ring.returned ++ window _ _ _ (count + 1)
        rw [ordered.back, window_push _ ordered.short name, List.reverse_cons,
          order, List.append_assoc]
        rfl
  exact allowed _ _ ran

theorem InOrder.producerPublish
    (ordered : InOrder ring count)
    (ran : producerPublish.run ring = .ok ((), next)) :
    InOrder next (count + 1) := by
  obtain ⟨publishing, rfl⟩ := producerPublish_ok ran
  have order := ordered.order
  have room := ordered.room (by simp [publishing])
  rw [publishing] at order
  refine ⟨ordered.front, ?_, by simp, room, order⟩
  change (ring.precreatedBack + 1) % precreatedMax = _
  rw [ordered.back, Nat.mod_add_mod, Nat.add_assoc]

theorem InOrder.getPrecreated
    (ordered : InOrder ring count)
    (ran : gdpfsLogGetPrecreated.run ring = .ok (name, next)) :
    InOrder next (count - 1) := by
  obtain ⟨notEmpty, rfl, rfl⟩ := gdpfsLogGetPrecreated_ok ran
  cases count with
  | zero =>
      refine absurd ?_ notEmpty
      rw [ordered.back, Nat.add_zero, Nat.mod_eq_of_lt ordered.front]
  | succ count =>
      have back := ordered.back
      have order := ordered.order
      rw [Nat.add_right_comm, window_pop, Nat.mod_eq_of_lt ordered.front]
        at order
      refine ⟨Nat.mod_lt _ (by decide), ?_, fun busy => ?_, ?_, ?_⟩
      · change ring.precreatedBack = _
        rw [back, Nat.mod_add_mod, Nat.add_right_comm, Nat.add_assoc]
        rfl
      · exact Nat.lt_of_succ_lt (ordered.room busy)
      · exact Nat.lt_of_succ_lt ordered.short
      · simpa using order

end Order

theorem Woken.ring_eq
    {state next : Waiters}
    {whom : Sleeper}
    (woken : Woken state whom next) :
    next.ring = state.ring := by
  cases woken <;> rfl

theorem ConsumerStep.inOrder
    {state next : Waiters}
    {whom : Sleeper}
    {count : Nat}
    (step : ConsumerStep state whom next)
    (ordered : InOrder state.ring count) :
    ∃ count', InOrder next.ring count' := by
  cases step with
  | sleeps empty => exact ⟨count, ordered⟩
  | takes taken woken someone =>
      rw [woken.ring_eq]
      exact ⟨count - 1, ordered.getPrecreated taken⟩

theorem WakeStep.inOrder
    {state next : Waiters}
    {op : WakeOp}
    {count : Nat}
    (step : WakeStep state op next)
    (succeeds : op ≠ .precreate none)
    (ordered : InOrder state.ring count) :
    ∃ count', InOrder next.ring count' := by
  cases step with
  | sleeps awake waiting full => exact ⟨count, ordered⟩
  | proceeds awake ran => exact ⟨count, ordered.producerWait ran⟩
  | @creates outcome ring ran =>
      cases outcome with
      | none => exact absurd rfl succeeds
      | some name => exact ⟨count, ordered.precreateLog ran⟩
  | addsFirst ran => exact ⟨count + 1, ordered.producerPublish ran⟩
  | adds ran behind => exact ⟨count + 1, ordered.producerPublish ran⟩
  | calls step => exact step.inOrder ordered
  | resumes some step => exact step.inOrder ordered
  | wakes woken =>
      rw [woken.ring_eq]
      exact ⟨count, ordered⟩

/-- Logs are handed out in the order in which they were created.  In every
interleaving in which no creation fails, the names created so far are those
that the calls returned, in the order of the calls, followed by fewer than
`PRECREATED_MAX` names that are still in the ring. -/
theorem logs_handed_out_in_order
    {state : Waiters}
    (reached : Reached WakeOp.run (fun op _ => op ≠ .precreate none)
      Waiters.empty state) :
    ∃ left : List GdpName, left.length < precreatedMax ∧
      state.ring.created.reverse = state.ring.returned ++ left := by
  have invariant : ∃ count, InOrder state.ring count := by
    refine Reached.invariant (fun state => ∃ count, InOrder state.ring count)
      ⟨0, inOrder_empty⟩ ?_ reached
    rintro op state succeeds ⟨count, ordered⟩
    exact (allows_wakeOp op).mono fun _ _ step =>
      step.inOrder succeeds ordered
  obtain ⟨count, ordered⟩ := invariant
  refine ⟨_, ?_, ordered.order⟩
  have short := ordered.short
  have room := ordered.room
  rw [window, List.length_map, List.length_range]
  cases position : state.ring.producer with
  | waiting => simpa [ProducerAt.unpublished] using short
  | creating => simpa [ProducerAt.unpublished] using short
  | publishing =>
      simpa [ProducerAt.unpublished] using room (by simp [position])

/-- Two logs, of which one is handed out. -/
def oneOfTwo : List WakeOp :=
  [.test, .precreate (some (Vector.replicate 32 1)), .add, .test,
    .precreate (some (Vector.replicate 32 2)), .call .nobody]

theorem logs_handed_out_in_order_two :
    ∃ state, Reached WakeOp.run (fun op _ => op ≠ .precreate none)
        Waiters.empty state ∧
      state.ring.returned = [Vector.replicate 32 1] ∧
      ∃ left : List GdpName, left.length < precreatedMax ∧
        state.ring.created.reverse = state.ring.returned ++ left := by
  obtain ⟨state, replayed⟩ : ∃ state, replay WakeOp.run
      (fun op _ => op ≠ .precreate none) oneOfTwo Waiters.empty =
        some state := ⟨_, rfl⟩
  have reached : Reached WakeOp.run (fun op _ => op ≠ .precreate none)
      Waiters.empty state :=
    reached_of_replay (fun _ _ checked => of_decide_eq_true checked) replayed
  refine ⟨state, reached, ?_, logs_handed_out_in_order reached⟩
  cases replayed
  rfl

end Log
end Gdpfs
