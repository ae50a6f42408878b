import Gdpfs.Store.Effect
import Gdpfs.Store.Ring

/-!
# Logs created in advance (`gdpfs_log.c`)

A producer creates logs before they are needed and leaves their names in a ring
of slots, from which any number of consumers take them.  A section under
`precreated_mutex` is one step; the producer fills a slot between two such
sections.  A call of a consumer is a single section, so that calls have no
state of their own.
-/

namespace Gdpfs
namespace Log

open Effect
open Gdpfs.Ring

/-- `gdp_name_t`. -/
abbrev GdpName := Vector UInt8 32

/-- `PRECREATED_MAX`. -/
def precreatedMax : Nat := 1024

/-- Where the producer is. -/
inductive ProducerAt
  /-- Before the section that waits for a free slot. -/
  | waiting
  /-- Before `_precreate_log`. -/
  | creating
  /-- Before the section that publishes the slot. -/
  | publishing
  deriving DecidableEq, Repr

/-- The ring of names, and what became of the names. -/
structure Precreated where
  precreatedLogs : Nat → GdpName
  precreatedFront : Nat
  precreatedBack : Nat
  producer : ProducerAt
  /-- The names of the logs that `gdp_gcl_create` made. -/
  created : List GdpName
  /-- The names that consumers got, in order. -/
  returned : List GdpName

/-- The ring after `init_gdpfs_log`. -/
def Precreated.empty : Precreated where
  precreatedLogs := fun _ => Vector.replicate 32 0
  precreatedFront := 0
  precreatedBack := 0
  producer := .waiting
  created := []
  returned := []

/-- A step that is not possible yet. -/
inductive NotReady
  | notReady
  deriving DecidableEq, Repr

/-- Code that works on the ring. -/
abbrev PrecreateM := StateT Precreated (Except NotReady)

/-- The first section of `_producer_thread`: wait for a free slot. -/
def producerWait : PrecreateM Unit := do
  let ring ← get
  if ring.producer ≠ .waiting ∨
      ring.precreatedFront = (ring.precreatedBack + 1) % precreatedMax then
    throw .notReady
  else set { ring with producer := .creating }

/-- `_precreate_log`, when `gdp_gcl_create` makes a log with the given name or
fails.  The producer does not look at the status. -/
def precreateLog (outcome : Option GdpName) : PrecreateM Unit := do
  let ring ← get
  if ring.producer ≠ .creating then throw .notReady
  else
    match outcome with
    | none => set { ring with producer := .publishing }
    | some name =>
        set { ring with
          precreatedLogs :=
            Function.update ring.precreatedLogs ring.precreatedBack name
          created := name :: ring.created
          producer := .publishing }

/-- The second section of `_producer_thread`: publish the slot. -/
def producerPublish : PrecreateM Unit := do
  let ring ← get
  if ring.producer ≠ .publishing then throw .notReady
  else
    set { ring with
      precreatedBack := (ring.precreatedBack + 1) % precreatedMax
      producer := .waiting }

/-- `gdpfs_log_get_precreated`. -/
def gdpfsLogGetPrecreated : PrecreateM GdpName := do
  let ring ← get
  if ring.precreatedFront = ring.precreatedBack then throw .notReady
  else do
    let name := ring.precreatedLogs ring.precreatedFront
    set { ring with
      precreatedFront := (ring.precreatedFront + 1) % precreatedMax
      returned := ring.returned ++ [name] }
    pure name

/-- A step of the producer or of a consumer. -/
inductive PrecreateOp
  | wait
  | precreate (outcome : Option GdpName)
  | publish
  | get
  deriving DecidableEq, Repr

/-- Take a step. -/
def PrecreateOp.run : PrecreateOp → PrecreateM Unit
  | .wait => producerWait
  | .precreate outcome => precreateLog outcome
  | .publish => producerPublish
  | .get => do
      let _ ← gdpfsLogGetPrecreated

/-- New logs get new names. -/
def NewNames (op : PrecreateOp) (ring : Precreated) : Prop :=
  ∀ name, op = .precreate (some name) → name ∉ ring.created

/-- New logs get new names, and no creation fails. -/
def AllCreated (op : PrecreateOp) (ring : Precreated) : Prop :=
  NewNames op ring ∧ op ≠ .precreate none

/-! ## Names in the ring -/

/-- Whether the slot at the back holds a name that is not published yet. -/
def ProducerAt.unpublished : ProducerAt → Nat
  | .publishing => 1
  | _ => 0

/-- The names in the ring were created, once each, and not returned. -/
structure Fresh (ring : Precreated) (count : Nat) : Prop where
  front : ring.precreatedFront < precreatedMax
  back : ring.precreatedBack = (ring.precreatedFront + count) % precreatedMax
  room : ring.producer ≠ .waiting → count + 1 < precreatedMax
  short : count < precreatedMax
  nodup : (ring.returned ++ window ring.precreatedLogs precreatedMax
    ring.precreatedFront (count + ring.producer.unpublished)).Nodup
  created : ∀ name ∈ ring.returned ++ window ring.precreatedLogs precreatedMax
    ring.precreatedFront (count + ring.producer.unpublished),
    name ∈ ring.created

theorem fresh_empty : Fresh Precreated.empty 0 where
  front := by decide
  back := rfl
  room := fun waits => absurd rfl waits
  short := by decide
  nodup := List.nodup_nil
  created := fun _ impossible => absurd impossible List.not_mem_nil

section Steps

variable {ring : Precreated} {count : Nat}

/-- A slot is free if the back is not just behind the front. -/
theorem Fresh.free
    (fresh : Fresh ring count)
    (free : ring.precreatedFront ≠
      (ring.precreatedBack + 1) % precreatedMax) :
    count + 1 < precreatedMax := by
  refine Nat.lt_of_le_of_ne fresh.short fun full => free ?_
  rw [fresh.back, Nat.mod_add_mod, Nat.add_assoc, full, Nat.add_mod_right,
    Nat.mod_eq_of_lt fresh.front]

theorem allows_producerWait
    (fresh : Fresh ring count) :
    Allows producerWait (fun _ next => Fresh next count) ring := by
  rw [producerWait, allows_bind, allows_get]
  split
  · exact allows_throw
  · next ready =>
      obtain ⟨waits, free⟩ := not_or.mp ready
      have isWaiting : ring.producer = .waiting := not_not.mp waits
      have nodup := fresh.nodup
      have created := fresh.created
      rw [isWaiting] at nodup created
      exact allows_set.mpr ⟨fresh.front, fresh.back,
        fun _ => fresh.free free, fresh.short, nodup, created⟩

theorem allows_precreateLog
    (fresh : Fresh ring count)
    (new : name ∉ ring.created) :
    Allows (precreateLog (some name)) (fun _ next => Fresh next count)
      ring := by
  rw [precreateLog, allows_bind, allows_get]
  split
  · exact allows_throw
  · next ready =>
      have isCreating : ring.producer = .creating := not_not.mp ready
      have old := fresh.created
      have nodup := fresh.nodup
      rw [isCreating] at old nodup
      have slots : window (Function.update ring.precreatedLogs
            ring.precreatedBack name) precreatedMax ring.precreatedFront
            (count + 1) =
          window ring.precreatedLogs precreatedMax ring.precreatedFront
            count ++ [name] := by
        rw [fresh.back]
        exact window_push _ fresh.short name
      refine allows_set.mpr ⟨fresh.front, fresh.back, fun _ => ?_, fresh.short,
        ?_, ?_⟩
      · exact fresh.room (by rw [isCreating]; decide)
      · change (ring.returned ++ window _ _ _ (count + 1)).Nodup
        rw [slots, ← List.append_assoc]
        refine List.nodup_append.mpr ⟨nodup, List.pairwise_singleton _ name, ?_⟩
        intro other member _ isName same
        rw [List.mem_singleton.mp isName] at same
        exact new (same ▸ old other member)
      · intro other member
        change other ∈ ring.returned ++ window _ _ _ (count + 1) at member
        rw [slots, ← List.append_assoc] at member
        rcases List.mem_append.mp member with before | isName
        · exact List.mem_cons_of_mem _ (old other before)
        · rw [List.mem_singleton.mp isName]
          exact List.mem_cons_self

theorem allows_producerPublish
    (fresh : Fresh ring count) :
    Allows producerPublish (fun _ next => Fresh next (count + 1)) ring := by
  rw [producerPublish, allows_bind, allows_get]
  split
  · exact allows_throw
  · next ready =>
      have isPublishing : ring.producer = .publishing := not_not.mp ready
      have nodup := fresh.nodup
      have created := fresh.created
      have room := fresh.room (by rw [isPublishing]; decide)
      rw [isPublishing] at nodup created
      refine allows_set.mpr ⟨fresh.front, ?_, fun waits => absurd rfl waits,
        room, nodup, created⟩
      change (ring.precreatedBack + 1) % precreatedMax = _
      rw [fresh.back, Nat.mod_add_mod, Nat.add_assoc]

theorem allows_gdpfsLogGetPrecreated
    (fresh : Fresh ring count) :
    Allows gdpfsLogGetPrecreated
      (fun _ next => ∃ count', Fresh next count') ring := by
  rw [gdpfsLogGetPrecreated, allows_bind, allows_get]
  split
  · exact allows_throw
  · next ready =>
      cases count with
      | zero =>
          refine absurd ?_ ready
          rw [fresh.back, Nat.add_zero, Nat.mod_eq_of_lt fresh.front]
      | succ count =>
          have slots : ring.returned ++ window ring.precreatedLogs
                precreatedMax ring.precreatedFront
                (count + 1 + ring.producer.unpublished) =
              ring.returned ++ [ring.precreatedLogs ring.precreatedFront] ++
                window ring.precreatedLogs precreatedMax
                  ((ring.precreatedFront + 1) % precreatedMax)
                  (count + ring.producer.unpublished) := by
            rw [Nat.add_right_comm, window_pop,
              Nat.mod_eq_of_lt fresh.front, List.append_assoc]
            rfl
          have nodup := fresh.nodup
          have created := fresh.created
          rw [slots] at nodup created
          rw [allows_bind, allows_set, allows_pure]
          refine ⟨count, Nat.mod_lt _ (by decide), ?_, fun busy => ?_, ?_,
            nodup, created⟩
          · rw [fresh.back, Nat.mod_add_mod]
            congr 1
            omega
          · exact Nat.lt_of_succ_lt (fresh.room busy)
          · exact Nat.lt_of_succ_lt fresh.short

end Steps

/-- Every new file gets a log of its own: as long as no creation of a log fails,
every name that a consumer gets is the name of a log that was created, and no
name is returned twice. -/
theorem precreated_names_fresh
    (reached : Reached PrecreateOp.run AllCreated Precreated.empty ring) :
    (∀ name ∈ ring.returned, name ∈ ring.created) ∧ ring.returned.Nodup := by
  have invariant : ∃ count, Fresh ring count := by
    refine Reached.invariant (fun ring => ∃ count, Fresh ring count)
      ⟨0, fresh_empty⟩ ?_ reached
    rintro op ring ⟨new, succeeds⟩ ⟨count, fresh⟩
    cases op with
    | wait =>
        exact (allows_producerWait fresh).mono fun _ _ kept => ⟨count, kept⟩
    | precreate outcome =>
        cases outcome with
        | none => exact absurd rfl succeeds
        | some name =>
            exact (allows_precreateLog fresh (new name rfl)).mono
              fun _ _ kept => ⟨count, kept⟩
    | publish =>
        exact (allows_producerPublish fresh).mono
          fun _ _ kept => ⟨count + 1, kept⟩
    | get =>
        refine (allows_gdpfsLogGetPrecreated fresh).bind ?_
        intro _ next kept
        exact allows_pure.mpr kept
  obtain ⟨count, fresh⟩ := invariant
  refine ⟨fun name member => ?_, ?_⟩
  · exact fresh.created name (List.mem_append_left _ member)
  · exact (List.nodup_append.mp fresh.nodup).1

/-- Whether a step creates a log under a new name, if it creates one. -/
def allCreated (op : PrecreateOp) (ring : Precreated) : Bool :=
  match op with
  | .precreate none => false
  | .precreate (some name) => name ∉ ring.created
  | _ => true

theorem allCreated_spec
    (op : PrecreateOp)
    (ring : Precreated)
    (all : allCreated op ring = true) :
    AllCreated op ring := by
  refine ⟨?_, ?_⟩
  · rintro name rfl
    exact of_decide_eq_true all
  · rintro rfl
    cases all

/-- Two logs, and a consumer between their creations. -/
def twoLogs : List PrecreateOp :=
  [.wait, .precreate (some (Vector.replicate 32 1)), .publish, .wait, .get,
    .precreate (some (Vector.replicate 32 2)), .publish, .get]

theorem precreated_names_fresh_twice :
    ∃ ring, Reached PrecreateOp.run AllCreated Precreated.empty ring ∧
      ring.returned = [Vector.replicate 32 1, Vector.replicate 32 2] ∧
      (∀ name ∈ ring.returned, name ∈ ring.created) ∧
      ring.returned.Nodup := by
  obtain ⟨ring, replayed⟩ : ∃ ring, replay PrecreateOp.run allCreated twoLogs
      Precreated.empty = some ring := ⟨_, rfl⟩
  have reached := reached_of_replay allCreated_spec replayed
  refine ⟨ring, reached, ?_, precreated_names_fresh reached⟩
  cases replayed
  rfl

/-- A log that could not be created, and a consumer. -/
def noLog : List PrecreateOp := [.wait, .precreate none, .publish, .get]

/-- A slot is published also if its log could not be created. -/
theorem failed_creation_published :
    ¬∀ ring, Reached PrecreateOp.run NewNames Precreated.empty ring →
      (∀ name ∈ ring.returned, name ∈ ring.created) ∧
        ring.returned.Nodup := by
  intro fresh
  obtain ⟨ring, replayed⟩ : ∃ ring, replay PrecreateOp.run
      (fun op _ => op ∈ noLog) noLog Precreated.empty = some ring := ⟨_, rfl⟩
  have reached : Reached PrecreateOp.run NewNames Precreated.empty ring := by
    refine reached_of_replay ?_ replayed
    rintro op _ among name rfl
    have listed := of_decide_eq_true among
    simp [noLog] at listed
  have created := (fresh ring reached).1
  cases replayed
  exact absurd (created _ List.mem_cons_self) List.not_mem_nil

end Log
end Gdpfs
