import Gdpfs.FigTree.Refine.Lookup
import Gdpfs.FigTree.Abstract.Eager

/-!
# Runs of writes

What holds after any sequence of calls of `ft_write` on a tree that `ft_init`
made: the last write of a byte wins, and the nodes keep their shape.
-/

namespace Gdpfs
namespace FigTree

open Log Effect
open Cells (Owns Holds cell Store)

/-- A call of `ft_write`. -/
structure WriteCall where
  start : Nat
  stop : Nat
  value : Int
  deriving DecidableEq, Repr

/-- Whether a call writes a byte. -/
def WriteCall.covers (call : WriteCall) (x : Nat) : Bool :=
  call.start ≤ x && x ≤ call.stop

/-- Consecutive calls of `ft_write`. -/
def ftWrites (log : List LogRecord) :
    Figtree → List WriteCall → FigM Figtree
  | this, [] => pure this
  | this, call :: calls => do
      let this ← ftWrite log this call.start call.stop call.value
      ftWrites log this calls

/-- Consecutive calls of `ft_write` on a new tree. -/
def ftRun (log : List LogRecord) (calls : List WriteCall) :
    FigM Figtree := do
  let this ← ftInit
  ftWrites log this calls

/-- The value that the latest write of a byte gave it. -/
def latest (calls : List WriteCall) (x : Nat) : Option Int :=
  (calls.reverse.find? (·.covers x)).map WriteCall.value

theorem latest_concat (calls : List WriteCall) (call : WriteCall) (x : Nat) :
    latest (calls ++ [call]) x =
      if call.start ≤ x ∧ x ≤ call.stop then some call.value
      else latest calls x := by
  by_cases covers : call.start ≤ x ∧ x ≤ call.stop
  · simp [latest, WriteCall.covers, covers]
  · have misses : call.covers x = false := by
      simpa [WriteCall.covers] using covers
    simp only [latest, List.reverse_append, List.reverse_singleton,
      List.singleton_append, List.find?_cons, misses]
    rw [if_neg covers]

/-- Every call of a run writes a range of bytes below a limit. -/
def CallsBelow (limit : Nat) (calls : List WriteCall) : Prop :=
  ∀ call ∈ calls, call.start ≤ call.stop ∧ call.stop < limit

/-! ## One write -/

section Step

variable {log : List LogRecord} {regime : Regime} {heap : Heap}
  {frame : Part} {fig : Fig} {this : Figtree} {start stop : Nat}

/-- A write keeps the tree sound and, if it follows children in memory only,
changes the answers inside its range and nowhere else. -/
theorem ensures_write
    (sound : fig.Sound regime)
    (holds : Holds (FigRep log fig this) frame heap)
    (ends : start ≤ stop)
    (below : stop < regime.limit)
    (edgeClear : fig.EdgeClear (iInit start stop))
    (loaded : regime.Trusting ∨ fig.wayLoaded (iInit start stop) = true)
    (value : Int) :
    Ensures (ftWrite log this start stop value)
      (fun this' next => ∃ fig', fig'.Sound regime ∧
        Holds (FigRep log fig' this') frame next ∧
        (fig.wayLoaded (iInit start stop) = true →
          fig.Written fig' regime.limit (iInit start stop) value)) heap := by
  obtain ⟨cells, rep, owns⟩ := holds
  obtain ⟨fig', written, sound', changes⟩ := Fig.write_spec sound
    rfl ends below edgeClear loaded value
  refine (ensures_ftWrite rep sound ends below edgeClear loaded owns
    value).mono ?_
  rintro this' next ⟨other, sameWrite, holds⟩
  cases written.symm.trans sameWrite
  exact ⟨fig', sound', holds, changes⟩

/-- A write to a tree all of whose nodes are in memory. -/
theorem ensures_write_eager
    (eager : ¬regime.partly)
    (sound : fig.Sound regime)
    (holds : Holds (FigRep log fig this) frame heap)
    (ends : start ≤ stop)
    (below : stop < regime.limit)
    (edgeClear : fig.EdgeClear (iInit start stop))
    (value : Int) :
    Ensures (ftWrite log this start stop value)
      (fun this' next => ∃ fig', fig'.Sound regime ∧
        Holds (FigRep log fig' this') frame next ∧
        fig.Written fig' regime.limit (iInit start stop) value) heap := by
  have way := sound.wayLoaded eager rfl ends
    below edgeClear
  refine (ensures_write sound holds ends below edgeClear (Or.inr way)
    value).mono ?_
  rintro this' next ⟨fig', sound', holds, changes⟩
  exact ⟨fig', sound', holds, changes way⟩

end Step

/-! ## Whole runs -/

/-- Trees in memory with entries below a limit, and no log behind them. -/
def memoryRegime (limit : Nat) (bounded : limit ≤ byteIndexEnd) : Regime where
  limit := limit
  bounded := bounded
  partly := False
  backs := fun _ _ _ _ _ => True
  keep := fun _ _ => trivial

/-- Entries below the last byte index. -/
def belowMax : Regime := memoryRegime byteIndexMax (Nat.le_succ _)

/-- Trees partly in the log, with entries below the last byte index. -/
def partlyLoaded : Regime where
  limit := byteIndexMax
  bounded := Nat.le_succ _
  partly := True
  backs := fun _ _ _ _ _ => True
  keep := fun _ _ => trivial

theorem partlyLoaded_trusting : partlyLoaded.Trusting :=
  fun _ _ _ _ _ => trivial

theorem Fig.empty_sound (regime : Regime) : Fig.empty.Sound regime :=
  (soundKid_chain 1 0 regime.limit).1

/-- The tree after some calls: in order, and with the answers of the latest
writes. -/
structure Ran
    (regime : Regime)
    (log : List LogRecord)
    (calls : List WriteCall)
    (this : Figtree)
    (heap : Heap)
    (fig : Fig) : Prop where
  sound : fig.Sound regime
  holds : Holds (FigRep log fig this) 0 heap
  answers : ∀ x, x < regime.limit → fig.look x = latest calls x

section Run

variable {log : List LogRecord} {heap : Heap} {this : Figtree}
  {done calls : List WriteCall}

theorem Ran.look_eq
    {regime : Regime}
    {fig : Fig}
    (ran : Ran regime log calls this heap fig)
    (below : CallsBelow regime.limit calls)
    (x : Nat) :
    fig.look x = latest calls x := by
  by_cases inside : x < regime.limit
  · exact ran.answers x inside
  · have past := ran.sound.look_past (Nat.le_of_not_lt inside)
    have none : latest calls x = none := by
      simp only [latest, Option.map_eq_none_iff, List.find?_eq_none,
        List.mem_reverse, WriteCall.covers, Bool.and_eq_true,
        decide_eq_true_eq, not_and]
      intro call member _ upper
      have := (below call member).2
      omega
    exact past.trans none.symm

theorem ensures_ftWrites
    (ran : ∃ fig, Ran belowMax log done this heap fig)
    (below : CallsBelow byteIndexMax calls) :
    Ensures (ftWrites log this calls)
      (fun this' next => ∃ fig,
        Ran belowMax log (done ++ calls) this' next fig) heap := by
  induction calls generalizing done this heap with
  | nil =>
      rw [List.append_nil]
      exact ensures_pure.mpr ran
  | cons call calls inductionHypothesis =>
      obtain ⟨fig, sound, holds, answers⟩ := ran
      obtain ⟨ends, upper⟩ := below call List.mem_cons_self
      rw [ftWrites, ensures_bind]
      refine (ensures_write_eager id sound holds ends
        upper (sound.edgeClear rfl ends upper le_rfl) call.value).mono ?_
      rintro this' next ⟨fig', sound', holds', written⟩
      have ran' : Ran belowMax log (done ++ [call]) this' next fig' := by
        refine ⟨sound', holds', fun x inside => ?_⟩
        rw [written x inside, latest_concat, answers x inside]
        rfl
      have rest := inductionHypothesis ⟨fig', ran'⟩
        (fun call member => below call (List.mem_cons_of_mem _ member))
      rwa [List.append_assoc] at rest

/-- Every sequence of writes below the last byte index goes through. -/
theorem ensures_ftRun
    (below : CallsBelow byteIndexMax calls) :
    Ensures (ftRun log calls)
      (fun this heap => ∃ fig, Ran belowMax log calls this heap fig)
      Store.empty := by
  rw [ftRun, ensures_bind]
  refine ((@ensures_ftInit log) (Owns.nothing Store.empty)).mono ?_
  intro this heap holds
  have ran : Ran belowMax log [] this heap Fig.empty :=
    ⟨Fig.empty_sound _, holds, fun x _ => rfl⟩
  exact ensures_ftWrites ⟨Fig.empty, ran⟩ below

end Run

/-- The last writer wins: after any sequence of writes, `ft_lookup` returns the
value of the latest write that covers the byte, and nothing if there is
none. -/
theorem ftLookup_returns_latest
    (log : List LogRecord)
    (calls : List WriteCall)
    (below : CallsBelow byteIndexMax calls) :
    Ensures (ftRun log calls)
      (fun this heap => ∀ x,
        Ensures (ftLookup log this x) (fun value _ => value = latest calls x)
          heap) Store.empty := by
  refine (ensures_ftRun below).mono ?_
  rintro this heap ⟨fig, ran⟩ x
  obtain ⟨cells, rep, owns⟩ := ran.holds
  refine (ensures_ftLookup rep owns x).mono ?_
  rintro value _ rfl
  exact ran.look_eq below x

/-- A write in the middle of an earlier one. -/
theorem ftLookup_returns_latest_nested :
    CallsBelow byteIndexMax [⟨0, 9, 1⟩, ⟨3, 5, 2⟩] ∧
      Ensures (ftRun [] [⟨0, 9, 1⟩, ⟨3, 5, 2⟩])
        (fun this heap => ∀ x,
          Ensures (ftLookup [] this x) (fun value _ => value =
            latest [⟨0, 9, 1⟩, ⟨3, 5, 2⟩] x) heap) Store.empty := by
  have below : CallsBelow byteIndexMax [⟨0, 9, 1⟩, ⟨3, 5, 2⟩] := by
    unfold CallsBelow
    decide
  exact ⟨below, ftLookup_returns_latest [] _ below⟩

end FigTree
end Gdpfs
