import Gdpfs.FigTree.Runs
import Gdpfs.FigTree.Abstract.Charge

/-!
# The height of a FIG tree

The height of a tree grows with the logarithm of the number of writes, whatever
the writes are.  So a lookup visits logarithmically many nodes, as the index of
a file is meant to.
-/

namespace Gdpfs
namespace FigTree

open Log Effect
open Cells (Owns Holds cell Store)

/-- A tree after some calls, charged for no more than their insertions. -/
structure Charged
    (log : List LogRecord)
    (calls : List WriteCall)
    (this : Figtree)
    (heap : Heap)
    (fig : Fig) : Prop where
  ran : Ran belowMax log calls this heap fig
  charge : fig.charge ≤ 2 * calls.length

section Run

variable {log : List LogRecord} {heap : Heap} {this : Figtree}
  {done calls : List WriteCall}

/-- A write keeps the charge of a tree in step with the number of writes. -/
theorem ensures_write_charged
    {fig : Fig}
    {call : WriteCall}
    (charged : Charged log done this heap fig)
    (ends : call.start ≤ call.stop)
    (below : call.stop < belowMax.limit) :
    Ensures (ftWrite log this call.start call.stop call.value)
      (fun this' next => ∃ fig',
        Charged log (done ++ [call]) this' next fig') heap := by
  obtain ⟨⟨sound, holds, answers⟩, charge⟩ := charged
  obtain ⟨cells, rep, owns⟩ := holds
  have edgeClear : fig.EdgeClear (iInit call.start call.stop) :=
    sound.edgeClear rfl ends below le_rfl
  have way := sound.wayLoaded id rfl ends below edgeClear
  obtain ⟨fig', written, sound', changes⟩ := Fig.write_spec sound rfl ends
    below edgeClear (Or.inr way) call.value
  refine (ensures_ftWrite rep sound ends below edgeClear (Or.inr way) owns
    call.value).mono ?_
  rintro this' next ⟨other, sameWrite, holds⟩
  cases written.symm.trans sameWrite
  refine ⟨fig', ⟨sound', holds, fun x inside => ?_⟩, ?_⟩
  · rw [changes way x inside, latest_concat, answers x inside]
    rfl
  · have grown := Fig.charge_write written
    rw [List.length_append, List.length_singleton]
    omega

theorem ensures_ftWrites_charged
    (charged : ∃ fig, Charged log done this heap fig)
    (below : CallsBelow byteIndexMax calls) :
    Ensures (ftWrites log this calls)
      (fun this' next => ∃ fig,
        Charged log (done ++ calls) this' next fig) heap := by
  induction calls generalizing done this heap with
  | nil =>
      rw [List.append_nil]
      exact ensures_pure.mpr charged
  | cons call calls inductionHypothesis =>
      obtain ⟨fig, charged⟩ := charged
      obtain ⟨ends, upper⟩ := below call List.mem_cons_self
      rw [ftWrites, ensures_bind]
      refine (ensures_write_charged charged ends upper).mono ?_
      intro this' next charged'
      have rest := inductionHypothesis charged'
        (fun call member => below call (List.mem_cons_of_mem _ member))
      rwa [List.append_assoc] at rest

theorem ensures_ftRun_charged
    (below : CallsBelow byteIndexMax calls) :
    Ensures (ftRun log calls)
      (fun this heap => ∃ fig, Charged log calls this heap fig)
      Store.empty := by
  rw [ftRun, ensures_bind]
  refine ((@ensures_ftInit log) (Owns.nothing Store.empty)).mono ?_
  intro this heap holds
  have ran : Ran belowMax log [] this heap Fig.empty :=
    ⟨Fig.empty_sound _, holds, fun x _ => rfl⟩
  exact ensures_ftWrites_charged ⟨Fig.empty, ran, le_rfl⟩ below

end Run

/-- A lookup visits logarithmically many nodes.  After any sequence of writes,
if `depth` is so large that `(FT_ORDER + 1) ^ (depth + 1)` exceeds
`FT_ORDER + 1` plus `2 * FT_ORDER` for every write, then the loop of `ft_lookup`
finds the latest write of every byte within `depth` nodes. -/
theorem lookup_depth_logarithmic
    (log : List LogRecord)
    (calls : List WriteCall)
    (below : CallsBelow byteIndexMax calls) :
    Ensures (ftRun log calls)
      (fun this heap => ∀ x depth,
        ftOrder * (2 * calls.length) + (ftOrder + 1) <
          (ftOrder + 1) ^ (depth + 1) →
        Ensures (ftLookupFrom log x depth (some this.root))
          (fun value _ => value = latest calls x) heap) Store.empty := by
  refine (ensures_ftRun_charged below).mono ?_
  rintro this heap ⟨fig, ran, charge⟩ x depth large
  have tall := fig.pow_height_le
  have paid := Nat.mul_le_mul_left ftOrder charge
  have less : (ftOrder + 1) ^ (fig.height + 1) < (ftOrder + 1) ^ (depth + 1) :=
    by omega
  have deep : fig.height + 1 < depth + 1 :=
    (Nat.pow_lt_pow_iff_right (by decide)).mp less
  obtain ⟨cells, rep, owns⟩ := ran.holds
  refine (ensures_ftLookupFrom rep (Nat.le_of_lt_succ deep) owns).mono ?_
  rintro value _ rfl
  exact ran.look_eq below x

/-- Six writes: three nodes are enough. -/
theorem lookup_depth_logarithmic_six :
    CallsBelow byteIndexMax [⟨0, 0, 1⟩, ⟨1, 1, 2⟩, ⟨2, 2, 3⟩, ⟨3, 3, 4⟩,
      ⟨4, 4, 5⟩, ⟨5, 5, 6⟩] ∧
      Ensures (ftRun [] [⟨0, 0, 1⟩, ⟨1, 1, 2⟩, ⟨2, 2, 3⟩, ⟨3, 3, 4⟩,
          ⟨4, 4, 5⟩, ⟨5, 5, 6⟩])
        (fun this heap => ∀ x,
          Ensures (ftLookupFrom [] x 3 (some this.root))
            (fun value _ => value = latest [⟨0, 0, 1⟩, ⟨1, 1, 2⟩, ⟨2, 2, 3⟩,
              ⟨3, 3, 4⟩, ⟨4, 4, 5⟩, ⟨5, 5, 6⟩] x) heap) Store.empty := by
  have below : CallsBelow byteIndexMax [⟨0, 0, 1⟩, ⟨1, 1, 2⟩, ⟨2, 2, 3⟩,
      ⟨3, 3, 4⟩, ⟨4, 4, 5⟩, ⟨5, 5, 6⟩] := by
    unfold CallsBelow
    decide
  refine ⟨below, (lookup_depth_logarithmic [] _ below).mono ?_⟩
  intro this heap within x
  exact within x 3 (by decide)

end FigTree
end Gdpfs
