import Gdpfs.Store.Effect

/-!
# Schedules that end

A system of threads goes on as long as some thread can take a step.  If every
step lowers a measure, while an invariant holds, there is no schedule that goes
on for ever.
-/

namespace Effect

/-- One of the steps that a predicate selects leads to another state. -/
def Continues
    (step : ι → StateT σ (Except ε) α)
    (selected : ι → Prop)
    (state next : σ) : Prop :=
  ∃ index value, selected index ∧ (step index).run state = .ok (value, next)

/-- None of the steps that a predicate selects can be taken. -/
def Stuck
    (step : ι → StateT σ (Except ε) α)
    (selected : ι → Prop)
    (state : σ) : Prop :=
  ∀ index, selected index → ¬Ensures (step index) (fun _ _ => True) state

/-- Every schedule of the selected steps ends. -/
def Ends
    (step : ι → StateT σ (Except ε) α)
    (selected : ι → Prop)
    (state : σ) : Prop :=
  Acc (fun next state => Continues step selected state next) state

/-- Schedules end if every step keeps an invariant and lowers a measure. -/
theorem ends_of_decreasing
    {step : ι → StateT σ (Except ε) α}
    {selected : ι → Prop}
    {less : μ → μ → Prop}
    (wellFounded : WellFounded less)
    (invariant : σ → Prop)
    (measure : σ → μ)
    (decreases : ∀ index state, selected index → invariant state →
      Allows (step index)
        (fun _ next => invariant next ∧ less (measure next) (measure state))
        state)
    {state : σ}
    (holds : invariant state) :
    Ends step selected state := by
  have bySize : ∀ size state, measure state = size → invariant state →
      Ends step selected state := by
    intro size
    induction size using wellFounded.induction with
    | _ size inductionHypothesis =>
        intro state sized holds
        refine .intro state ?_
        rintro next ⟨index, value, isSelected, run⟩
        obtain ⟨kept, lower⟩ :=
          decreases index state isSelected holds value next run
        rw [sized] at lower
        exact inductionHypothesis _ lower next rfl kept
  exact bySize _ state rfl holds

/-! ## Given schedules -/

/-- What depends on the steps that are still to come. -/
theorem replay_invariant
    {step : ι → StateT σ (Except ε) α}
    {check : ι → σ → Bool}
    (invariant : List ι → σ → Prop)
    (preserved : ∀ index rest state, check index state = true →
      invariant (index :: rest) state →
      Allows (step index) (fun _ next => invariant rest next) state)
    {indices : List ι}
    {start final : σ}
    (replayed : replay step check indices start = some final)
    (initially : invariant indices start) :
    invariant [] final := by
  induction indices generalizing start with
  | nil =>
      cases replayed
      exact initially
  | cons index rest inductionHypothesis =>
      rw [replay] at replayed
      split at replayed
      · next checked =>
          split at replayed
          · next value next run =>
              refine inductionHypothesis replayed ?_
              exact preserved index rest start checked initially value next run
          · cases replayed
      · cases replayed

end Effect
