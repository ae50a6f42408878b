import Gdpfs.Store.Effect

/-!
# Code over a representation

Code that works on a representation of a state follows the code that works on
the state itself if each of its outcomes is one of that code: where it returns,
the other one returns, and where it stops, the other one stops for a reason
that is related to its own.
-/

namespace Effect

/-- Each outcome of the first action is one of the second. -/
structure Follows
    (concrete : StateT σ (Except ε) α)
    (abstract : StateT τ (Except δ) β)
    (related : α → β → σ → τ → Prop)
    (sameFault : ε → δ → Prop)
    (state : σ)
    (model : τ) : Prop where
  returns : ∀ value next, concrete.run state = .ok (value, next) →
    ∃ value' next', abstract.run model = .ok (value', next') ∧
      related value value' next next'
  stops : ∀ fault, concrete.run state = .error fault →
    ∃ fault', abstract.run model = .error fault' ∧ sameFault fault fault'

section Rules

variable {sameFault : ε → δ → Prop} {state : σ} {model : τ}

/-- What is known of the second action. -/
theorem Follows.andAllows
    {concrete : StateT σ (Except ε) α}
    {abstract : StateT τ (Except δ) β}
    {related : α → β → σ → τ → Prop}
    {post : β → τ → Prop}
    (follows : Follows concrete abstract related sameFault state model)
    (allows : Allows abstract post model) :
    Follows concrete abstract
      (fun value value' next next' => related value value' next next' ∧
        post value' next') sameFault state model where
  returns := by
    intro value next run
    obtain ⟨value', next', run', holds⟩ := follows.returns value next run
    exact ⟨value', next', run', holds, allows value' next' run'⟩
  stops := follows.stops

/-- One action after the other. -/
theorem Follows.bind
    {concrete : StateT σ (Except ε) α}
    {abstract : StateT τ (Except δ) β}
    {rest : α → StateT σ (Except ε) γ}
    {rest' : β → StateT τ (Except δ) ζ}
    {middle : α → β → σ → τ → Prop}
    {related : γ → ζ → σ → τ → Prop}
    (first : Follows concrete abstract middle sameFault state model)
    (second : ∀ value value' next next', middle value value' next next' →
      Follows (rest value) (rest' value') related sameFault next next') :
    Follows (concrete >>= rest) (abstract >>= rest') related sameFault state
      model := by
  cases begins : concrete.run state with
  | error fault =>
      obtain ⟨fault', begins', same⟩ := first.stops fault begins
      constructor
      · intro value next run
        rw [StateT.run_bind, begins] at run
        cases run
      · intro other run
        rw [StateT.run_bind, begins] at run
        cases run
        refine ⟨fault', ?_, same⟩
        rw [StateT.run_bind, begins']
        rfl
  | ok result =>
      obtain ⟨value', next', begins', holds⟩ :=
        first.returns result.1 result.2 begins
      have goesOn := second result.1 value' result.2 next' holds
      constructor
      · intro value next run
        rw [StateT.run_bind, begins] at run
        obtain ⟨last, final, run', ends⟩ := goesOn.returns value next run
        refine ⟨last, final, ?_, ends⟩
        rw [StateT.run_bind, begins']
        exact run'
      · intro fault run
        rw [StateT.run_bind, begins] at run
        obtain ⟨fault', run', same⟩ := goesOn.stops fault run
        refine ⟨fault', ?_, same⟩
        rw [StateT.run_bind, begins']
        exact run'

theorem follows_get_bind
    {rest : σ → StateT σ (Except ε) α}
    {rest' : τ → StateT τ (Except δ) β}
    {related : α → β → σ → τ → Prop}
    (second : Follows (rest state) (rest' model) related sameFault state
      model) :
    Follows (get >>= rest) (get >>= rest') related sameFault state model :=
  ⟨second.returns, second.stops⟩

theorem follows_throw
    {related : α → β → σ → τ → Prop}
    {fault : ε}
    {fault' : δ}
    (same : sameFault fault fault') :
    Follows (throw fault) (throw fault') related sameFault state model where
  returns := by
    intro _ _ run
    cases run
  stops := by
    intro _ run
    cases run
    exact ⟨fault', rfl, same⟩

/-- Two actions that both return. -/
theorem Ensures.follows
    {concrete : StateT σ (Except ε) α}
    {abstract : StateT τ (Except δ) β}
    {post : α → σ → Prop}
    {related : α → β → σ → τ → Prop}
    {value' : β}
    {next' : τ}
    (ensures : Ensures concrete post state)
    (run' : abstract.run model = .ok (value', next'))
    (holds : ∀ value next, post value next →
      related value value' next next') :
    Follows concrete abstract related sameFault state model := by
  obtain ⟨value, next, run, ends⟩ := ensures
  constructor
  · intro last final again
    rw [run] at again
    cases again
    exact ⟨value', next', run', holds value next ends⟩
  · intro fault again
    rw [run] at again
    cases again

end Rules

/-- Every run over the representation is a run of the code that it follows. -/
theorem Reached.follows
    {step : ι → StateT σ (Except ε) α}
    {step' : ι → StateT τ (Except δ) β}
    {guard : ι → σ → Prop}
    {guard' : ι → τ → Prop}
    {start state : σ}
    {start' : τ}
    (related : σ → τ → Prop)
    (sameFault : ε → δ → Prop)
    (initially : related start start')
    (sameGuard : ∀ index state model, related state model →
      guard index state → guard' index model)
    (follows : ∀ index state model, guard index state →
      related state model → Reached step' guard' start' model →
      Follows (step index) (step' index)
        (fun _ _ next next' => related next next') sameFault state model)
    (reached : Reached step guard start state) :
    ∃ model, Reached step' guard' start' model ∧ related state model := by
  induction reached with
  | start => exact ⟨start', .start, initially⟩
  | step index before guarded run inductionHypothesis =>
      obtain ⟨model, reached', holds⟩ := inductionHypothesis
      obtain ⟨value', next', run', holds'⟩ :=
        (follows index _ model guarded holds reached').returns _ _ run
      refine ⟨next', ?_, holds'⟩
      exact .step index reached' (sameGuard index _ model holds guarded) run'

end Effect
