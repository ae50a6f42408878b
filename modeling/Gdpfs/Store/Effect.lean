import Mathlib.Data.Nat.Notation

/-!
# Fallible state transformers

The programs modelled in this development change a state and may stop with a
fault: a failed assertion, a dereference of a dead address, an index past an
array.  `Ensures action post state` is total correctness: from `state` the
action runs to completion without a fault and `post` holds of what it returns
and of the state it leaves.  `Allows action post state` is partial correctness:
`post` holds if the action returns.
-/

namespace Effect

/-- From `state` the action returns, and `post` holds of its value and of the
state it leaves. -/
def Ensures
    (action : StateT σ (Except ε) α)
    (post : α → σ → Prop)
    (state : σ) : Prop :=
  ∃ value next, action.run state = .ok (value, next) ∧ post value next

/-- A postcondition may be weakened. -/
theorem Ensures.mono
    {action : StateT σ (Except ε) α}
    {post weaker : α → σ → Prop}
    {state : σ}
    (ensures : Ensures action post state)
    (weaken : ∀ value next, post value next → weaker value next) :
    Ensures action weaker state := by
  obtain ⟨value, next, run, holds⟩ := ensures
  exact ⟨value, next, run, weaken value next holds⟩

/-- Running two actions in sequence runs the second from the state the first
one leaves. -/
theorem ensures_bind
    {action : StateT σ (Except ε) α}
    {rest : α → StateT σ (Except ε) β}
    {post : β → σ → Prop}
    {state : σ} :
    Ensures (action >>= rest) post state ↔
      Ensures action (fun value next => Ensures (rest value) post next)
        state := by
  constructor
  · rintro ⟨value, next, run, holds⟩
    simp only [StateT.run_bind] at run
    cases first : action.run state with
    | error fault =>
        rw [first] at run
        cases run
    | ok result =>
        rw [first] at run
        exact ⟨result.1, result.2, first, value, next, run, holds⟩
  · rintro ⟨middle, between, first, value, next, run, holds⟩
    refine ⟨value, next, ?_, holds⟩
    simp only [StateT.run_bind, first]
    exact run

/-- The sequencing rule, in the form that steps over the first action of a
program whose specification is known. -/
theorem Ensures.bind
    {action : StateT σ (Except ε) α}
    {rest : α → StateT σ (Except ε) β}
    {middle : α → σ → Prop}
    {post : β → σ → Prop}
    {state : σ}
    (first : Ensures action middle state)
    (second : ∀ value next, middle value next →
      Ensures (rest value) post next) :
    Ensures (action >>= rest) post state :=
  ensures_bind.mpr (first.mono second)

@[simp] theorem ensures_pure
    {value : α}
    {post : α → σ → Prop}
    {state : σ} :
    Ensures (pure value : StateT σ (Except ε) α) post state ↔
      post value state := by
  constructor
  · rintro ⟨_, _, run, holds⟩
    cases run
    exact holds
  · intro holds
    exact ⟨value, state, rfl, holds⟩

@[simp] theorem ensures_get
    {post : σ → σ → Prop}
    {state : σ} :
    Ensures (get : StateT σ (Except ε) σ) post state ↔
      post state state := by
  constructor
  · rintro ⟨_, _, run, holds⟩
    cases run
    exact holds
  · intro holds
    exact ⟨state, state, rfl, holds⟩

@[simp] theorem ensures_set
    {post : PUnit → σ → Prop}
    {state next : σ} :
    Ensures (set next : StateT σ (Except ε) PUnit) post state ↔
      post ⟨⟩ next := by
  constructor
  · rintro ⟨_, _, run, holds⟩
    cases run
    exact holds
  · intro holds
    exact ⟨⟨⟩, next, rfl, holds⟩

@[simp] theorem ensures_throw
    {fault : ε}
    {post : α → σ → Prop}
    {state : σ} :
    ¬Ensures (throw fault : StateT σ (Except ε) α) post state := by
  rintro ⟨_, _, run, _⟩
  cases run

/-- An action that has run is ensured exactly what its result satisfies. -/
theorem ensures_of_run
    {action : StateT σ (Except ε) α}
    {post : α → σ → Prop}
    {state next : σ}
    {value : α}
    (run : action.run state = .ok (value, next)) :
    Ensures action post state ↔ post value next := by
  constructor
  · rintro ⟨_, _, otherRun, holds⟩
    rw [run] at otherRun
    cases otherRun
    exact holds
  · intro holds
    exact ⟨value, next, run, holds⟩

/-- Step over an action whose run is known. -/
theorem ensures_run_bind
    {action : StateT σ (Except ε) α}
    {rest : α → StateT σ (Except ε) β}
    {post : β → σ → Prop}
    {state next : σ}
    {value : α}
    (run : action.run state = .ok (value, next)) :
    Ensures (action >>= rest) post state ↔
      Ensures (rest value) post next := by
  rw [ensures_bind, ensures_of_run run]

theorem ensures_map
    {action : StateT σ (Except ε) α}
    {f : α → β}
    {post : β → σ → Prop}
    {state : σ} :
    Ensures (f <$> action) post state ↔
      Ensures action (fun value next => post (f value) next) state := by
  rw [← bind_pure_comp, ensures_bind]
  simp only [ensures_pure]

/-- Visit a list from the left: an invariant indexed by what is left to visit
is carried from the whole list to the empty one. -/
theorem ensures_forM
    {visit : α → StateT σ (Except ε) PUnit}
    {invariant : List α → σ → Prop}
    (step : ∀ item rest state, invariant (item :: rest) state →
      Ensures (visit item) (fun _ next => invariant rest next) state)
    (items : List α)
    {state : σ}
    (start : invariant items state) :
    Ensures (forM items visit) (fun _ next => invariant [] next) state := by
  induction items generalizing state with
  | nil => exact ensures_pure.mpr start
  | cons item rest inductionHypothesis =>
      rw [List.forM_cons]
      exact (step item rest state start).bind
        fun _ _ invariantRest => inductionHypothesis invariantRest

/-- What an action returns, unless it stops with a fault. -/
def outcome (action : StateT σ (Except ε) α) (state : σ) : Option α :=
  match action.run state with
  | .ok (value, _) => some value
  | .error _ => none

theorem run_of_toOption
    {result : Except ε α}
    (made : result.toOption = some value) :
    result = .ok value := by
  cases result with
  | error fault => cases made
  | ok found => exact congrArg Except.ok (Option.some.inj made)

/-- An action ensures the outcome that it has. -/
theorem ensures_of_outcome
    {action : StateT σ (Except ε) α}
    {state : σ}
    {value : α}
    (returns : outcome action state = some value) :
    Ensures action (fun found _ => found = value) state := by
  unfold outcome at returns
  split at returns
  · next found next run =>
      exact ⟨found, next, run, Option.some.inj returns⟩
  · cases returns

/-- An action ensures nothing of an outcome that it does not have. -/
theorem outcome_of_ensures
    {action : StateT σ (Except ε) α}
    {post : α → Prop}
    {state : σ}
    (ensures : Ensures action (fun value _ => post value) state) :
    ∃ value, outcome action state = some value ∧ post value := by
  obtain ⟨value, next, run, holds⟩ := ensures
  refine ⟨value, ?_, holds⟩
  rw [outcome, run]

/-! ## Partial correctness -/

/-- If the action returns, `post` holds of its value and of the state it
leaves. -/
def Allows
    (action : StateT σ (Except ε) α)
    (post : α → σ → Prop)
    (state : σ) : Prop :=
  ∀ value next, action.run state = .ok (value, next) → post value next

theorem Allows.mono
    {action : StateT σ (Except ε) α}
    {post weaker : α → σ → Prop}
    {state : σ}
    (allows : Allows action post state)
    (weaken : ∀ value next, post value next → weaker value next) :
    Allows action weaker state :=
  fun value next run => weaken value next (allows value next run)

/-- What is ensured is allowed. -/
theorem Ensures.allows
    {action : StateT σ (Except ε) α}
    {post : α → σ → Prop}
    {state : σ}
    (ensures : Ensures action post state) :
    Allows action post state :=
  fun _ _ run => (ensures_of_run run).mp ensures

/-- What is allowed is ensured if the action returns. -/
theorem Allows.ensures
    {action : StateT σ (Except ε) α}
    {post : α → σ → Prop}
    {state : σ}
    (allows : Allows action post state)
    (returns : Ensures action (fun _ _ => True) state) :
    Ensures action post state := by
  obtain ⟨value, next, run, _⟩ := returns
  exact ⟨value, next, run, allows value next run⟩

/-- What is ensured and what is allowed hold together. -/
theorem Ensures.and
    {action : StateT σ (Except ε) α}
    {post other : α → σ → Prop}
    {state : σ}
    (ensures : Ensures action post state)
    (allows : Allows action other state) :
    Ensures action (fun value next => post value next ∧ other value next)
      state := by
  obtain ⟨value, next, run, holds⟩ := ensures
  exact ⟨value, next, run, holds, allows value next run⟩

theorem Allows.and
    {action : StateT σ (Except ε) α}
    {post other : α → σ → Prop}
    {state : σ}
    (first : Allows action post state)
    (second : Allows action other state) :
    Allows action (fun value next => post value next ∧ other value next)
      state :=
  fun value next run => ⟨first value next run, second value next run⟩

theorem allows_bind
    {action : StateT σ (Except ε) α}
    {rest : α → StateT σ (Except ε) β}
    {post : β → σ → Prop}
    {state : σ} :
    Allows (action >>= rest) post state ↔
      Allows action (fun value next => Allows (rest value) post next)
        state := by
  constructor
  · intro allows middle between first value next run
    refine allows value next ?_
    simp only [StateT.run_bind, first]
    exact run
  · intro allows value next run
    simp only [StateT.run_bind] at run
    cases first : action.run state with
    | error fault =>
        rw [first] at run
        cases run
    | ok result =>
        rw [first] at run
        exact allows result.1 result.2 first value next run

/-- The sequencing rule of partial correctness. -/
theorem Allows.bind
    {action : StateT σ (Except ε) α}
    {rest : α → StateT σ (Except ε) β}
    {middle : α → σ → Prop}
    {post : β → σ → Prop}
    {state : σ}
    (first : Allows action middle state)
    (second : ∀ value next, middle value next →
      Allows (rest value) post next) :
    Allows (action >>= rest) post state :=
  allows_bind.mpr (first.mono second)

@[simp] theorem allows_pure
    {value : α}
    {post : α → σ → Prop}
    {state : σ} :
    Allows (pure value : StateT σ (Except ε) α) post state ↔
      post value state := by
  constructor
  · intro allows
    exact allows value state rfl
  · rintro holds _ _ run
    cases run
    exact holds

@[simp] theorem allows_get
    {post : σ → σ → Prop}
    {state : σ} :
    Allows (get : StateT σ (Except ε) σ) post state ↔
      post state state := by
  constructor
  · intro allows
    exact allows state state rfl
  · rintro holds _ _ run
    cases run
    exact holds

@[simp] theorem allows_set
    {post : PUnit → σ → Prop}
    {state next : σ} :
    Allows (set next : StateT σ (Except ε) PUnit) post state ↔
      post ⟨⟩ next := by
  constructor
  · intro allows
    exact allows ⟨⟩ next rfl
  · rintro holds _ _ run
    cases run
    exact holds

@[simp] theorem allows_throw
    {fault : ε}
    {post : α → σ → Prop}
    {state : σ} :
    Allows (throw fault : StateT σ (Except ε) α) post state := by
  rintro _ _ run
  cases run

theorem allows_of_run
    {action : StateT σ (Except ε) α}
    {post : α → σ → Prop}
    {state next : σ}
    {value : α}
    (run : action.run state = .ok (value, next)) :
    Allows action post state ↔ post value next := by
  constructor
  · intro allows
    exact allows value next run
  · intro holds value' next' otherRun
    rw [run] at otherRun
    cases otherRun
    exact holds

/-- Step over an action whose run is known. -/
theorem allows_run_bind
    {action : StateT σ (Except ε) α}
    {rest : α → StateT σ (Except ε) β}
    {post : β → σ → Prop}
    {state next : σ}
    {value : α}
    (run : action.run state = .ok (value, next)) :
    Allows (action >>= rest) post state ↔
      Allows (rest value) post next := by
  rw [allows_bind, allows_of_run run]

theorem allows_map
    {action : StateT σ (Except ε) α}
    {f : α → β}
    {post : β → σ → Prop}
    {state : σ} :
    Allows (f <$> action) post state ↔
      Allows action (fun value next => post (f value) next) state := by
  rw [← bind_pure_comp, allows_bind]
  simp only [allows_pure]

/-! ## Faults -/

/-- The action does not stop with the fault. -/
def Avoids
    (action : StateT σ (Except ε) α)
    (fault : ε)
    (state : σ) : Prop :=
  action.run state ≠ .error fault

/-- The sequencing rule for a fault that no part of a program stops with. -/
theorem Avoids.bind
    {action : StateT σ (Except ε) α}
    {rest : α → StateT σ (Except ε) β}
    {middle : α → σ → Prop}
    {fault : ε}
    {state : σ}
    (first : Avoids action fault state)
    (allows : Allows action middle state)
    (second : ∀ value next, middle value next →
      Avoids (rest value) fault next) :
    Avoids (action >>= rest) fault state := by
  intro stops
  simp only [StateT.run_bind] at stops
  cases run : action.run state with
  | error other =>
      rw [run] at stops
      cases stops
      exact first run
  | ok result =>
      rw [run] at stops
      exact second result.1 result.2 (allows result.1 result.2 run) stops

theorem avoids_get_bind
    {rest : σ → StateT σ (Except ε) β}
    {fault : ε}
    {state : σ}
    (second : Avoids (rest state) fault state) :
    Avoids (get >>= rest) fault state :=
  second

theorem avoids_set
    {fault : ε}
    {state next : σ} :
    Avoids (set next) fault state := by
  intro stops
  cases stops

theorem avoids_throw
    {fault other : ε}
    {state : σ}
    (differ : other ≠ fault) :
    Avoids (throw other : StateT σ (Except ε) α) fault state := by
  intro stops
  cases stops
  exact differ rfl

theorem run_bind_of_run
    {action : StateT σ (Except ε) α}
    {rest : α → StateT σ (Except ε) β}
    {state next : σ}
    (run : action.run state = .ok (value, next)) :
    (action >>= rest).run state = (rest value).run next := by
  rw [StateT.run_bind, run]
  rfl

theorem run_get_bind
    {rest : σ → StateT σ (Except ε) β}
    {state : σ} :
    (get >>= rest).run state = (rest state).run state :=
  rfl

/-- The states that a run of steps from `start` reaches; `guard` is what is
assumed of every step and of the state before it. -/
inductive Reached
    (step : ι → StateT σ (Except ε) α)
    (guard : ι → σ → Prop)
    (start : σ) : σ → Prop
  | start : Reached step guard start start
  | step
      (index : ι)
      (before : Reached step guard start state)
      (guarded : guard index state)
      (run : (step index).run state = .ok (value, next)) :
      Reached step guard start next

/-- What holds at the start and is preserved by every guarded step holds in
every state reached. -/
theorem Reached.invariant
    {step : ι → StateT σ (Except ε) α}
    {guard : ι → σ → Prop}
    {start state : σ}
    (invariant : σ → Prop)
    (initially : invariant start)
    (preserved : ∀ index state, guard index state → invariant state →
      Allows (step index) (fun _ next => invariant next) state)
    (reached : Reached step guard start state) :
    invariant state := by
  induction reached with
  | start => exact initially
  | step index before guarded run inductionHypothesis =>
      exact preserved index _ guarded inductionHypothesis _ _ run

/-- Runs compose. -/
theorem Reached.trans
    {step : ι → StateT σ (Except ε) α}
    {guard : ι → σ → Prop}
    {first second third : σ}
    (before : Reached step guard first second)
    (after : Reached step guard second third) :
    Reached step guard first third := by
  induction after with
  | start => exact before
  | step index _ guarded run inductionHypothesis =>
      exact .step index inductionHypothesis guarded run

/-- Take some steps, each of them after a check. -/
def replay
    (step : ι → StateT σ (Except ε) α)
    (check : ι → σ → Bool) : List ι → σ → Option σ
  | [], state => some state
  | index :: rest, state =>
      if check index state then
        match (step index).run state with
        | .ok (_, next) => replay step check rest next
        | .error _ => none
      else none

/-- What a replay ends in is reached. -/
theorem reached_of_replay
    {step : ι → StateT σ (Except ε) α}
    {guard : ι → σ → Prop}
    {check : ι → σ → Bool}
    (checks : ∀ index state, check index state = true → guard index state)
    {indices : List ι}
    {start final : σ}
    (replayed : replay step check indices start = some final) :
    Reached step guard start final := by
  induction indices generalizing start with
  | nil =>
      cases replayed
      exact .start
  | cons index rest inductionHypothesis =>
      rw [replay] at replayed
      split at replayed
      · next checked =>
          split at replayed
          · next value next run =>
              have first : Reached step guard start next :=
                .step index .start (checks index start checked) run
              exact first.trans (inductionHypothesis replayed)
          · cases replayed
      · cases replayed

end Effect
