import ManifestSearch.Proofs.Chain.Effects

/-!
Chains in two parts. If the first part fails or finds something, the second leaves no trace; otherwise
the second goes on in the state that the first leaves. The strategies that are run are the shortest
start of a chain that ends in one that fails or finds something. The full chain is the reduced one
with the strategy behind it that generates a manifest.
-/

namespace ManifestSearch.Chain

variable {σ : Type} {context : Context} {strategy : Strategy σ}
  {strategies first rest : List (Strategy σ)} {state : σ}

/-- The state that strategies leave that are run one after the other, whatever they answer. -/
def leftBy (context : Context) : List (Strategy σ) → σ → σ
  | [], state => state
  | strategy :: rest, state => leftBy context rest (strategy.run context state).state

/-- Each of the strategies finds nothing in the state that those before it leave, and none fails. -/
def Silent (context : Context) : List (Strategy σ) → σ → Prop
  | [], _ => True
  | strategy :: rest, state =>
      (strategy.run context state).report.outcome = .ok [] ∧
        Silent context rest (strategy.run context state).state

theorem runAll_cons_hidden (rest other : List (Strategy σ))
    (decides : (strategy.run context state).report.outcome ≠ .ok []) :
    runAll context (strategy :: rest) state = runAll context (strategy :: other) state := by
  simp only [runAll, step]
  split
  · rfl
  · contradiction
  · rfl

theorem runAll_cons_onward (rest : List (Strategy σ))
    (nothing : (strategy.run context state).report.outcome = .ok []) :
    runAll context (strategy :: rest) state =
      let reply := strategy.run context state
      let later := runAll context rest reply.state
      ⟨later.report.after (.trying strategy.name :: reply.report.events), later.state,
        strategy :: later.called⟩ := by
  simp only [runAll, step, nothing]
  rfl

theorem outcome_cons_nothing (rest : List (Strategy σ))
    (nothing : (strategy.run context state).report.outcome = .ok []) :
    (runAll context (strategy :: rest) state).report.outcome =
      (runAll context rest (strategy.run context state).state).report.outcome := by
  rw [outcome_runAll_cons, nothing, firstOf_nothing]

theorem outcome_cons_decided (rest : List (Strategy σ))
    (decides : (strategy.run context state).report.outcome ≠ .ok []) :
    (runAll context (strategy :: rest) state).report.outcome =
      (strategy.run context state).report.outcome := by
  rw [outcome_runAll_cons, firstOf_of_ne decides]

/-! Two parts. -/

theorem runAll_append_decided (second : List (Strategy σ))
    (decides : (runAll context first state).report.outcome ≠ .ok []) :
    runAll context (first ++ second) state = runAll context first state := by
  induction first generalizing state with
  | nil => exact absurd rfl decides
  | cons strategy rest ih =>
      by_cases nothing : (strategy.run context state).report.outcome = .ok []
      · rw [outcome_cons_nothing rest nothing] at decides
        simp only [List.cons_append, runAll_cons_onward _ nothing, ih decides]
      · exact runAll_cons_hidden _ _ nothing

theorem runAll_append_nothing (second : List (Strategy σ))
    (nothing : (runAll context first state).report.outcome = .ok []) :
    let alone := runAll context first state
    let later := runAll context second alone.state
    let both := runAll context (first ++ second) state
    alone.called = first ∧ both.report.outcome = later.report.outcome ∧ both.state = later.state ∧
      both.called = first ++ later.called := by
  induction first generalizing state with
  | nil => exact ⟨rfl, rfl, rfl, rfl⟩
  | cons strategy rest ih =>
      by_cases passed : (strategy.run context state).report.outcome = .ok []
      · rw [outcome_cons_nothing rest passed] at nothing
        obtain ⟨calls, outcome, left, called⟩ := ih nothing
        simp only [List.cons_append, runAll_cons_onward _ passed, Report.outcome_after]
        exact ⟨congrArg _ calls, outcome, left, congrArg _ called⟩
      · rw [outcome_cons_decided rest passed] at nothing
        contradiction

theorem runAll_singleton (context : Context) (strategy : Strategy σ) (state : σ) :
    let done := runAll context [strategy] state
    let reply := strategy.run context state
    done.report.outcome = reply.report.outcome ∧ done.state = reply.state ∧
      done.called = [strategy] := by
  by_cases nothing : (strategy.run context state).report.outcome = .ok []
  · rw [runAll_cons_onward [] nothing]
    exact ⟨nothing.symm, rfl, rfl⟩
  · obtain ⟨left, called⟩ := runAll_cons_decided [] nothing
    exact ⟨outcome_cons_decided [] nothing, left, called⟩

/-! The strategies that are run. -/

theorem state_eq_leftBy (context : Context) (strategies : List (Strategy σ)) (state : σ) :
    let done := runAll context strategies state
    done.state = leftBy context done.called state := by
  induction strategies generalizing state with
  | nil => rfl
  | cons strategy rest ih =>
      by_cases nothing : (strategy.run context state).report.outcome = .ok []
      · rw [runAll_cons_onward rest nothing]
        exact ih (strategy.run context state).state
      · obtain ⟨left, called⟩ := runAll_cons_decided rest nothing
        simp only [left, called]
        rfl

/-- All strategies are run and find nothing, or they are run up to the first that does not answer
that it found nothing, and that one's answer is the answer of the chain. -/
theorem runAll_cases (context : Context) (strategies : List (Strategy σ)) (state : σ) :
    let done := runAll context strategies state
    (Silent context strategies state ∧ done.called = strategies ∧ done.report.outcome = .ok []) ∨
      ∃ passed decider behind, strategies = passed ++ decider :: behind ∧
        Silent context passed state ∧
        done.called = passed ++ [decider] ∧ done.report.outcome ≠ .ok [] ∧
        done.report.outcome =
          (decider.run context (leftBy context passed state)).report.outcome := by
  induction strategies generalizing state with
  | nil => exact .inl ⟨trivial, rfl, rfl⟩
  | cons strategy rest ih =>
      by_cases nothing : (strategy.run context state).report.outcome = .ok []
      · rw [runAll_cons_onward rest nothing]
        rcases ih (strategy.run context state).state with
          ⟨silent, called, outcome⟩ | ⟨passed, decider, behind, rfl, silent, called, decided, answer⟩
        · exact .inl ⟨⟨nothing, silent⟩, congrArg _ called, outcome⟩
        · exact .inr ⟨strategy :: passed, decider, behind, rfl, ⟨nothing, silent⟩,
            congrArg _ called, decided, answer⟩
      · have outcome := outcome_cons_decided rest nothing
        exact .inr ⟨[], strategy, rest, rfl, trivial, (runAll_cons_decided rest nothing).2,
          fun same => nothing (outcome.symm.trans same), outcome⟩

/-- The first strategy that does not answer that it found nothing decides, whatever the strategies
are: a chain in two parts does what its first part does, or else goes on with the second. -/
theorem run_append (first second : List (Strategy σ)) (context : Context) (state : σ) :
    let alone := (Chain.mk first).run context state
    let later := (Chain.mk second).run context alone.state
    let both := (Chain.mk (first ++ second)).run context state
    let empty := (Chain.mk []).run context state
    (alone.report.outcome ≠ .ok [] → both = alone) ∧
      (alone.report.outcome = .ok [] →
        both.report.outcome = later.report.outcome ∧ both.state = later.state ∧
          alone.called = first ∧ both.called = first ++ later.called) ∧
      (empty.report.outcome = .ok [] ∧ empty.state = state ∧ empty.called = []) ∧
      (∀ strategy : Strategy σ,
        let single := (Chain.mk [strategy]).run context state
        let reply := strategy.run context state
        single.report.outcome = reply.report.outcome ∧ single.state = reply.state ∧
          single.called = [strategy]) ∧
      alone.state = leftBy context alone.called state ∧
      ((Silent context first state ∧ alone.called = first ∧ alone.report.outcome = .ok []) ∨
        ∃ passed decider behind, first = passed ++ decider :: behind ∧
          Silent context passed state ∧
          alone.called = passed ++ [decider] ∧ alone.report.outcome ≠ .ok [] ∧
          alone.report.outcome =
            (decider.run context (leftBy context passed state)).report.outcome) := by
  intro alone later both empty
  refine ⟨fun decides => runAll_append_decided second decides, fun nothing => ?_, ⟨rfl, rfl, rfl⟩,
    fun strategy => runAll_singleton context strategy state, state_eq_leftBy context first state,
    runAll_cases context first state⟩
  obtain ⟨calls, outcome, left, called⟩ := runAll_append_nothing second nothing
  exact ⟨outcome, left, calls, called⟩

/-- Generating a manifest is what the full chain does where the reduced one comes to nothing, and all
that it does beyond it. A restricted host sees no difference. -/
theorem full_refines_reduced (convention : Convention) (synthesis : Synthesis) (context : Context)
    (world : World) :
    let short := (reduced convention).run context world
    let whole := (full convention synthesis).run context world
    let generated := synthesis.run context world
    (short.report.outcome ≠ .ok [] → whole = short) ∧
      (short.report.outcome = .ok [] →
        whole.report.outcome = generated.report.outcome ∧ whole.state = generated.state) ∧
      (context.mode = .restricted →
        whole.report.outcome = short.report.outcome ∧ whole.state = short.state) := by
  intro short whole generated
  have decided (decides : short.report.outcome ≠ .ok []) : whole = short :=
    runAll_append_decided [synthesis.strategy] decides
  have onward (nothing : short.report.outcome = .ok []) :
      whole.report.outcome = generated.report.outcome ∧ whole.state = generated.state := by
    obtain ⟨-, outcome, left, -⟩ := runAll_append_nothing [synthesis.strategy] nothing
    -- The strategies of the reduced chain only look, so the last one starts from the same tree.
    have same : (runAll context (reduced convention).strategies world).state = world :=
      reduced_state convention context world
    rw [same] at outcome left
    obtain ⟨lastOutcome, lastState, -⟩ := runAll_singleton context synthesis.strategy world
    exact ⟨outcome.trans lastOutcome, left.trans lastState⟩
  refine ⟨decided, onward, fun restricted => ?_⟩
  by_cases nothing : short.report.outcome = .ok []
  · have silent : generated = ⟨⟨.ok [], [.noTempFiles context.mode]⟩, world⟩ :=
      Synthesis.run_of_not_allowed (by simp [restricted]) world
    obtain ⟨outcome, left⟩ := onward nothing
    rw [outcome, left, silent, nothing]
    exact ⟨rfl, (reduced_state convention context world).symm⟩
  · rw [decided nothing]
    exact ⟨rfl, rfl⟩

end ManifestSearch.Chain
