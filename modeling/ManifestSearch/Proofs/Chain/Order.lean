import ManifestSearch.Chain

/-!
What a chain answers and what it leaves behind, strategy by strategy. The first strategy that does
not answer an empty list decides, and those behind it leave no trace.
-/

namespace ManifestSearch

/-- The name of the strategy that decided: the last one that was run. -/
def ChainRun.source? {σ : Type} (done : ChainRun σ) : Option String :=
  done.called.getLast?.map Strategy.name

namespace Chain

variable {σ : Type}

/-- The first outcome, unless it says that nothing was found. -/
def firstOf (first next : Except Failure (List Path)) : Except Failure (List Path) :=
  match first with
  | .ok [] => next
  | other => other

@[simp]
theorem firstOf_nothing (next : Except Failure (List Path)) : firstOf (.ok []) next = next := rfl

theorem firstOf_of_ne {first : Except Failure (List Path)} (decides : first ≠ .ok [])
    (next : Except Failure (List Path)) : firstOf first next = first := by
  unfold firstOf
  split
  · contradiction
  · rfl

@[simp]
theorem firstOf_last (last : Except Failure (List Path)) : firstOf last (.ok []) = last := by
  unfold firstOf
  split
  · rfl
  · rfl

variable {context : Context} {strategy : Strategy σ} {rest : List (Strategy σ)} {state : σ}

theorem outcome_runAll_cons (context : Context) (strategy : Strategy σ) (rest : List (Strategy σ))
    (state : σ) :
    (runAll context (strategy :: rest) state).report.outcome =
      firstOf (strategy.run context state).report.outcome
        (runAll context rest (strategy.run context state).state).report.outcome := by
  simp only [runAll, step]
  split
  · rename_i failure failed
    rw [failed]
    exact failed
  · rename_i nothing
    rw [nothing]
    rfl
  · rename_i file files found
    rw [found]
    rfl

theorem runAll_cons_decided (rest : List (Strategy σ))
    (decides : (strategy.run context state).report.outcome ≠ .ok []) :
    (runAll context (strategy :: rest) state).state = (strategy.run context state).state ∧
      (runAll context (strategy :: rest) state).called = [strategy] := by
  simp only [runAll, step]
  split
  · exact ⟨rfl, rfl⟩
  · contradiction
  · exact ⟨rfl, rfl⟩

theorem runAll_cons_nothing (rest : List (Strategy σ))
    (nothing : (strategy.run context state).report.outcome = .ok []) :
    (runAll context (strategy :: rest) state).state =
        (runAll context rest (strategy.run context state).state).state ∧
      (runAll context (strategy :: rest) state).called =
        strategy :: (runAll context rest (strategy.run context state).state).called := by
  simp only [runAll, step]
  split
  · rename_i failure failed
    simp [failed] at nothing
  · exact ⟨rfl, rfl⟩
  · rename_i file files found
    simp [found] at nothing

theorem called_ne_nil (context : Context) (strategy : Strategy σ) (rest : List (Strategy σ))
    (state : σ) : (runAll context (strategy :: rest) state).called ≠ [] := by
  by_cases nothing : (strategy.run context state).report.outcome = .ok []
  · simp [(runAll_cons_nothing rest nothing).2]
  · simp [(runAll_cons_decided rest nothing).2]

theorem source?_decided (rest : List (Strategy σ))
    (decides : (strategy.run context state).report.outcome ≠ .ok []) :
    (runAll context (strategy :: rest) state).source? = some strategy.name := by
  rw [ChainRun.source?, (runAll_cons_decided rest decides).2]
  rfl

theorem source?_nothing (next : Strategy σ) (rest : List (Strategy σ))
    (nothing : (strategy.run context state).report.outcome = .ok []) :
    (runAll context (strategy :: next :: rest) state).source? =
      (runAll context (next :: rest) (strategy.run context state).state).source? := by
  have later := called_ne_nil context next rest (strategy.run context state).state
  rw [ChainRun.source?, (runAll_cons_nothing _ nothing).2, List.getLast?_cons_of_ne_nil later]
  rfl

/-- The last strategy of a chain leaves the state that it leaves alone, and is the one that
decides. -/
theorem runAll_last (context : Context) (strategy : Strategy σ) (state : σ) :
    (runAll context [strategy] state).state = (strategy.run context state).state ∧
      (runAll context [strategy] state).source? = some strategy.name := by
  by_cases nothing : (strategy.run context state).report.outcome = .ok []
  · obtain ⟨left, called⟩ := runAll_cons_nothing [] nothing
    refine ⟨left, ?_⟩
    rw [ChainRun.source?, called]
    rfl
  · exact ⟨(runAll_cons_decided [] nothing).1, source?_decided [] nothing⟩

end Chain

end ManifestSearch
