import ManifestSearch.Strategy.Declared
import ManifestSearch.Strategy.Discovered
import ManifestSearch.Strategy.Synthesis

/-!
Strategies in order of preference. The first that finds something or fails decides, and those
behind it are not run.
-/

namespace ManifestSearch

structure Chain (σ : Type) where
  strategies : List (Strategy σ)

structure ChainRun (σ : Type) where
  report : Report (List Path)
  state : σ
  called : List (Strategy σ)

namespace Chain

variable {σ : Type}

def names (chain : Chain σ) : List String := chain.strategies.map Strategy.name

/-- Runs a strategy and, if it finds nothing, what stands behind it. -/
def step (context : Context) (strategy : Strategy σ) (state : σ)
    (otherwise : σ → ChainRun σ) : ChainRun σ :=
  let reply := strategy.run context state
  let report := reply.report.after [.trying strategy.name]
  match reply.report.outcome with
  | .error _ => ⟨report, reply.state, [strategy]⟩
  | .ok [] =>
      let later := otherwise reply.state
      ⟨later.report.after report.events, later.state, strategy :: later.called⟩
  | .ok (file :: files) =>
      let found := Event.resolved strategy.name (files.length + 1)
      ⟨⟨.ok (file :: files), report.events ++ [found]⟩, reply.state, [strategy]⟩

def runAll (context : Context) : List (Strategy σ) → σ → ChainRun σ
  | [], state => ⟨⟨.ok [], [.noManifest context.base]⟩, state, []⟩
  | strategy :: rest, state => step context strategy state (runAll context rest)

def run (chain : Chain σ) (context : Context) (state : σ) : ChainRun σ :=
  runAll context chain.strategies state

/-- Declared manifests, then those found by name. -/
def reduced (convention : Convention) : Chain World :=
  ⟨[Declared.strategy convention, Discovered.strategy convention]⟩

/-- Declared manifests, then those found by name, then a generated one. -/
def full (convention : Convention) (synthesis : Synthesis) : Chain World :=
  ⟨[Declared.strategy convention, Discovered.strategy convention, synthesis.strategy]⟩

end Chain

end ManifestSearch
