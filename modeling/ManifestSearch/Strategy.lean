import ManifestSearch.Context
import ManifestSearch.Report

/-!
Ways to find manifests. A strategy sees the context and a state, which it may change; an empty
list says that it found nothing, a failure that it could not search.
-/

namespace ManifestSearch

structure Reply (σ : Type) where
  report : Report (List Path)
  state : σ

structure Strategy (σ : Type) where
  name : String
  run : Context → σ → Reply σ

namespace Strategy

variable {σ : Type}

/-- A strategy that only looks. -/
def observing (name : String) (look : Context → σ → Report (List Path)) : Strategy σ where
  name := name
  run context state := ⟨look context state, state⟩

end Strategy

end ManifestSearch
