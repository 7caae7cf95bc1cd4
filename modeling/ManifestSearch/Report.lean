import ManifestSearch.Event
import ManifestSearch.Failure

/-!
The outcome of a stage of a search, together with the events on the way to it.
-/

namespace ManifestSearch

instance decidableEqExcept {ε α : Type} [DecidableEq ε] [DecidableEq α] :
    DecidableEq (Except ε α)
  | .ok left, .ok right => decidable_of_iff (left = right) (by simp)
  | .error left, .error right => decidable_of_iff (left = right) (by simp)
  | .ok _, .error _ => .isFalse (by simp)
  | .error _, .ok _ => .isFalse (by simp)

structure Report (α : Type) where
  outcome : Except Failure α
  events : List Event := []

namespace Report

variable {α β : Type}

def ok (value : α) : Report α := ⟨.ok value, []⟩

def fail (failure : Failure) : Report α := ⟨.error failure, []⟩

def after (report : Report α) (events : List Event) : Report α :=
  ⟨report.outcome, events ++ report.events⟩

def bind (report : Report α) (next : α → Report β) : Report β :=
  match report.outcome with
  | .error failure => ⟨.error failure, report.events⟩
  | .ok value => (next value).after report.events

def ofExcept (outcome : Except Failure α) : Report α := ⟨outcome, []⟩

def map (change : α → β) (report : Report α) : Report β :=
  ⟨report.outcome.map change, report.events⟩

/-! The outcome of a stage does not depend on events. -/

@[simp]
theorem outcome_after (report : Report α) (events : List Event) :
    (report.after events).outcome = report.outcome := rfl

@[simp]
theorem outcome_map (change : α → β) (report : Report α) :
    (report.map change).outcome = report.outcome.map change := rfl

@[simp]
theorem outcome_bind (report : Report α) (next : α → Report β) :
    (report.bind next).outcome = report.outcome.bind fun value => (next value).outcome := by
  unfold bind
  cases report.outcome with
  | error failure => rfl
  | ok value => rfl

end Report

end ManifestSearch
