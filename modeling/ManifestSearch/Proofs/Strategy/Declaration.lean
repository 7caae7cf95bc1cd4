import ManifestSearch.Proofs.Walk.Outcome
import ManifestSearch.Strategy.Declared

/-!
Declared patterns never make a search fail. Whatever a pattern is, and whatever its plain segments
lead to, it stands for some list of files: a walk starts only at a directory that is there, so it
can fail only in a directory too deep to be opened.
-/

namespace ManifestSearch

variable {disk : Disk}

namespace Pattern

variable {base : Path} {pattern : String} {patterns : List String}
  {outcome : Except Failure (List Path)}

/-- The walk that a pattern makes, if it makes one, enters no directory too deep to be opened. -/
def Clear (disk : Disk) (base : Path) (pattern : String) : Prop :=
  ∀ outcome, finding disk base pattern = .matched outcome →
    Walk.Clear ⟨(scope base (anchor base pattern)).start, []⟩ disk

instance (disk : Disk) (base : Path) (pattern : String) : Decidable (Clear disk base pattern) :=
  match found : finding disk base pattern with
  | .matched outcome =>
      decidable_of_iff (Walk.Clear ⟨(scope base (anchor base pattern)).start, []⟩ disk)
        ⟨fun clear _ _ => clear, fun clear => clear outcome found⟩
  | .file _ | .plain | .malformed _ _ | .noDirectory =>
      .isTrue fun outcome same => by simp [found] at same

theorem Scope.finding_matched {scope : Scope} (found : scope.finding disk = .matched outcome) :
    disk.isDir scope.start.text ∧ ∃ tokens, outcome =
      (Walk.files ⟨scope.start, []⟩ disk).map fun files => files.filter (scope.selects tokens) := by
  unfold Scope.finding at found
  split at found
  · cases found
  · split at found
    · cases found
    · rename_i tokens parsed
      split at found
      · cases found
      · rename_i dir
        cases found
        exact ⟨by simpa using dir, tokens, rfl⟩

theorem finding_matched (found : finding disk base pattern = .matched outcome) :
    (scope base (anchor base pattern)).finding disk = .matched outcome := by
  unfold finding at found
  split at found
  · cases found
  · exact found

theorem found_of_isDir {text : String} (dir : disk.isDir text) : disk.found text := by
  unfold Disk.isDir at dir
  split at dir
  · rename_i inside named
    simp [Disk.found, named]
  · contradiction

theorem resolve_ok (clear : Clear disk base pattern) :
    ∃ files, (resolve disk base pattern).outcome = .ok files := by
  cases found : finding disk base pattern with
  | file path => exact ⟨[path], by simp only [resolve, found, Finding.outcome]⟩
  | plain | malformed glob reason | noDirectory =>
      exact ⟨[], by simp only [resolve, found, Finding.outcome]⟩
  | matched outcome =>
      obtain ⟨dir, tokens, same⟩ := Scope.finding_matched (finding_matched found)
      obtain ⟨files, walked⟩ := Walk.files_of_found (clear outcome found) (found_of_isDir dir)
      refine ⟨files.filter ((scope base (anchor base pattern)).selects tokens), ?_⟩
      simp only [resolve, found, Finding.outcome, same, walked, Except.map]

theorem resolveEach_ok (clear : ∀ pattern ∈ patterns, Clear disk base pattern) :
    ∃ files, (resolveEach disk base patterns).outcome = .ok files := by
  induction patterns with
  | nil => exact ⟨[], rfl⟩
  | cons pattern patterns ih =>
      obtain ⟨first, resolved⟩ := resolve_ok (clear pattern (by simp))
      obtain ⟨others, rest⟩ := ih fun other member => clear other (List.mem_cons_of_mem pattern member)
      exact ⟨first ++ others, by simp [resolveEach, resolved, rest, Except.bind, Except.map]⟩

end Pattern

namespace Declared

variable {keys : Keys} {context : Context}

/-- The patterns that count, each once. -/
def Keys.patterns (keys : Keys) (properties : Properties) : List String :=
  match keys.selected? properties with
  | none => []
  | some key => Text.distinct ((properties.get? key).getD [])

theorem search_outcome (keys : Keys) (disk : Disk) (context : Context) :
    (search keys disk context).outcome =
      (Pattern.resolveAll disk context.base (keys.patterns context.properties)).outcome := by
  unfold search Keys.patterns
  cases keys.selected? context.properties with
  | none => rfl
  | some key =>
      simp only [Report.outcome_after, Report.outcome_bind]
      cases (Pattern.resolveAll disk context.base
        (Text.distinct ((context.properties.get? key).getD []))).outcome with
      | error failure => rfl
      | ok files => rfl

/-- A search for declared manifests answers a list, unless one of its walks is too deep. -/
theorem search_ok (clear : ∀ pattern ∈ keys.patterns context.properties,
      Pattern.Clear disk context.base pattern) :
    ∃ files, (search keys disk context).outcome = .ok files := by
  obtain ⟨files, resolved⟩ := Pattern.resolveEach_ok clear
  refine ⟨Text.distinct files, ?_⟩
  simp only [search_outcome, Pattern.resolveAll, Report.outcome_map, resolved, Except.map]

end Declared

end ManifestSearch
